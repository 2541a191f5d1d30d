import GMesh.OwedFiles

namespace GMesh

open List Nat

namespace PassTables

variable {t u : PassTables} {language path : String} {requested : List String}

def attemptsLeft (t : PassTables) (language path : String) : Nat :=
  match t.owed.find? (language, path) with
  | some r => maxOwedAttempts - r.attempts
  | none => 0

theorem attemptsLeft_none (h : t.owed.find? (language, path) = none) : t.attemptsLeft language path = 0 := by
  unfold attemptsLeft
  rw [h]

theorem attemptsLeft_congr (h : u.owed.find? (language, path) = t.owed.find? (language, path)) :
    u.attemptsLeft language path = t.attemptsLeft language path := by
  unfold attemptsLeft
  rw [h]

theorem Sound.attemptsLeft_lt (s : t.Sound) : t.attemptsLeft language path < maxOwedAttempts := by
  unfold attemptsLeft
  split
  next r hr =>
    have := (s _ r hr).1
    unfold maxOwedAttempts
    omega
  next => exact zero_lt_succ 2

/-- A counted attempt leaves one less. -/
theorem Sound.spend (s : t.Sound) (howed : path ∈ t.owedFiles language)
    (h : u.owed.find? (language, path) = none ∨ u.owed.find? (language, path) =
      if maxOwedAttempts ≤ t.attemptsOf language path + 1 then none
      else some ⟨language, path, t.attemptsOf language path + 1⟩) :
    u.attemptsLeft language path + 1 ≤ t.attemptsLeft language path := by
  obtain ⟨r, hr⟩ := Option.isSome_iff_exists.mp (mem_owedFiles.mp howed)
  obtain ⟨_, hmax, _⟩ := s _ r hr
  have hbefore : t.attemptsLeft language path = maxOwedAttempts - r.attempts := by
    unfold attemptsLeft
    rw [hr]
  have hattempts : t.attemptsOf language path = r.attempts := by
    unfold attemptsOf
    rw [hr]
    rfl
  rw [hbefore]
  rcases h with h | h
  · rw [attemptsLeft_none h]
    omega
  · rw [hattempts] at h
    split at h
    next =>
      rw [attemptsLeft_none h]
      omega
    next hlt =>
      unfold attemptsLeft
      rw [h]
      dsimp only
      omega

section Settle

variable {settled unfinished sent : List String}

theorem settleOwedFiles_settled (hs : path ∈ settled) (hu : path ∉ unfinished) :
    (t.settleOwedFiles language requested settled unfinished).owed.find? (language, path) = none := by
  unfold settleOwedFiles
  rw [count_foldl_owed_ne fun h => hu h.2, settle_foldl_owed, if_pos ⟨rfl, hs⟩]

theorem settleOwedFiles_untouched {key : String × String} (hs : ¬ (key.1 = language ∧ key.2 ∈ settled))
    (hu : ¬ (key.1 = language ∧ key.2 ∈ unfinished)) :
    (t.settleOwedFiles language requested settled unfinished).owed.find? key = t.owed.find? key := by
  unfold settleOwedFiles
  rw [count_foldl_owed_ne hu, settle_foldl_owed, if_neg hs]

theorem settleOwedFiles_counted (hs : path ∉ settled) (hr : path ∉ requested) (hone : unfinished.count path = 1) :
    (t.settleOwedFiles language requested settled unfinished).owed.find? (language, path) =
      if maxOwedAttempts ≤ t.attemptsOf language path + 1 then none
      else some ⟨language, path, t.attemptsOf language path + 1⟩ := by
  have hsame : (settled.foldl (settleFile language) t).attemptsOf language path = t.attemptsOf language path := by
    unfold attemptsOf
    rw [settle_foldl_owed, if_neg fun h => hs h.2]
  unfold settleOwedFiles
  rw [count_foldl_owed hr hone, hsame]

theorem Sound.settle_sent (s : t.Sound) (hone : sent.count path = 1) (hr : path ∉ requested)
    (howed : path ∈ t.owedFiles language) (p : String → Bool) :
    (t.settleOwedFiles language requested (sent.filter (fun path => decide (path ∉ sent.filter p)))
      (sent.filter p)).attemptsLeft language path + 1 ≤ t.attemptsLeft language path := by
  have hmem : path ∈ sent := count_pos_iff.mp (by omega)
  refine s.spend howed ?_
  by_cases hp : p path
  · refine .inr (settleOwedFiles_counted (fun hm => ?_) hr ?_)
    · exact of_decide_eq_true (mem_filter.mp hm).2 (mem_filter.mpr ⟨hmem, hp⟩)
    · rw [count_filter hp, hone]
  · have hu : path ∉ sent.filter p := fun hm => hp (mem_filter.mp hm).2
    exact .inl (settleOwedFiles_settled (mem_filter.mpr ⟨hmem, decide_eq_true hu⟩) hu)

end Settle

theorem owedFiles_count (howed : path ∈ t.owedFiles language) : (t.owedFiles language).count path = 1 :=
  count_eq_one_of_mem owedFiles_nodup howed

theorem sent_count (hr : path ∉ requested) (howed : path ∈ t.owedFiles language) :
    (PassScope.files requested (t.owedFiles language)).sent.count path = 1 := by
  rw [PassScope.sent_files owedFiles_nodup, count_append, count_eq_zero.mpr hr, zero_add,
    count_filter (by simpa using hr), owedFiles_count howed]

theorem mem_sent : path ∈ (PassScope.files requested (t.owedFiles language)).sent ↔
    path ∈ requested ∨ path ∈ t.owedFiles language := by
  rw [PassScope.sent_files owedFiles_nodup, mem_append, mem_filter, decide_eq_true_iff]
  constructor
  · rintro (h | h)
    · exact .inl h
    · exact .inr h.1
  · rintro (h | h)
    · exact .inl h
    · by_cases hr : path ∈ requested
      · exact .inl hr
      · exact .inr ⟨h, hr⟩

theorem attemptsLeft_recordOutcome (outcome : Except String PassOutcome) :
    (t.recordOutcome language outcome).attemptsLeft language path ≤ t.attemptsLeft language path := by
  have hcleared : ∀ u : PassTables, u.owed = (t.clearOwedFiles language).owed →
      u.attemptsLeft language path ≤ t.attemptsLeft language path := by
    intro u hu
    rw [attemptsLeft_none (t := u)]
    · exact zero_le _
    · rw [hu, clearOwedFiles_owed, if_pos rfl]
  match outcome with
  | .ok .complete => exact hcleared _ rfl
  | .ok .settled => exact hcleared _ rfl
  | .ok (.residual _) => exact le_refl _
  | .error _ => exact le_refl _

def NamesOwed (language path : String) (t : PassTables) (answer : Except String PassAnswer) : Prop :=
  ∀ a named, answer = .ok a → a.incomplete = true → a.unfinishedFiles = some named → path ∈ named →
    path ∈ t.owedFiles language ∧ named.count path = 1

/-- An owed file pays for being sent: a pass over edited files is not sent for it and lists what it left, and a whole-
project pass does not owe it anew. -/
def Counted (language path : String) (t : PassTables) : SemanticPass → Prop
  | .wholeProject answer => NamesOwed language path t answer
  | .start answer => t.semanticResidualFiles language = none → NamesOwed language path t answer
  | .files requested answer => path ∉ requested ∧
    (path ∈ t.owedFiles language → ∃ a, answer = .ok a ∧ a.unfinishedFiles.isSome)

variable {answer : Except String PassAnswer}

/-- A whole-project pass that completes nothing gives no owed file new attempts. -/
theorem Sound.wholeProject_left (s : t.Sound) (h : NamesOwed language path t answer) :
    (t.applySemanticPassIn language .wholeProject answer).2 = .ok .complete ∨
      (t.applySemanticPassIn language .wholeProject answer).1.attemptsLeft language path ≤ t.attemptsLeft language path := by
  unfold PassTables.applySemanticPassIn
  cases answer with
  | error err => exact .inr (le_refl _)
  | ok a =>
    dsimp only
    split
    next hi =>
      split
      next => exact .inr (le_refl _)
      next named hnamed =>
        right
        have howed : ((t.clearGaps language).settleOwedFiles language []
            ((t.owedFiles language).filter fun path => decide (path ∉ named)) named).attemptsLeft language path ≤
            t.attemptsLeft language path := by
          by_cases hp : path ∈ named
          · obtain ⟨howed, hone⟩ := h a named rfl hi hnamed hp
            have hspend := (s.clearGaps language).spend (u := (t.clearGaps language).settleOwedFiles language []
              ((t.owedFiles language).filter fun path => decide (path ∉ named)) named) howed
              (.inr (settleOwedFiles_counted (fun hm => of_decide_eq_true (mem_filter.mp hm).2 hp) not_mem_nil hone))
            exact le_of_succ_le hspend
          · by_cases howed : path ∈ t.owedFiles language
            · rw [attemptsLeft_none (settleOwedFiles_settled (mem_filter.mpr ⟨howed, decide_eq_true hp⟩) hp)]
              exact zero_le _
            · exact le_of_eq (attemptsLeft_congr (settleOwedFiles_untouched
                (fun hm => howed (mem_filter.mp hm.2).1) fun hm => hp hm.2))
        exact howed
    next => exact .inl rfl

/-- A residual pass spends an attempt of every file it is sent. -/
theorem Sound.residual_left (s : t.Sound) (answer : Except String PassAnswer) :
    (if path ∈ t.owedFiles language then 1 else 0) +
      (t.applySemanticPassIn language (.residual (t.owedFiles language)) answer).1.attemptsLeft language path ≤
      t.attemptsLeft language path := by
  unfold PassTables.applySemanticPassIn PassScope.sent
  by_cases howed : path ∈ t.owedFiles language
  · rw [if_pos howed, add_comm]
    cases answer with
    | error err =>
      exact s.spend howed (.inr (settleOwedFiles_counted not_mem_nil not_mem_nil (owedFiles_count howed)))
    | ok a =>
      obtain ⟨p, hp⟩ : ∃ p, residualUnfinished (t.owedFiles language) a = (t.owedFiles language).filter p := by
        unfold residualUnfinished
        split
        next => exact ⟨_, rfl⟩
        next =>
          split
          next => exact ⟨fun _ => true, by simp⟩
          next => exact ⟨fun _ => false, by simp⟩
      dsimp only
      rw [hp]
      exact s.settle_sent (owedFiles_count howed) not_mem_nil howed p
  · rw [if_neg howed, zero_add]
    refine Nat.le_trans (le_of_eq (attemptsLeft_none ?_)) (zero_le _)
    have hnone : t.owed.find? (language, path) = none := by
      rw [mem_owedFiles] at howed
      simpa using howed
    cases answer with
    | error err =>
      exact (settleOwedFiles_untouched (fun h => not_mem_nil h.2) fun h => howed h.2).trans hnone
    | ok a =>
      refine (settleOwedFiles_untouched (fun h => howed (mem_filter.mp h.2).1) fun h => howed ?_).trans hnone
      have h := h.2
      unfold residualUnfinished at h
      split at h
      next => exact (mem_filter.mp h).1
      next =>
        split at h
        next => exact h
        next => cases h

/-- A pass over edited files spends an attempt of every owed file it is sent. -/
theorem Sound.files_left (s : t.Sound) (hr : path ∉ requested)
    (hlist : path ∈ t.owedFiles language → ∃ a, answer = .ok a ∧ a.unfinishedFiles.isSome) :
    (if path ∈ t.sentOwed language (.files requested answer) then 1 else 0) +
      (t.runPass language (.files requested answer)).attemptsLeft language path ≤ t.attemptsLeft language path := by
  have hsent : path ∈ t.sentOwed language (.files requested answer) ↔ path ∈ t.owedFiles language := by
    show path ∈ (t.owedFiles language).filter (fun path => decide (path ∉ requested)) ↔ _
    rw [mem_filter, decide_eq_true_iff]
    exact and_iff_left hr
  show _ + (t.applySemanticPassIn language (.files requested (t.owedFiles language)) answer).1.attemptsLeft language path ≤ _
  simp only [hsent]
  unfold PassTables.applySemanticPassIn
  by_cases howed : path ∈ t.owedFiles language
  · obtain ⟨a, rfl, hlisted⟩ := hlist howed
    obtain ⟨named, hnamed⟩ := Option.isSome_iff_exists.mp hlisted
    rw [if_pos howed, add_comm]
    dsimp only
    rw [hnamed]
    exact (s.clearSemanticPendingFiles _).settle_sent (sent_count hr howed) hr howed fun path => decide (path ∈ named)
  · rw [if_neg howed, zero_add]
    have hunsent : path ∉ (PassScope.files requested (t.owedFiles language)).sent :=
      fun h => (mem_sent.mp h).elim hr howed
    cases answer with
    | error err => exact le_refl _
    | ok a =>
      dsimp only
      split
      next named hnamed =>
        refine le_of_eq (attemptsLeft_congr (settleOwedFiles_untouched ?_ ?_)) <;>
          exact fun h => hunsent (mem_filter.mp h.2).1
      next =>
        split
        next => exact le_refl _
        next => exact le_refl _

theorem runPass_start_whole (h : t.semanticResidualFiles language = none) (answer : Except String PassAnswer) :
    t.scopeOf language (.start answer) = some .wholeProject ∧
      t.runPass language (.start answer) = (t.applySemanticPassIn language .wholeProject answer).1.recordOutcome
        language (t.applySemanticPassIn language .wholeProject answer).2 := by
  have hscope : t.scopeOf language (.start answer) = some .wholeProject := by
    unfold scopeOf
    rw [h]
  refine ⟨hscope, ?_⟩
  unfold runPass
  rw [hscope]

theorem runPass_start_nothingLeft (h : t.semanticResidualFiles language = some []) (answer : Except String PassAnswer) :
    t.scopeOf language (.start answer) = none ∧
      t.runPass language (.start answer) = t.recordLanguageSemanticPassSettled language := by
  have hscope : t.scopeOf language (.start answer) = none := by
    unfold scopeOf
    rw [h]
  refine ⟨hscope, ?_⟩
  unfold runPass
  rw [hscope]

section

variable {files : List String} (h : t.semanticResidualFiles language = some files)

include h

theorem runPass_start_residual (hfiles : files ≠ []) (answer : Except String PassAnswer) :
    t.scopeOf language (.start answer) = some (.residual files) ∧
      t.runPass language (.start answer) = (t.applySemanticPassIn language (.residual files) answer).1.recordOutcome
        language (t.applySemanticPassIn language (.residual files) answer).2 := by
  have hscope : t.scopeOf language (.start answer) = some (.residual files) := by
    unfold scopeOf
    rw [h]
    cases files with
    | nil => exact absurd rfl hfiles
    | cons => rfl
  refine ⟨hscope, ?_⟩
  unfold runPass
  rw [hscope]

theorem semanticResidualFiles_eq_some : t.owedFiles language = files := by
  unfold semanticResidualFiles at h
  split at h
  next => exact Option.some.inj h
  next => cases h

end

/-- Every counted pass spends an attempt of a file it is sent for. -/
theorem Sound.runPass_left (s : t.Sound) {pass : SemanticPass} (h : Counted language path t pass) :
    (if path ∈ t.sentOwed language pass then 1 else 0) + (t.runPass language pass).attemptsLeft language path ≤
      t.attemptsLeft language path := by
  have hcleared : ∀ {u : PassTables}, (u.clearOwedFiles language).owed.find? (language, path) = none :=
    fun {u} => (clearOwedFiles_owed _).trans (if_pos rfl)
  have hwhole : ∀ answer, NamesOwed language path t answer →
      ((t.applySemanticPassIn language .wholeProject answer).1.recordOutcome language
        (t.applySemanticPassIn language .wholeProject answer).2).attemptsLeft language path ≤
        t.attemptsLeft language path := by
    intro answer hn
    rcases s.wholeProject_left hn with hc | hle
    · rw [hc]
      exact Nat.le_trans (le_of_eq (attemptsLeft_none hcleared)) (zero_le _)
    · exact Nat.le_trans (attemptsLeft_recordOutcome _) hle
  cases pass with
  | wholeProject answer =>
    have hsent : t.sentOwed language (.wholeProject answer) = [] := rfl
    rw [hsent, if_neg not_mem_nil, zero_add]
    exact hwhole answer h
  | start answer =>
    unfold sentOwed
    cases hr : t.semanticResidualFiles language with
    | none =>
      obtain ⟨hscope, hrun⟩ := runPass_start_whole hr answer
      rw [hscope, hrun, if_neg not_mem_nil, zero_add]
      exact hwhole answer (h hr)
    | some files =>
      by_cases hnil : files = []
      · obtain ⟨hscope, hrun⟩ := runPass_start_nothingLeft (hnil ▸ hr) answer
        rw [hscope, hrun, if_neg not_mem_nil, zero_add]
        exact Nat.le_trans (le_of_eq (attemptsLeft_none hcleared)) (zero_le _)
      · obtain ⟨hscope, hrun⟩ := runPass_start_residual hr hnil answer
        rw [hscope, hrun, ← semanticResidualFiles_eq_some hr]
        exact Nat.le_trans (Nat.add_le_add_left (attemptsLeft_recordOutcome _) _) (s.residual_left answer)
  | files requested answer => exact s.files_left h.1 h.2

/-- A pass leaves the files of other languages alone. -/
theorem runPass_other {other : String} (ho : language ≠ other) (pass : SemanticPass) :
    (t.runPass other pass).owed.find? (language, path) = t.owed.find? (language, path) := by
  have hsettle : ∀ (u : PassTables) requested settled unfinished,
      (u.settleOwedFiles other requested settled unfinished).owed.find? (language, path) =
        u.owed.find? (language, path) :=
    fun u requested settled unfinished => settleOwedFiles_untouched (fun h => ho h.1) fun h => ho h.1
  have hclear : ∀ u : PassTables, (u.clearOwedFiles other).owed.find? (language, path) = u.owed.find? (language, path) :=
    fun u => (clearOwedFiles_owed _).trans (if_neg ho)
  have happly : ∀ scope answer, (t.applySemanticPassIn other scope answer).1.owed.find? (language, path) =
      t.owed.find? (language, path) := by
    intro scope answer
    unfold applySemanticPassIn
    split
    next => exact hsettle _ _ _ _
    next => rfl
    next =>
      split
      next =>
        split
        next => rfl
        next => exact hsettle _ _ _ _
      next => rfl
    next => exact hsettle _ _ _ _
    next =>
      split
      next => exact hsettle _ _ _ _
      next => split <;> rfl
  have hrecord : ∀ (u : PassTables) outcome, (u.recordOutcome other outcome).owed.find? (language, path) =
      u.owed.find? (language, path) := by
    intro u outcome
    cases outcome with
    | ok outcome =>
      cases outcome with
      | complete => exact hclear u
      | settled => exact hclear u
      | residual => rfl
    | error => rfl
  unfold runPass
  split
  next => exact (hrecord _ _).trans (happly _ _)
  next => exact (hrecord _ _).trans (happly _ _)
  next => exact happly _ _
  next => exact hclear t

def CountedRun (language path : String) : PassTables → List (String × SemanticPass) → Prop
  | _, [] => True
  | t, p :: ps => (p.1 = language → Counted language path t p.2) ∧ CountedRun language path (t.runPass p.1 p.2) ps

def sends (language path : String) : PassTables → List (String × SemanticPass) → Nat
  | _, [] => 0
  | t, p :: ps => (if p.1 = language ∧ path ∈ t.sentOwed language p.2 then 1 else 0) +
    sends language path (t.runPass p.1 p.2) ps

theorem Sound.sends_le (s : t.Sound) {passes : List (String × SemanticPass)} (h : CountedRun language path t passes) :
    sends language path t passes ≤ t.attemptsLeft language path := by
  induction passes generalizing t with
  | nil => exact zero_le _
  | cons p _ ih =>
    have hrest := ih (s.runPass p.2) h.2
    unfold sends
    by_cases hl : p.1 = language
    · have hpass := s.runPass_left (h.1 hl)
      rw [hl] at hrest ⊢
      simp only [true_and]
      omega
    · have hsame : (t.runPass p.1 p.2).attemptsLeft language path = t.attemptsLeft language path :=
        attemptsLeft_congr (runPass_other (Ne.symm hl) p.2)
      rw [if_neg fun hm => hl hm.1]
      omega

end PassTables

/-- An owed file's attempts stay within bounds, no file is owed and given up, and a file is sent as owed by fewer
passes than it has attempts, as long as these count it. -/
theorem owed_file_bounded (history later : List (String × SemanticPass)) (language path : String)
    (hcounted : PassTables.CountedRun language path (({} : PassTables).run history) later) :
    (∀ r ∈ (({} : PassTables).run (history ++ later)).owed, 1 ≤ r.attempts ∧ r.attempts ≤ maxOwedAttempts - 1 ∧
      (r.language, r.filePath) ∉ (({} : PassTables).run (history ++ later)).gaps) ∧
    PassTables.sends language path (({} : PassTables).run history) later < maxOwedAttempts := by
  have hempty : ({} : PassTables).Sound := fun key r hr => nomatch hr
  have s := hempty.run history
  refine ⟨fun r hr => ?_, lt_of_le_of_lt (s.sends_le hcounted) s.attemptsLeft_lt⟩
  obtain ⟨hpos, hmax, hgap⟩ := hempty.run (history ++ later) (r.language, r.filePath) r (KeyedTable.find?_key hr)
  refine ⟨hpos, by omega, fun hg => ?_⟩
  rw [KeyedTable.find?_key hg] at hgap
  cases hgap

def unfinishedEdit : List (String × SemanticPass) :=
  [("rust", .files ["f"] (.ok { incomplete := true, unfinishedFiles := some ["f"] }))]

def otherEdit (answer : Except String PassAnswer) : String × SemanticPass := ("rust", .files ["g"] answer)

theorem unfinishedEdit_owes : "f" ∈ (({} : PassTables).run unfinishedEdit).owedFiles "rust" := by
  decide +kernel

theorem owed_file_bounded_listed : PassTables.sends "rust" "f" (({} : PassTables).run unfinishedEdit)
    (List.replicate 4 (otherEdit (.ok { incomplete := true, unfinishedFiles := some ["f"] }))) < 3 := by
  refine (owed_file_bounded unfinishedEdit _ "rust" "f" ?_).2
  exact ⟨fun _ => ⟨by decide, fun _ => ⟨_, rfl, rfl⟩⟩, fun _ => ⟨by decide, fun _ => ⟨_, rfl, rfl⟩⟩,
    fun _ => ⟨by decide, fun _ => ⟨_, rfl, rfl⟩⟩, fun _ => ⟨by decide, fun _ => ⟨_, rfl, rfl⟩⟩, trivial⟩

/-- Passes that fail, or list nothing, are sent an owed file as often as they come. -/
theorem owed_file_resent :
    PassTables.sends "rust" "f" (({} : PassTables).run unfinishedEdit) (List.replicate 4 (otherEdit (.error "timed out"))) =
      4 ∧
    PassTables.sends "rust" "f" (({} : PassTables).run unfinishedEdit)
      (List.replicate 4 (otherEdit (.ok { incomplete := true }))) = 4 ∧ maxOwedAttempts < 4 := by
  have hsent : ∀ answer, "f" ∈ (({} : PassTables).run unfinishedEdit).sentOwed "rust" (.files ["g"] answer) := by
    intro answer
    exact mem_filter.mpr ⟨unfinishedEdit_owes, by decide⟩
  have hsends : ∀ answer n, (({} : PassTables).run unfinishedEdit).runPass "rust" (.files ["g"] answer) =
      ({} : PassTables).run unfinishedEdit → PassTables.sends "rust" "f" (({} : PassTables).run unfinishedEdit)
      (List.replicate n (otherEdit answer)) = n := by
    intro answer n hsame
    induction n with
    | zero => rfl
    | succ n ih =>
      show (if _ ∧ _ then 1 else 0) + PassTables.sends "rust" "f" _ _ = n + 1
      rw [if_pos ⟨rfl, hsent answer⟩]
      show 1 + PassTables.sends "rust" "f" ((({} : PassTables).run unfinishedEdit).runPass "rust" (.files ["g"] answer)) _ = _
      rw [hsame, ih, add_comm]
  exact ⟨hsends _ 4 rfl, hsends _ 4 rfl, by decide⟩

end GMesh
