import GMesh.OwedAttempts

namespace GMesh

open KeyedTable List

namespace PassTables

variable {t : PassTables} {language path : String}

def semanticPassDone (t : PassTables) (language : String) : Bool :=
  ((t.states.find? language).map (·.passed)).getD false

def startDaemon (language : String) (t : PassTables) (answer : Except String PassAnswer) : PassTables :=
  if t.semanticPassDone language then t else t.runPass language (.start answer)

def startDaemons (t : PassTables) (language : String) (answers : List (Except String PassAnswer)) : PassTables :=
  answers.foldl (startDaemon language) t

def AsksWholeProject (t : PassTables) (language : String) (answer : Except String PassAnswer) : Prop :=
  t.semanticPassDone language = false ∧ t.scopeOf language (.start answer) = some .wholeProject

def AnswersFile (t : PassTables) (language path : String) : Except String PassAnswer → Prop
  | .error _ => False
  | .ok a => path ∈ t.owedFiles language ∧ path ∉ residualUnfinished (t.owedFiles language) a

def AnsweredIn (language path : String) : PassTables → List (Except String PassAnswer) → Prop
  | _, [] => False
  | t, answer :: rest => t.semanticPassDone language = false ∧ t.AnswersFile language path answer ∨
    AnsweredIn language path (t.startDaemon language answer) rest

/-- A file no pass has answered: owed still, or given up. -/
def Unanswered (t : PassTables) (language path : String) : Prop :=
  (t.owed.find? (language, path)).isSome ∨ (t.gaps.find? (language, path)).isSome

structure Settling (t : PassTables) (language : String) : Prop where
  sound : t.Sound
  residual : t.semanticPassDone language = false → t.residual.contains language = true
  settled : t.semanticPassDone language = true → t.owedFiles language = []

variable {requested : List String} {answer : Except String PassAnswer} {other : String}

namespace Unanswered

variable (h : t.Unanswered language path)

include h

theorem settleFile (hne : path ≠ other) : (settleFile language t other).Unanswered language path := by
  have hkey : (language, path) ≠ (language, other) := fun he => hne (congrArg Prod.snd he)
  unfold Unanswered
  rw [settleFile_owed, settleFile_gaps, if_neg hkey, if_neg hkey]
  exact h

theorem countAttempt : (countAttempt language requested t other).Unanswered language path := by
  by_cases hsame : path = other
  · subst hsame
    unfold PassTables.countAttempt
    split
    next =>
      right
      rw [find?_insertIgnore]
      split
      · rfl
      next hheld =>
        rw [not_and, Bool.not_eq_false] at hheld
        exact hheld rfl
    next =>
      left
      rw [find?_put, if_pos rfl]
      rfl
  · have hkey : (language, path) ≠ (language, other) := fun he => hsame (congrArg Prod.snd he)
    unfold Unanswered
    rw [countAttempt_owed, if_neg hkey, countAttempt_gaps_ne hkey]
    exact h

theorem settleOwedFiles {settled unfinished : List String} (hsettled : path ∉ settled) :
    (t.settleOwedFiles language requested settled unfinished).Unanswered language path := by
  refine foldlRecOn (motive := (Unanswered · language path)) _ _ ?_ fun _ h _ _ => countAttempt h
  exact foldlRecOn (motive := (Unanswered · language path)) _ _ h fun _ h _ hm =>
    settleFile h fun he => hsettled (he ▸ hm)

theorem residual (hanswer : ¬ t.AnswersFile language path answer) :
    (t.applySemanticPassIn language (.residual (t.owedFiles language)) answer).1.Unanswered language path := by
  cases answer with
  | error err => exact h.settleOwedFiles not_mem_nil
  | ok a =>
    refine h.settleOwedFiles fun hsettled => hanswer ?_
    obtain ⟨hsent, hfinished⟩ := mem_filter.mp hsettled
    exact ⟨hsent, of_decide_eq_true hfinished⟩

end Unanswered

section Marks

variable {requested settled unfinished : List String}

theorem settleOwedFiles_marks :
    (t.settleOwedFiles language requested settled unfinished).states = t.states ∧
      (t.settleOwedFiles language requested settled unfinished).residual = t.residual := by
  have hsettled := foldlRecOn (motive := fun u : PassTables => u.states = t.states ∧ u.residual = t.residual) settled
    (settleFile language) ⟨rfl, rfl⟩ fun _ h _ _ => h
  refine foldlRecOn (motive := fun u : PassTables => u.states = t.states ∧ u.residual = t.residual) _ _ hsettled ?_
  intro u h path _
  unfold countAttempt
  split <;> exact h

end Marks

theorem semanticPassDone_settled : (t.recordLanguageSemanticPassSettled language).semanticPassDone language := by
  show (((t.states.put ⟨language, true, none⟩).find? language).map (·.passed)).getD false
  rw [find?_put, if_pos rfl]
  rfl

theorem semanticPassDone_failed (t : PassTables) (language reason : String) :
    (t.recordLanguageSemanticPassFailure language reason).semanticPassDone language = t.semanticPassDone language := by
  show (((t.states.put ⟨language, _, some reason⟩).find? language).map (·.passed)).getD false = _
  rw [find?_put, if_pos rfl]
  rfl

theorem owedFiles_settled : (t.recordLanguageSemanticPassSettled language).owedFiles language = [] := by
  refine eq_nil_iff_forall_not_mem.mpr fun path hpath => ?_
  have howed := mem_owedFiles.mp hpath
  have hcleared : (t.clearOwedFiles language).owed.find? (language, path) = none :=
    (clearOwedFiles_owed _).trans (if_pos rfl)
  have hsame : (t.recordLanguageSemanticPassSettled language).owed = (t.clearOwedFiles language).owed := rfl
  rw [hsame, hcleared] at howed
  cases howed

theorem Settling.recordSettled (hs : t.Sound) : (t.recordLanguageSemanticPassSettled language).Settling language where
  sound := (hs.clearOwedFiles language).of_eq rfl rfl
  residual := fun hopen => absurd semanticPassDone_settled (by rw [hopen]; exact Bool.false_ne_true)
  settled := fun _ => owedFiles_settled

/-- A residual pass marks the language done only once none of its files is owed. -/
theorem Settling.residualPass (h : t.Settling language) (hopen : t.semanticPassDone language = false)
    (answer : Except String PassAnswer) {applied : PassTables × Except String PassOutcome}
    (happlied : t.applySemanticPassIn language (.residual (t.owedFiles language)) answer = applied) :
    (applied.1.recordOutcome language applied.2).Settling language ∧
      ((applied.1.recordOutcome language applied.2).semanticPassDone language → applied.1.owedFiles language = []) := by
  have hsound : applied.1.Sound := happlied ▸ h.sound.applySemanticPassIn _ _
  have hmarks : applied.1.states = t.states ∧ applied.1.residual = t.residual := by
    cases answer with
    | error err => exact happlied ▸ settleOwedFiles_marks
    | ok a => exact happlied ▸ settleOwedFiles_marks
  have hdone : applied.1.semanticPassDone language = false := by
    unfold semanticPassDone at hopen ⊢
    rw [hmarks.1, hopen]
  have hresidual : applied.1.residual.contains language := by
    rw [hmarks.2]
    exact h.residual hopen
  have hstays : applied.1.Settling language :=
    ⟨hsound, fun _ => hresidual, fun hpassed => absurd (hdone.symm.trans hpassed) Bool.false_ne_true⟩
  cases answer with
  | error err =>
    have hout : applied.2 = .error err := happlied ▸ rfl
    rw [hout]
    have hfailed := (semanticPassDone_failed applied.1 language err).trans hdone
    exact ⟨⟨hsound.of_eq rfl rfl, fun _ => hresidual, fun hpassed => absurd (hfailed.symm.trans hpassed) Bool.false_ne_true⟩,
      fun hpassed => absurd (hfailed.symm.trans hpassed) Bool.false_ne_true⟩
  | ok a =>
    have hout : applied.2 = .ok (PassOutcome.left (applied.1.owedFiles language).length) := happlied ▸ rfl
    rw [hout]
    unfold PassOutcome.left
    split
    next hnone => exact ⟨.recordSettled hsound, fun _ => length_eq_zero_iff.mp hnone⟩
    next => exact ⟨hstays, fun hpassed => absurd (hdone.symm.trans hpassed) Bool.false_ne_true⟩

theorem Unanswered.gap (h : t.Unanswered language path) (hnone : t.owedFiles language = []) :
    (t.gaps.find? (language, path)).isSome := by
  refine h.resolve_left fun howed => ?_
  have := mem_owedFiles.mpr howed
  rw [hnone] at this
  exact not_mem_nil this

theorem Unanswered.recordOutcome (h : t.Unanswered language path) (outcome : Except String PassOutcome)
    (hout : outcome ≠ .ok .complete)
    (hnone : (t.recordOutcome language outcome).semanticPassDone language → t.owedFiles language = []) :
    (t.recordOutcome language outcome).Unanswered language path := by
  match outcome with
  | .ok .complete => exact absurd rfl hout
  | .ok .settled => exact .inr (h.gap (hnone semanticPassDone_settled))
  | .ok (.residual _) => exact h
  | .error _ => exact h

theorem residual_not_complete (files : List String) (answer : Except String PassAnswer) :
    (t.applySemanticPassIn language (.residual files) answer).2 ≠ .ok .complete := by
  cases answer with
  | error err => exact fun he => nomatch he
  | ok a =>
    show Except.ok (PassOutcome.left _) ≠ .ok .complete
    unfold PassOutcome.left
    split <;> exact fun he => nomatch he

section

variable (h : t.Settling language) (hopen : t.semanticPassDone language = false)

include h hopen

theorem Settling.residualFiles : t.semanticResidualFiles language = some (t.owedFiles language) := by
  unfold semanticResidualFiles
  rw [if_pos (h.residual hopen)]

/-- A start keeps the language settled or its pass open. -/
theorem Settling.runPass (answer : Except String PassAnswer) :
    (t.runPass language (.start answer)).Settling language := by
  have hfiles := h.residualFiles hopen
  by_cases hnil : t.owedFiles language = []
  · rw [(runPass_start_nothingLeft (hnil ▸ hfiles) answer).2]
    exact .recordSettled h.sound
  · rw [(runPass_start_residual hfiles hnil answer).2]
    exact (h.residualPass hopen answer rfl).1

omit hopen in
theorem Settling.startDaemon (answer : Except String PassAnswer) :
    (t.startDaemon language answer).Settling language := by
  unfold PassTables.startDaemon
  split
  next => exact h
  next hopen => exact h.runPass (Bool.eq_false_iff.mpr hopen) answer

omit hopen in
theorem Unanswered.startDaemon (hpath : t.Unanswered language path)
    (hanswer : ¬ (t.semanticPassDone language = false ∧ t.AnswersFile language path answer)) :
    (t.startDaemon language answer).Unanswered language path := by
  unfold PassTables.startDaemon
  split
  next => exact hpath
  next hpassed =>
    have hopen := Bool.eq_false_iff.mpr hpassed
    have hfiles := h.residualFiles hopen
    by_cases hnil : t.owedFiles language = []
    · rw [(runPass_start_nothingLeft (hnil ▸ hfiles) answer).2]
      exact .inr (hpath.gap hnil)
    · rw [(runPass_start_residual hfiles hnil answer).2]
      exact (hpath.residual fun ha => hanswer ⟨hopen, ha⟩).recordOutcome _ (residual_not_complete _ answer)
        (h.residualPass hopen answer rfl).2

theorem Settling.attemptsLeft (answer : Except String PassAnswer) (path : String) :
    (t.runPass language (.start answer)).attemptsLeft language path ≤ t.attemptsLeft language path - 1 := by
  have hfiles := h.residualFiles hopen
  have hcounted : Counted language path t (.start answer) := fun hnone =>
    absurd (hnone.symm.trans hfiles) (by simp)
  have hleft := h.sound.runPass_left hcounted
  by_cases howed : path ∈ t.owedFiles language
  · have hsent : path ∈ t.sentOwed language (.start answer) := by
      unfold sentOwed
      rw [(runPass_start_residual hfiles (ne_nil_of_mem howed) answer).1]
      exact howed
    rw [if_pos hsent] at hleft
    omega
  · have hnone : t.owed.find? (language, path) = none := by
      rw [mem_owedFiles] at howed
      simpa using howed
    rw [attemptsLeft_none hnone] at hleft ⊢
    omega

end

theorem Sound.owedFiles_nil (s : t.Sound) (h : ∀ path, t.attemptsLeft language path = 0) :
    t.owedFiles language = [] := by
  refine eq_nil_iff_forall_not_mem.mpr fun path hpath => ?_
  obtain ⟨r, hr⟩ := Option.isSome_iff_exists.mp (mem_owedFiles.mp hpath)
  have hmax := (s _ r hr).2.1
  have hleft := h path
  unfold PassTables.attemptsLeft at hleft
  rw [hr] at hleft
  dsimp only at hleft
  omega

variable {answers : List (Except String PassAnswer)}

theorem startDaemons_done (h : t.semanticPassDone language) : t.startDaemons language answers = t := by
  induction answers with
  | nil => rfl
  | cons answer rest ih =>
    have hsame : t.startDaemon language answer = t := if_pos h
    show (t.startDaemon language answer).startDaemons language rest = t
    rw [hsame, ih]

namespace Settling

variable (h : t.Settling language)

include h

theorem startDaemons_passed {n : Nat} (hleft : ∀ path, t.attemptsLeft language path ≤ n)
    (hstarts : n < answers.length) : (t.startDaemons language answers).semanticPassDone language := by
  induction answers generalizing t n with
  | nil => exact absurd hstarts (Nat.not_lt_zero n)
  | cons answer rest ih =>
    by_cases hdone : t.semanticPassDone language
    · rw [startDaemons_done hdone, hdone]
    · have hopen := Bool.eq_false_iff.mpr hdone
      have hrun : t.startDaemon language answer = t.runPass language (.start answer) := if_neg hdone
      show ((t.startDaemon language answer).startDaemons language rest).semanticPassDone language
      cases n with
      | zero =>
        have hnil := h.sound.owedFiles_nil fun path => Nat.le_zero.mp (hleft path)
        have hsettled := (runPass_start_nothingLeft (hnil ▸ h.residualFiles hopen) answer).2
        have hpassed : (t.startDaemon language answer).semanticPassDone language := by
          rw [hrun, hsettled, semanticPassDone_settled]
        rw [startDaemons_done hpassed, hpassed]
      | succ n =>
        refine ih (h.startDaemon answer) (n := n) (fun path => ?_) (Nat.lt_of_succ_lt_succ hstarts)
        rw [hrun]
        have hspent := h.attemptsLeft hopen answer path
        have hbefore := hleft path
        omega

theorem startDaemons (answers : List (Except String PassAnswer)) :
    (t.startDaemons language answers).Settling language := by
  induction answers generalizing t with
  | nil => exact h
  | cons answer _ ih => exact ih (h.startDaemon answer)

theorem unanswered (hpath : t.Unanswered language path) (hnever : ¬ AnsweredIn language path t answers) :
    (t.startDaemons language answers).Unanswered language path := by
  induction answers generalizing t with
  | nil => exact hpath
  | cons answer _ ih =>
    obtain ⟨hfirst, hrest⟩ := not_or.mp hnever
    exact ih (h.startDaemon answer) (hpath.startDaemon h hfirst) hrest

theorem not_asksWholeProject (answer : Except String PassAnswer) : ¬ t.AsksWholeProject language answer := by
  rintro ⟨hopen, hwhole⟩
  have hfiles := h.residualFiles hopen
  by_cases hnil : t.owedFiles language = []
  · rw [(runPass_start_nothingLeft (hnil ▸ hfiles) answer).1] at hwhole
    cases hwhole
  · rw [(runPass_start_residual hfiles hnil answer).1] at hwhole
    cases hwhole

end Settling

/-- A residual language passes after at most `maxOwedAttempts` starts, without asking the whole project, and what no
start answered is then given up. -/
theorem residual_language_settles (hsound : t.Sound) (hresidual : t.residual.contains language = true)
    (howes : t.semanticPassDone language = false) (answers : List (Except String PassAnswer)) :
    (maxOwedAttempts ≤ answers.length → (t.startDaemons language answers).semanticPassDone language = true) ∧
      (∀ answer, ¬ (t.startDaemons language answers).AsksWholeProject language answer) ∧
      ((t.startDaemons language answers).semanticPassDone language = true →
        ∀ path, t.Unanswered language path → ¬ AnsweredIn language path t answers →
          ((t.startDaemons language answers).gaps.find? (language, path)).isSome = true) := by
  have hopen : t.Settling language :=
    ⟨hsound, fun _ => hresidual, fun hpassed => absurd (howes.symm.trans hpassed) Bool.false_ne_true⟩
  refine ⟨fun hstarts => ?_, ?_, ?_⟩
  · have hleft : ∀ path, t.attemptsLeft language path ≤ 2 := fun path => Nat.le_of_lt_succ hsound.attemptsLeft_lt
    exact hopen.startDaemons_passed hleft hstarts
  · intro answer
    exact (hopen.startDaemons answers).not_asksWholeProject answer
  · intro hpassed path hpath hnever
    exact (hopen.unanswered hpath hnever).gap ((hopen.startDaemons answers).settled hpassed)

def twoResidualFiles : PassTables :=
  (({} : PassTables).recordLanguageSemanticResidual "go" ["a.go", "b.go"] "timed out").1

/-- One file is answered, the other given up. -/
theorem residual_language_twoFiles :
    (twoResidualFiles.startDaemons "go" [.ok ⟨true, none, some ["b.go"]⟩, .error "timed out", .error ""]).semanticPassDone
        "go" = true ∧
      ((twoResidualFiles.startDaemons "go" [.ok ⟨true, none, some ["b.go"]⟩, .error "timed out", .error ""]).gaps.find?
        ("go", "b.go")).isSome = true := by
  have hempty : ({} : PassTables).Sound := fun key r hr => nomatch hr
  have hsound : twoResidualFiles.Sound := ((hempty.clearGaps "go").settleOwedFiles _ _).of_eq rfl rfl
  have hresidual : twoResidualFiles.residual.contains "go" = true := by decide +kernel
  obtain ⟨hpasses, -, hgaps⟩ := residual_language_settles hsound hresidual (by decide +kernel)
    [.ok ⟨true, none, some ["b.go"]⟩, .error "timed out", .error ""]
  have hpassed := hpasses (Nat.le_refl 3)
  refine ⟨hpassed, hgaps hpassed "b.go" (.inl (by decide +kernel)) ?_⟩
  simp only [AnsweredIn, AnswersFile, residualUnfinished, and_false, or_false]
  intro ⟨_, howed, hfinished⟩
  exact hfinished (mem_filter.mpr ⟨howed, by decide⟩)

end PassTables

end GMesh
