import GMesh.TableWrites
import Mathlib.Data.String.Basic

namespace GMesh

structure OwedRow where
  language : String
  filePath : String
  attempts : Nat
  deriving DecidableEq, Repr

structure ResidualRow where
  language : String
  reason : String
  deriving DecidableEq, Repr

structure PassStateRow where
  language : String
  passed : Bool := false
  error : Option String := none
  deriving DecidableEq, Repr

abbrev OwedTable := KeyedTable (fun r : OwedRow => (r.language, r.filePath))
abbrev FileTable := KeyedTable (fun r : String × String => r)

structure PassTables where
  owed : OwedTable := ∅
  gaps : FileTable := ∅
  residual : KeyedTable ResidualRow.language := ∅
  pending : KeyedTable (fun language : String => language) := ∅
  pendingFiles : FileTable := ∅
  states : KeyedTable PassStateRow.language := ∅

def maxOwedAttempts : Nat := 3

structure PassAnswer where
  incomplete : Bool := false
  incompleteReason : Option String := none
  unfinishedFiles : Option (List String) := none
  deriving DecidableEq, Repr

inductive PassOutcome
  | complete
  | residual (left : Nat)
  | settled
  deriving DecidableEq, Repr

def PassOutcome.left (left : Nat) : PassOutcome := if left = 0 then .settled else .residual left

inductive PassScope
  | wholeProject
  | files (requested owed : List String)
  | residual (files : List String)
  deriving DecidableEq, Repr

def PassScope.sent : PassScope → List String
  | .wholeProject => []
  | .files requested owed => owed.foldl (fun sent path => if path ∈ sent then sent else sent ++ [path]) requested
  | .residual paths => paths

namespace PassTables

variable (t : PassTables) (language : String)

def owedFiles : List String :=
  ((t.owed.rows.filter (fun r => decide (r.language = language))).map (·.filePath)).mergeSort (fun a b => decide (a ≤ b))

def settleFile (t : PassTables) (path : String) : PassTables :=
  { t with owed := t.owed.erase (language, path), gaps := t.gaps.erase (language, path) }

def attemptsOf (path : String) : Nat := ((t.owed.find? (language, path)).map (·.attempts)).getD 0

variable (requested : List String)

/-- The attempts a file has used after one more pass. One the pass was sent for starts anew. -/
def attemptsAfter (path : String) : Nat :=
  if path ∈ requested then 1 else t.attemptsOf language path + 1

def countAttempt (t : PassTables) (path : String) : PassTables :=
  if maxOwedAttempts ≤ t.attemptsAfter language requested path then
    { t with owed := t.owed.erase (language, path), gaps := t.gaps.insertIgnore (language, path) }
  else
    { t with
      owed := t.owed.put ⟨language, path, t.attemptsAfter language requested path⟩
      gaps := t.gaps.erase (language, path) }

def settleOwedFiles (settled unfinished : List String) : PassTables :=
  unfinished.foldl (countAttempt language requested) (settled.foldl (settleFile language) t)

def clearOwedFiles : PassTables := { t with owed := t.owed.filter (fun r => decide (r.language ≠ language)) }

def clearGaps : PassTables := { t with gaps := t.gaps.filter (fun r => decide (r.1 ≠ language)) }

def clearSemanticLeftovers : PassTables :=
  { (t.clearOwedFiles language).clearGaps language with residual := t.residual.erase language }

def clearSemanticPending : PassTables :=
  { t with
    pending := t.pending.erase language
    pendingFiles := t.pendingFiles.filter (fun r => decide (r.1 ≠ language)) }

def clearSemanticPendingFiles (paths : List String) : PassTables :=
  { t with pendingFiles := t.pendingFiles.filter (fun r => decide (r.2 ∉ paths)) }

def recordLanguageSemanticPass : PassTables :=
  ({ t with states := t.states.put ⟨language, true, none⟩ }.clearSemanticPending language).clearSemanticLeftovers language

def recordLanguageSemanticPassSettled : PassTables :=
  { ({ t with states := t.states.put ⟨language, true, none⟩ }.clearSemanticPending language).clearOwedFiles language with
    residual := t.residual.erase language }

def recordLanguageSemanticPassFailure (reason : String) : PassTables :=
  { t with
    states := t.states.put ⟨language, ((t.states.find? language).map (·.passed)).getD false, some reason⟩
    pending := t.pending.erase language }

def recordLanguageSemanticResidual (unfinished : List String) (reason : String) : PassTables × Nat :=
  let settled := (t.owedFiles language).filter (fun path => decide (path ∉ unfinished))
  let recorded := (t.clearGaps language).settleOwedFiles language [] settled unfinished
  let marked : PassTables :=
    { recorded with
      residual := recorded.residual.put ⟨language, reason⟩
      states := recorded.states.update (fun s => if s.language = language then { s with error := none } else s)
        (by intro s; split <;> rfl)
      pending := recorded.pending.erase language }
  (marked, (marked.owedFiles language).length)

/-- The residual files of a language: none when it is owed a whole-project pass. -/
def semanticResidualFiles : Option (List String) :=
  if t.residual.contains language then some (t.owedFiles language) else none

/-- A residual pass's answer, with a list, complete, or incomplete without one. -/
def residualUnfinished (sent : List String) (a : PassAnswer) : List String :=
  match a.unfinishedFiles with
  | some named => sent.filter (fun path => decide (path ∈ named))
  | none => if a.incomplete then sent else []

/-- A semantic pass over a scope. An error is a round trip that failed. -/
def applySemanticPassIn (scope : PassScope) (answer : Except String PassAnswer) : PassTables × Except String PassOutcome :=
  let sent := scope.sent
  match answer, scope with
  | .error err, .residual _ => (t.settleOwedFiles language [] [] sent, .error err)
  | .error err, _ => (t, .error err)
  | .ok a, .wholeProject =>
    if a.incomplete then
      match a.unfinishedFiles with
      | none => (t, .error ("the plugin reported an incomplete whole-project semantic pass: " ++
          a.incompleteReason.getD "the plugin gave no reason"))
      | some unfinished =>
        let recorded := t.recordLanguageSemanticResidual language unfinished
          (a.incompleteReason.getD "the plugin gave no reason")
        (recorded.1, .ok (PassOutcome.left recorded.2))
    else (t, .ok .complete)
  | .ok a, .residual _ =>
    let unfinished := residualUnfinished sent a
    let settled := t.settleOwedFiles language [] (sent.filter (fun path => decide (path ∉ unfinished))) unfinished
    (settled, .ok (PassOutcome.left (settled.owedFiles language).length))
  | .ok a, .files requested _ =>
    match a.unfinishedFiles with
    | some named =>
      let unfinished := sent.filter (fun path => decide (path ∈ named))
      let settled := sent.filter (fun path => decide (path ∉ unfinished))
      ((t.clearSemanticPendingFiles settled).settleOwedFiles language requested settled unfinished, .ok .complete)
    | none => (if a.incomplete then t else t.clearSemanticPendingFiles requested, .ok .complete)

def recordOutcome : Except String PassOutcome → PassTables
  | .ok .complete => t.recordLanguageSemanticPass language
  | .ok .settled => t.recordLanguageSemanticPassSettled language
  | .ok (.residual _) => t
  | .error reason => t.recordLanguageSemanticPassFailure language reason

end PassTables

/-- A pass over one language: after a swap, at a start, or after edits, with the owed files. -/
inductive SemanticPass
  | wholeProject (answer : Except String PassAnswer)
  | start (answer : Except String PassAnswer)
  | files (requested : List String) (answer : Except String PassAnswer)

namespace PassTables

variable (t : PassTables) (language : String)

def scopeOf : SemanticPass → Option PassScope
  | .wholeProject _ => some .wholeProject
  | .start _ => match t.semanticResidualFiles language with
    | none => some .wholeProject
    | some [] => none
    | some files => some (.residual files)
  | .files requested _ => some (.files requested (t.owedFiles language))

def runPass (pass : SemanticPass) : PassTables :=
  match pass, t.scopeOf language pass with
  | .wholeProject answer, some scope =>
    let applied := t.applySemanticPassIn language scope answer
    applied.1.recordOutcome language applied.2
  | .start answer, some scope =>
    let applied := t.applySemanticPassIn language scope answer
    applied.1.recordOutcome language applied.2
  | .files _ answer, some scope => (t.applySemanticPassIn language scope answer).1
  | _, none => t.recordLanguageSemanticPassSettled language

def sentOwed (pass : SemanticPass) : List String :=
  match t.scopeOf language pass with
  | some (.files requested owed) => owed.filter (fun path => decide (path ∉ requested))
  | some (.residual files) => files
  | _ => []

end PassTables

open KeyedTable

namespace PassTables

variable {t : PassTables} {language : String} {requested : List String}

@[simp] theorem settleFile_owed (path : String) (key : String × String) :
    (settleFile language t path).owed.find? key = if key = (language, path) then none else t.owed.find? key :=
  find?_erase t.owed (language, path) key

@[simp] theorem settleFile_gaps (path : String) (key : String × String) :
    (settleFile language t path).gaps.find? key = if key = (language, path) then none else t.gaps.find? key :=
  find?_erase t.gaps (language, path) key

@[simp] theorem countAttempt_owed (path : String) (key : String × String) :
    (countAttempt language requested t path).owed.find? key =
      if key = (language, path) then
        if maxOwedAttempts ≤ t.attemptsAfter language requested path then none
        else some ⟨language, path, t.attemptsAfter language requested path⟩
      else t.owed.find? key := by
  unfold countAttempt
  split
  next hmax => exact find?_erase t.owed (language, path) key
  next hmax =>
    rw [find?_put]
    simp only [eq_comm]

variable {path : String} {key : String × String}

theorem countAttempt_gaps_ne (hk : key ≠ (language, path)) :
    (countAttempt language requested t path).gaps.find? key = t.gaps.find? key := by
  unfold countAttempt
  split
  next =>
    rw [find?_insertIgnore, if_neg fun h => hk h.1.symm]
  next =>
    rw [find?_erase, if_neg hk]

theorem countAttempt_gaps_self (h : ¬ maxOwedAttempts ≤ t.attemptsAfter language requested path) :
    (countAttempt language requested t path).gaps.find? (language, path) = none := by
  unfold countAttempt
  rw [if_neg h]
  rw [find?_erase, if_pos rfl]

/-- No unfinished file has used up its attempts, and none is given up and asked again. -/
def Sound (t : PassTables) : Prop :=
  ∀ key r, t.owed.find? key = some r → 1 ≤ r.attempts ∧ r.attempts < maxOwedAttempts ∧ t.gaps.find? key = none

section

variable (h : t.Sound) {t' : PassTables}

include h

theorem Sound.of_eq (ho : t'.owed = t.owed) (hg : t'.gaps = t.gaps) : t'.Sound := by
  intro key r
  rw [ho, hg]
  exact h key r

theorem Sound.settleFile (path : String) : (settleFile language t path).Sound := by
  intro key r hr
  rw [settleFile_owed] at hr
  rw [settleFile_gaps]
  split at hr
  next => cases hr
  next hk =>
    rw [if_neg hk]
    exact h key r hr

theorem Sound.countAttempt (path : String) : (countAttempt language requested t path).Sound := by
  have hpos : 1 ≤ t.attemptsAfter language requested path := by
    unfold attemptsAfter
    split <;> omega
  intro key r hr
  rw [countAttempt_owed] at hr
  split at hr
  next hk =>
    split at hr
    next => cases hr
    next hmax =>
      cases hr
      exact ⟨hpos, Nat.lt_of_not_le hmax, hk ▸ countAttempt_gaps_self hmax⟩
  next hk =>
    rw [countAttempt_gaps_ne hk]
    exact h key r hr

theorem Sound.settleOwedFiles (settled unfinished : List String) :
    (t.settleOwedFiles language requested settled unfinished).Sound := by
  refine List.foldlRecOn _ _ ?_ fun _ h path _ => Sound.countAttempt h path
  exact List.foldlRecOn _ _ h fun _ h path _ => Sound.settleFile h path

theorem Sound.shrink (ho : ∀ key r, t'.owed.find? key = some r → t.owed.find? key = some r)
    (hg : ∀ key, t.gaps.find? key = none → t'.gaps.find? key = none) : t'.Sound := by
  intro key r hr
  obtain ⟨hpos, hmax, hgap⟩ := h key r (ho key r hr)
  exact ⟨hpos, hmax, hg key hgap⟩

omit h in
theorem clearOwedFiles_owed (key : String × String) :
    (t.clearOwedFiles language).owed.find? key = if key.1 = language then none else t.owed.find? key := by
  show (t.owed.filter _).find? key = _
  rw [find?_filter]
  cases hf : t.owed.find? key with
  | none => simp
  | some r =>
    obtain ⟨_, rfl⟩ := find?_eq_some_iff.mp hf
    by_cases hl : r.language = language
    · simp [hl]
    · simp [hl]

omit h in
theorem clearGaps_gaps (h : t.gaps.find? key = none) : (t.clearGaps language).gaps.find? key = none := by
  show (t.gaps.filter _).find? key = none
  rw [find?_filter, h]
  rfl

theorem Sound.clearOwedFiles (language : String) : (t.clearOwedFiles language).Sound := by
  refine h.shrink (fun key r hr => ?_) fun _ hg => hg
  rw [clearOwedFiles_owed] at hr
  split at hr
  next => cases hr
  next => exact hr

theorem Sound.clearGaps (language : String) : (t.clearGaps language).Sound :=
  h.shrink (fun _ _ hr => hr) fun _ => clearGaps_gaps

theorem Sound.clearSemanticPendingFiles (paths : List String) : (t.clearSemanticPendingFiles paths).Sound :=
  h.of_eq rfl rfl

theorem Sound.recordOutcome (outcome : Except String PassOutcome) : (t.recordOutcome language outcome).Sound := by
  match outcome with
  | .ok .complete => exact ((h.clearOwedFiles language).clearGaps language).of_eq rfl rfl
  | .ok .settled => exact (h.clearOwedFiles language).of_eq rfl rfl
  | .ok (.residual _) => exact h
  | .error _ => exact h.of_eq rfl rfl

theorem Sound.applySemanticPassIn (scope : PassScope) (answer : Except String PassAnswer) :
    (t.applySemanticPassIn language scope answer).1.Sound := by
  unfold PassTables.applySemanticPassIn
  split
  next => exact h.settleOwedFiles _ _
  next => exact h
  next =>
    split
    next =>
      split
      next => exact h
      next => exact ((h.clearGaps language).settleOwedFiles _ _).of_eq rfl rfl
    next => exact h
  next => exact h.settleOwedFiles _ _
  next =>
    split
    next => exact (h.clearSemanticPendingFiles _).settleOwedFiles _ _
    next =>
      split
      next => exact h
      next => exact h.of_eq rfl rfl

/-- Every pass keeps the tables sound. -/
theorem Sound.runPass (pass : SemanticPass) : (t.runPass language pass).Sound := by
  unfold PassTables.runPass
  split
  next => exact (h.applySemanticPassIn _ _).recordOutcome _
  next => exact (h.applySemanticPassIn _ _).recordOutcome _
  next => exact h.applySemanticPassIn _ _
  next => exact (h.clearOwedFiles language).of_eq rfl rfl

end

section Run

def run (t : PassTables) (passes : List (String × SemanticPass)) : PassTables :=
  passes.foldl (fun t p => t.runPass p.1 p.2) t

theorem Sound.run (h : t.Sound) (passes : List (String × SemanticPass)) : (t.run passes).Sound := by
  induction passes generalizing t with
  | nil => exact h
  | cons p _ ih => exact ih (h.runPass p.2)

end Run

theorem settle_foldl_owed (settled : List String) (key : String × String) :
    (settled.foldl (settleFile language) t).owed.find? key =
      if key.1 = language ∧ key.2 ∈ settled then none else t.owed.find? key := by
  induction settled generalizing t with
  | nil => simp
  | cons path _ ih =>
    rw [List.foldl_cons, ih, settleFile_owed]
    by_cases hl : key.1 = language
    · by_cases hp : key.2 = path
      · simp [Prod.ext_iff, hl, hp]
      · simp [Prod.ext_iff, hl, hp]
    · simp [Prod.ext_iff, hl]

variable {unfinished : List String}

theorem count_foldl_owed_ne (h : ¬ (key.1 = language ∧ key.2 ∈ unfinished)) :
    (unfinished.foldl (countAttempt language requested) t).owed.find? key = t.owed.find? key := by
  induction unfinished generalizing t with
  | nil => rfl
  | cons path _ ih =>
    have hk : key ≠ (language, path) := by
      rintro rfl
      exact h ⟨rfl, List.mem_cons_self⟩
    rw [List.foldl_cons, ih fun h' => h ⟨h'.1, List.mem_cons_of_mem _ h'.2⟩, countAttempt_owed, if_neg hk]

theorem count_foldl_owed (hr : path ∉ requested) (hone : unfinished.count path = 1) :
    (unfinished.foldl (countAttempt language requested) t).owed.find? (language, path) =
      if maxOwedAttempts ≤ t.attemptsOf language path + 1 then none
      else some ⟨language, path, t.attemptsOf language path + 1⟩ := by
  induction unfinished generalizing t with
  | nil => cases hone
  | cons other unfinished ih =>
    rw [List.foldl_cons]
    by_cases ho : other = path
    · subst ho
      rw [List.count_cons_self] at hone
      have hnot : other ∉ unfinished := List.count_eq_zero.mp (Nat.succ.inj hone)
      rw [count_foldl_owed_ne fun h => hnot h.2, countAttempt_owed, if_pos rfl]
      unfold attemptsAfter
      rw [if_neg hr]
    · rw [List.count_cons_of_ne ho] at hone
      have hsame : (countAttempt language requested t other).attemptsOf language path = t.attemptsOf language path := by
        unfold attemptsOf
        rw [countAttempt_owed, if_neg fun h => ho (congrArg Prod.snd h).symm]
      rw [ih hone, hsame]

theorem mem_owedFiles : path ∈ t.owedFiles language ↔ (t.owed.find? (language, path)).isSome := by
  unfold owedFiles
  rw [List.mem_mergeSort, List.mem_map]
  constructor
  · rintro ⟨r, hr, rfl⟩
    obtain ⟨hr, hl⟩ := List.mem_filter.mp hr
    have hl := of_decide_eq_true hl
    rw [find?_eq_some_iff.mpr ⟨hr, by rw [hl]⟩]
    rfl
  · intro h
    obtain ⟨r, hr⟩ := Option.isSome_iff_exists.mp h
    obtain ⟨hm, hk⟩ := find?_eq_some_iff.mp hr
    obtain ⟨hl, hp⟩ := Prod.ext_iff.mp hk
    exact ⟨r, List.mem_filter.mpr ⟨hm, decide_eq_true hl⟩, hp⟩

theorem owedFiles_nodup : (t.owedFiles language).Nodup := by
  unfold owedFiles
  rw [(List.mergeSort_perm _ _).nodup_iff]
  have hsub : ((t.owed.rows.filter (fun r => decide (r.language = language))).map fun r => (r.language, r.filePath)).Nodup :=
    (List.Sublist.map _ List.filter_sublist).nodup t.owed.nodup
  refine List.Nodup.map_on (fun r hr s hs he => ?_) hsub.of_map
  obtain ⟨hr, hlr⟩ := List.mem_filter.mp hr
  obtain ⟨hs, hls⟩ := List.mem_filter.mp hs
  have hl : r.language = s.language := (of_decide_eq_true hlr).trans (of_decide_eq_true hls).symm
  exact t.owed.key_injective hr hs (Prod.ext hl he)

end PassTables

theorem PassScope.sent_files {owed : List String} (hn : owed.Nodup) (requested : List String) :
    (PassScope.files requested owed).sent = requested ++ owed.filter (fun path => decide (path ∉ requested)) := by
  show owed.foldl _ requested = _
  induction owed generalizing requested with
  | nil => simp
  | cons path _ ih =>
    obtain ⟨hp, hn⟩ := List.nodup_cons.mp hn
    rw [List.foldl_cons]
    split
    next hm => rw [ih hn, List.filter_cons_of_neg (by simpa using hm)]
    next hm =>
      rw [ih hn, List.filter_cons_of_pos (by simpa using hm), List.append_assoc]
      congr 2
      show path :: _ = _
      congr 1
      refine List.filter_congr fun q hq => ?_
      have hne : q ≠ path := fun he => hp (he ▸ hq)
      simp [hne]

end GMesh
