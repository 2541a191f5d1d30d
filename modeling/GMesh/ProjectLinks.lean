import GMesh.ProjectWinners

namespace GMesh

open List Option

namespace Project

variable {P : Project} {F : FollowedTable} {walked : List FsPath} {path real : FsPath}

def winningSpelling (P : Project) (F : FollowedTable) (walked : List FsPath) (real : FsPath) :
    Option (FsPath × Bool) :=
  ((P.winners F walked).find? real).map fun winner => (walked.getD winner.index [], winner.viaLink)

def challenge (best : Option (FsPath × Bool)) (path : FsPath) (viaLink : Bool) : FsPath × Bool :=
  match best with
  | some held => if held.2 && !viaLink then (path, viaLink) else held
  | none => (path, viaLink)

/-- One more walked file challenges the spelling of its own real file. -/
theorem winningSpelling_concat : P.winningSpelling F (walked ++ [path]) real =
    if (P.realOf F path).1 = real then
      some (challenge (P.winningSpelling F walked real) path (P.realOf F path).2)
    else P.winningSpelling F walked real := by
  have hheld : ∀ {winner}, (P.winners F walked).find? real = some winner →
      (walked ++ [path]).getD winner.index [] = walked.getD winner.index [] := by
    intro winner h
    obtain ⟨q, hq, -⟩ := ((winners_spec P F walked).1 _ _ h).2.spelled
    have hlt := (List.getElem?_eq_some_iff.mp hq).1
    simp [getD_eq_getElem?_getD, getElem?_append_left hlt]
  unfold winningSpelling
  rw [winners_concat, offer_find?]
  by_cases hr : (P.realOf F path).1 = real
  · rw [if_pos hr, if_pos hr]
    cases hw : (P.winners F walked).find? real with
    | none => simp [challenge]
    | some winner =>
      simp only [map_some, challenge]
      split
      next => simp
      next => rw [map_some, hheld hw]
  · rw [if_neg hr, if_neg hr]
    cases hw : (P.winners F walked).find? real with
    | none => rfl
    | some winner => rw [map_some, map_some, hheld hw]

theorem winningSpelling_filter {keep : FsPath → Bool}
    (hkeep : ∀ path ∈ walked, (P.realOf F path).1 = real → keep path) :
    P.winningSpelling F (walked.filter keep) real = P.winningSpelling F walked real := by
  induction walked using List.reverseRecOn with
  | nil => rfl
  | append_singleton _ path ih =>
    have ih := ih fun q hq => hkeep q (mem_append_left _ hq)
    rw [filter_append, winningSpelling_concat]
    by_cases hp : keep path
    · rw [filter_cons_of_pos hp, filter_nil, winningSpelling_concat, ih]
    · have hr : (P.realOf F path).1 ≠ real := fun hr => hp (hkeep path (by simp) hr)
      rw [filter_cons_of_neg hp, filter_nil, append_nil, if_neg hr, ih]

variable {guard : GuardState} {judged : Judged}

theorem outcome_followedFile {winners : WinnerTable}
    (hwinners : winners = P.winners guard.followed walked) (hv : judged.verdict = .followedFile real) :
    guard.outcome walked winners judged = (P.winningSpelling guard.followed walked real).map fun held =>
      if held.1 = judged.path then .followed else if held.2 then .duplicate held.1 else .aliases held.1 := by
  subst hwinners
  simp only [GuardState.outcome, hv, winningSpelling, Option.map_map]
  rfl

theorem outcome_sharingAFileLink (hj : judged ∈ guard.judged) :
    guard.outcome (P.sharingAFileLink guard walked) (P.winners guard.followed (P.sharingAFileLink guard walked))
        judged =
      guard.outcome walked (P.winners guard.followed walked) judged := by
  cases hv : judged.verdict with
  | followedDir target => simp only [GuardState.outcome, hv]
  | alreadyEntered target => simp only [GuardState.outcome, hv]
  | refused why target => simp only [GuardState.outcome, hv]
  | followedFile target =>
    rw [outcome_followedFile rfl hv, outcome_followedFile rfl hv]
    have hsame : P.winningSpelling guard.followed (P.sharingAFileLink guard walked) target =
        P.winningSpelling guard.followed walked target := by
      apply winningSpelling_filter
      intro path _ hreal
      rw [decide_eq_true_iff, hreal, mem_filterMap]
      exact ⟨judged, hj, by rw [hv]⟩
    rw [hsame]

theorem links_sharingAFileLink :
    guard.links (P.sharingAFileLink guard walked) (P.winners guard.followed (P.sharingAFileLink guard walked)) =
      guard.links walked (P.winners guard.followed walked) := by
  apply filterMap_congr
  intro judged hj
  rw [outcome_sharingAFileLink hj]

/-- Both walks end, and report the same links, targets and outcomes in the same order. -/
theorem walkDirs_links_eq_walk_links (P : Project) :
    ∃ d w, P.walkDirs = some d ∧ P.walk = some w ∧ d.links = w.links := by
  obtain ⟨st, hst⟩ := P.runWalker_ends
  refine ⟨_, _, by rw [walkDirs, hst]; rfl, by rw [walk, walkFiltered, hst]; rfl, ?_⟩
  have hall : st.files.filter (fun _ => true) = st.files := filter_true st.files
  dsimp only [finish]
  rw [hall]
  exact links_sharingAFileLink

end Project

end GMesh
