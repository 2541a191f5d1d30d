import GMesh.ProjectLinks
import GMesh.TextSplits
import Mathlib.Data.List.Sort

namespace GMesh

def hardExcludedDirs : List String := [".git", "vendor", "testdata"]

def isGoFile (name : String) : Bool :=
  match rsplitOnce '.' name.toList with
  | some (_, extension) => extension.map Char.toLower == ['g', 'o']
  | none => false

def isGoPath : FsPath → Bool
  | [] => false
  | name :: _ => isGoFile name

/-- The followed links as reached, and the real paths of the entered directories. -/
structure GoGuard where
  followed : FollowedTable
  entered : List FsPath

structure GoWalkState where
  guard : GoGuard
  walked : List FsPath

def GoWalkState.yield (st : GoWalkState) (path : FsPath) : GoWalkState :=
  if isGoPath path then { st with walked := st.walked ++ [path] } else st

structure GoWinner where
  real : FsPath
  path : FsPath
  viaLink : Bool
  deriving DecidableEq, Repr

def posixPath (path : FsPath) : String := "/".intercalate path.reverse

namespace Project

variable (P : Project)

def forGo : Project := { P with excluded := hardExcludedDirs }

def goAdmitLink (guard : GoGuard) (path target : FsPath) (isDir : Bool) : Option GoGuard :=
  match target.dropSuffix? P.rootReal with
  | none => none
  | some below =>
    if below.any fun name => decide (name ∈ P.excluded) then none
    else if isDir then
      if guard.entered.contains target then none
      else some { followed := guard.followed.put ⟨path, target⟩, entered := target :: guard.entered }
    else some { guard with followed := guard.followed.put ⟨path, target⟩ }

def goEnterDir (guard : GoGuard) (path : FsPath) : GoGuard :=
  { guard with entered := (P.realOf guard.followed path).1 :: guard.entered }

/-- The walk meets an entry of the directory `real`, under `dir`, and may go into a directory next. -/
def goMeet (dir real : FsPath) (st : GoWalkState) (name : String) (node : FsNode) : GoWalkState × Option FsPath :=
  if name ∈ P.excluded then (st, none)
  else
    match node with
    | .link (.missing _) => (st, none)
    | .file => (if P.ignored (name :: dir) then st else st.yield (name :: dir), none)
    | .dir =>
      if P.ignored (name :: dir) then (st, none)
      else ({ st with guard := P.goEnterDir st.guard (name :: dir) }, some (name :: real))
    | .link (.found target isDir) =>
      if P.ignored (name :: dir) then (st, none)
      else
        match P.goAdmitLink st.guard (name :: dir) target isDir with
        | none => (st, none)
        | some guard =>
          if isDir then ({ st with guard }, some target)
          else (GoWalkState.yield { st with guard } (name :: dir), none)

def goVisitDir : (fuel : Nat) → (dir real : FsPath) → GoWalkState → Option GoWalkState
  | 0, _, _, _ => none
  | fuel + 1, dir, real, st =>
    (P.disk.entriesAt real).foldlM
      (fun st entry =>
        match P.goMeet dir real st entry.1 entry.2 with
        | (st, none) => some st
        | (st, some sub) => goVisitDir fuel (entry.1 :: dir) sub st)
      st

def goWalkStart : GoWalkState := ⟨⟨∅, [P.rootReal]⟩, []⟩

/-- One more spelling of a real file: it replaces one below a link when it is not. -/
def goOffer (followed : FollowedTable) (winners : KeyedTable GoWinner.real) (path : FsPath) :
    KeyedTable GoWinner.real :=
  let real := P.realOf followed path
  if (winners.find? real.1).all fun current => current.viaLink && !real.2 then winners.put ⟨real.1, path, real.2⟩
  else winners

def walkProjectFiles : Option (List FsPath) :=
  (P.goVisitDir P.walkFuel [] P.rootReal P.goWalkStart).map fun st =>
    ((st.walked.foldl (P.goOffer st.guard.followed) ∅).rows.map (·.path)).insertionSort
      fun p q => posixPath p ≤ posixPath q

def plainComponents : FsPath → Bool
  | [] => true
  | name :: up => plainComponents up && !(decide (name ∈ P.excluded)) && !P.ignored (name :: up)

def plainWalkReaches (path : FsPath) : Bool := isGoPath path && P.plainComponents path

end Project

open KeyedTable List

variable {via : Bool} {st' : WalkState} {node : FsNode} {sub : FsPath}

namespace Project

variable {P : Project} {st : WalkState} {g : GoWalkState} {dir real path : FsPath} {name : String}

def Named (P : Project) (path : FsPath) : Prop := ∀ name ∈ path, name ∉ P.excluded

/-- The Go plugin's walk is where the shared one is: in its directories, links and files, of those it claims. -/
structure Mirrors (P : Project) (st : WalkState) (g : GoWalkState) : Prop where
  followed : ∀ path, P.Named path → g.guard.followed.find? path = st.guard.followed.find? path
  entered : ∀ real, real ∈ g.guard.entered ↔ st.guard.entered.contains real = true
  walked : g.walked = st.files.filter isGoPath
  named : ∀ path ∈ g.walked, P.Named path

section

variable (h : Mirrors P st g)

include h

theorem Mirrors.realOf (hp : P.Named path) :
    P.realOf g.guard.followed path = P.realOf st.guard.followed path := by
  induction path with
  | nil => rfl
  | cons _ _ ih =>
    have hup := ih (forall_mem_cons.mp hp).2
    rw [Project.realOf, Project.realOf, h.followed _ hp, hup]

theorem Mirrors.note (judged : Judged) : Mirrors P (st.note judged) g :=
  ⟨h.followed, h.entered, h.walked, h.named⟩

theorem Mirrors.yieldDir (path : FsPath) : Mirrors P (P.yieldDir st path) g :=
  ⟨h.followed, h.entered, h.walked, h.named⟩

theorem Mirrors.yieldFile (hp : isGoPath path → P.Named path) :
    Mirrors P (st.yieldFile path) (g.yield path) := by
  unfold GoWalkState.yield
  split
  next hgo =>
    refine ⟨h.followed, h.entered, ?_, ?_⟩
    · simp [WalkState.yieldFile, h.walked, hgo]
    · intro q hq
      rcases mem_append.mp hq with hq | hq
      · exact h.named q hq
      · exact mem_singleton.mp hq ▸ hp hgo
  next hgo =>
    refine ⟨h.followed, h.entered, ?_, h.named⟩
    simp [WalkState.yieldFile, h.walked, hgo]

omit h in
theorem contains_put_entered {entered : EnteredTable} {e : Entered} {r : FsPath} :
    (entered.put e).contains r ↔ r = e.real ∨ entered.contains r := by
  simp only [KeyedTable.contains, find?_put]
  by_cases hr : e.real = r
  · simp [hr]
  · simp [hr, Ne.symm hr]

theorem Mirrors.enterDir (hp : P.Named path) :
    Mirrors P { st with guard := P.enteredDir st.guard path } { g with guard := P.goEnterDir g.guard path } := by
  refine ⟨h.followed, fun r => ?_, h.walked, h.named⟩
  have hreal : (((st.guard.entered.find? (P.realOf st.guard.followed path).1).getD
      ⟨(P.realOf st.guard.followed path).1, path, none⟩).reached path (P.realOf st.guard.followed path).2).real =
      (P.realOf st.guard.followed path).1 := by
    rw [Entered.reached_real]
    cases hf : st.guard.entered.find? (P.realOf st.guard.followed path).1 with
    | none => rfl
    | some e => exact (find?_eq_some_iff.mp hf).2
  simp only [goEnterDir, enteredDir, mem_cons, h.realOf hp, contains_put_entered, hreal, h.entered]

/-- Both walks judge a link alike. -/
theorem Mirrors.admitLink (path target : FsPath) (isDir : Bool) :
    Mirrors P { st with guard := (P.admitLink st.guard path isDir (.found target isDir)).1 }
      { g with guard := (P.goAdmitLink g.guard path target isDir).getD g.guard } ∧
      ((P.goAdmitLink g.guard path target isDir).isSome ↔
        (P.admitLink st.guard path isDir (.found target isDir)).2 =
          if isDir then .followedDir target else .followedFile target) := by
  have hput : ∀ p, P.Named p → (g.guard.followed.put ⟨path, target⟩).find? p =
      (st.guard.followed.put ⟨path, target⟩).find? p := by
    intro p hp
    rw [find?_put, find?_put, h.followed p hp]
  simp only [Project.admitLink, goAdmitLink, judge]
  cases target.dropSuffix? P.rootReal with
  | none =>
    refine ⟨h.note _, ?_⟩
    cases isDir <;> simp
  | some below =>
    by_cases hany : (below.any fun name => decide (name ∈ P.excluded))
    · simp only [hany, ↓reduceIte]
      refine ⟨h.note _, ?_⟩
      cases isDir <;> simp
    · simp only [hany, Bool.false_eq_true, ↓reduceIte]
      cases isDir with
      | false => exact ⟨⟨hput, h.entered, h.walked, h.named⟩, by simp⟩
      | true =>
        by_cases hentered : st.guard.entered.contains target
        · have hin : g.guard.entered.contains target := by
            rw [contains_iff_mem, h.entered]
            exact hentered
          simp only [hentered, hin, Bool.not_true, Bool.false_eq_true, ↓reduceIte]
          exact ⟨h.note _, by simp⟩
        · have hout : g.guard.entered.contains target = false := by
            rw [Bool.eq_false_iff, ne_eq, contains_iff_mem, h.entered]
            exact hentered
          simp only [hentered, hout, Bool.not_true, Bool.false_eq_true, ↓reduceIte]
          refine ⟨⟨hput, fun r => ?_, h.walked, h.named⟩, by simp⟩
          simp only [Option.getD_some, mem_cons, GuardState.note, contains_put_entered, h.entered]

theorem Mirrors.followExcluded (hp : ¬P.Named path) (target : FsPath) (judged : Judged) :
    Mirrors P { st with guard :=
      { st.guard with followed := st.guard.followed.put ⟨path, target⟩ }.note judged } g := by
  refine ⟨fun p hn => ?_, h.entered, h.walked, h.named⟩
  have hne : path ≠ p := fun he => hp (he ▸ hn)
  simp [GuardState.note, hne, h.followed p hn]

omit h in
theorem goAdmitLink_of_entered {guard : GoGuard} {target : FsPath} (h : target ∈ guard.entered) :
    P.goAdmitLink guard path target true = none := by
  unfold goAdmitLink
  split
  next => rfl
  next => simp [h]

theorem Mirrors.meetLink (hp : P.Named path) (target : FsPath) (isDir : Bool) :
    let admitted := P.admitLink st.guard path isDir (.found target isDir)
    let met : WalkState × Option FsPath :=
      match admitted.2 with
      | .followedDir _ => (P.yieldDir { st with guard := admitted.1 } path, some target)
      | .followedFile _ => ({ st with guard := admitted.1 }.yieldFile path, none)
      | .alreadyEntered _ | .refused _ _ => ({ st with guard := admitted.1 }, none)
    let goMet : GoWalkState × Option FsPath :=
      match P.goAdmitLink g.guard path target isDir with
      | none => (g, none)
      | some guard =>
        if isDir then ({ g with guard }, some target) else (GoWalkState.yield { g with guard } path, none)
    Mirrors P met.1 goMet.1 ∧ goMet.2 = met.2 := by
  obtain ⟨hmirror, hsome⟩ := h.admitLink path target isDir
  cases hgo : P.goAdmitLink g.guard path target isDir with
  | none =>
    rw [hgo, Option.getD_none] at hmirror
    simp only [hgo, Option.isSome_none, Bool.false_eq_true, false_iff] at hsome
    rcases P.judge_found st.guard target isDir with ⟨why, -, hj⟩ | ⟨-, hj⟩
    · simp only [Project.admitLink, hj] at hmirror ⊢
      exact ⟨hmirror, trivial⟩
    · cases isDir with
      | false => exact absurd (by simp [Project.admitLink, hj]) hsome
      | true =>
        by_cases hentered : st.guard.entered.contains target
        · simp only [Project.admitLink, hj, hentered, Bool.not_true, Bool.false_eq_true, ↓reduceIte] at hmirror ⊢
          exact ⟨hmirror, trivial⟩
        · exact absurd (by simp [Project.admitLink, hj, hentered]) hsome
  | some guard =>
    rw [hgo, Option.getD_some] at hmirror
    have hverdict := hsome.mp (by rw [hgo]; rfl)
    cases isDir with
    | false =>
      simp only [hverdict, Bool.false_eq_true, ↓reduceIte]
      exact ⟨hmirror.yieldFile fun _ => hp, trivial⟩
    | true =>
      simp only [hverdict, ↓reduceIte]
      exact ⟨hmirror.yieldDir path, trivial⟩

end

section Meet

variable {above : List FsPath} (hgo : ∀ name ∈ P.excluded, isGoFile name = false)
include hgo

theorem Mirrors.meetExcluded (h : Mirrors P st g) (dir real : FsPath) (above : List FsPath)
    (hname : name ∈ P.excluded) (node : FsNode) :
    Mirrors P (P.meet dir real above st name node).1 g ∧ (P.meet dir real above st name node).2 = none := by
  have hunclaimed : ∀ {s : WalkState}, Mirrors P s g → Mirrors P (s.yieldFile (name :: dir)) g := by
    intro s hs
    have hclaim : ¬isGoPath (name :: dir) := by simp [isGoPath, hgo name hname]
    have hyield := hs.yieldFile fun hgo => absurd hgo hclaim
    rwa [GoWalkState.yield, if_neg hclaim] at hyield
  have hnamed : ¬P.Named (name :: dir) := fun hn => hn name (by simp) hname
  cases node with
  | file =>
    refine ⟨?_, rfl⟩
    simp only [Project.meet]
    split
    next => exact h
    next => exact hunclaimed h
  | dir => exact ⟨by simpa [Project.meet, hname] using h, by simp [Project.meet, hname]⟩
  | link target =>
    cases target with
    | missing named => exact ⟨h.note _, rfl⟩
    | found target isDir =>
      simp only [Project.meet]
      split
      next => exact ⟨h.note _, rfl⟩
      next =>
        split
        next => exact ⟨h, rfl⟩
        next hpass =>
          have hfile : isDir = false := by simpa [hname] using fun hd : isDir => hpass (by simp [hd, hname])
          subst hfile
          rcases P.judge_found st.guard target false with ⟨why, -, hj⟩ | ⟨-, hj⟩
          · simp only [Project.admitLink, hj]
            exact ⟨h.note _, trivial⟩
          · simp only [Project.admitLink, hj, Bool.not_false, ↓reduceIte]
            exact ⟨hunclaimed (h.followExcluded hnamed _ _), trivial⟩

/-- Both walks do the same with an entry. -/
theorem Mirrors.meet (h : Mirrors P st g) (hdir : P.Named dir)
    (habove : ∀ r ∈ above, st.guard.entered.contains r) (real : FsPath) (name : String) (node : FsNode) :
    Mirrors P (P.meet dir real above st name node).1 (P.goMeet dir real g name node).1 ∧
      (P.goMeet dir real g name node).2 = (P.meet dir real above st name node).2 := by
  unfold goMeet
  split
  next hname =>
    obtain ⟨hmirror, hnone⟩ := h.meetExcluded hgo dir real above hname node
    exact ⟨hmirror, hnone.symm⟩
  next hname =>
    have hnamed : P.Named (name :: dir) := forall_mem_cons.mpr ⟨hname, hdir⟩
    cases node with
    | file =>
      simp only [Project.meet]
      split
      next => exact ⟨h, trivial⟩
      next => exact ⟨h.yieldFile fun _ => hnamed, trivial⟩
    | dir =>
      simp only [Project.meet, hname, decide_false, Bool.or_false]
      split
      next => exact ⟨h, rfl⟩
      next => exact ⟨(h.enterDir hnamed).yieldDir _, rfl⟩
    | link target =>
      cases target with
      | missing named => exact ⟨h.note _, rfl⟩
      | found target isDir =>
        simp only [Project.meet, hname, decide_false, Bool.and_false, Bool.or_false]
        by_cases hloop : (isDir && above.contains target)
        · obtain ⟨rfl, htarget⟩ := Bool.and_eq_true_iff.mp hloop
          have hin : target ∈ g.guard.entered := (h.entered target).mpr (habove _ (contains_iff_mem.mp htarget))
          simp only [hloop, goAdmitLink_of_entered hin, ite_self]
          exact ⟨h.note _, rfl⟩
        · simp only [hloop, Bool.false_eq_true, ↓reduceIte]
          split
          next => exact ⟨h, rfl⟩
          next => exact h.meetLink hnamed target isDir

end Meet

theorem goMeet_named (h : (P.goMeet dir real g name node).2 = some sub) :
    name ∉ P.excluded := by
  intro hname
  simp [goMeet, hname] at h

theorem Later.contains {st : WalkState} (h : Later st' st) {r : FsPath}
    (hr : st.guard.entered.contains r) : st'.guard.entered.contains r := by
  obtain ⟨e, he⟩ := Option.isSome_iff_exists.mp hr
  obtain ⟨e', he', -⟩ := h.entered r e he
  exact Option.isSome_iff_exists.mpr ⟨e', he'⟩

theorem Met.contains_sub {above : List FsPath} {s : WalkState}
    (h : Met P dir real above st name node s (some sub)) (hs : Sound P st)
    (hv : Visits P st.guard.followed dir real via) (hn : P.disk.nodeAt real name = some node) :
    s.guard.entered.contains sub := by
  cases h with
  | dir hi hex =>
    have hreal := (hv.dir hn hi hex).realOf hs.follows
    simp [yieldDir, KeyedTable.contains, enteredDir_find?, hreal]
  | followDir => simp [yieldDir, WalkState.followDir, GuardState.note, KeyedTable.contains]

/-- The Go plugin's walk of a directory mirrors the shared one's. -/
theorem visitDir_mirrors (hgo : ∀ name ∈ P.excluded, isGoFile name = false) {fuel : Nat} {above : List FsPath}
    (hrun : P.visitDir fuel dir real above st = some st') (h : Mirrors P st g)
    (hs : Sound P st) (hv : Visits P st.guard.followed dir real via) (hdir : P.Named dir)
    (habove : ∀ r ∈ above, st.guard.entered.contains r) :
    ∃ g', P.goVisitDir fuel dir real g = some g' ∧ Mirrors P st' g' := by
  induction fuel generalizing dir real above st st' g via with
  | zero => simp [visitDir] at hrun
  | succ fuel ih =>
    rw [visitDir] at hrun
    rw [goVisitDir]
    have hall : ∀ e ∈ P.disk.entriesAt real, P.disk.nodeAt real e.1 = some e.2 := fun e he => nodeAt_eq_some.mpr he
    generalize P.disk.entriesAt real = entries at hrun hall ⊢
    induction entries generalizing st g with
    | nil =>
      simp only [foldlM_nil, Option.pure_def, Option.some.injEq] at hrun
      exact ⟨g, rfl, hrun ▸ h⟩
    | cons entry _ ihrest =>
      obtain ⟨name, node⟩ := entry
      obtain ⟨hnode, hrest⟩ := forall_mem_cons.mp hall
      have hmet := meet_met (P := P) dir real above st name node
      obtain ⟨hmirror, hsub⟩ := h.meet hgo hdir habove real name node
      have hlater := hmet.later hs hv hnode
      have hsound := hmet.sound hs hv hnode
      have habove' : ∀ r ∈ above, (P.meet dir real above st name node).1.guard.entered.contains r :=
        fun r hr => hlater.contains (habove r hr)
      rw [foldlM_cons, Option.bind_eq_bind, Option.bind_eq_some_iff] at hrun
      rw [foldlM_cons, Option.bind_eq_bind]
      obtain ⟨s', hs', hrun⟩ := hrun
      generalize P.meet dir real above st name node = met at hmet hmirror hsub hlater hsound habove' hs'
      cases hgoMet : P.goMeet dir real g name node with
      | mk gs gsub =>
        rw [hgoMet] at hmirror hsub
        obtain ⟨s, sub⟩ := met
        subst hsub
        cases gsub with
        | none =>
          cases hs'
          exact ihrest hmirror hsound (hv.mono hlater.followed) habove' hrun hrest
        | some sub =>
          obtain ⟨via', hvsub⟩ := hmet.visits hs hv hnode
          have hnamed : P.Named (name :: dir) :=
            forall_mem_cons.mpr ⟨goMeet_named (by rw [hgoMet]), hdir⟩
          obtain ⟨gs', hgs', hmirror'⟩ := ih hs' hmirror hsound hvsub hnamed
            (forall_mem_cons.mpr ⟨hmet.contains_sub hs hv hnode, habove'⟩)
          obtain ⟨hsound', hlater'⟩ := (visitDir_runs hs').sound hsound hvsub
          obtain ⟨g', hg', hmirror''⟩ := ihrest hmirror' hsound' (hv.mono (hlater'.trans hlater).followed)
            (fun r hr => hlater'.contains (habove' r hr)) hrun hrest
          exact ⟨g', Option.bind_eq_some_iff.mpr ⟨gs', hgs', hg'⟩, hmirror''⟩

end Project

def GoWinner.spelling (winner : GoWinner) : FsPath × Bool := (winner.path, winner.viaLink)

namespace Project

variable {P : Project} {F G : FollowedTable} {walked : List FsPath} {path real : FsPath}

theorem goOffer_find? (winners : KeyedTable GoWinner.real) (path : FsPath) :
    ((P.goOffer F winners path).find? real).map GoWinner.spelling =
      if (P.realOf F path).1 = real then
        some (challenge ((winners.find? real).map GoWinner.spelling) path (P.realOf F path).2)
      else (winners.find? real).map GoWinner.spelling := by
  by_cases hr : (P.realOf F path).1 = real
  · subst hr
    cases hw : winners.find? (P.realOf F path).1 with
    | none => simp [goOffer, hw, challenge, GoWinner.spelling]
    | some held =>
      simp only [goOffer, hw, Option.all_some, Option.map_some, challenge, GoWinner.spelling]
      split
      next => simp [GoWinner.spelling]
      next => simp [hw, GoWinner.spelling]
  · rw [if_neg hr]
    simp only [goOffer]
    split
    next => rw [find?_put, if_neg hr]
    next => rfl

section

variable (hreal : ∀ path ∈ walked, P.realOf G path = P.realOf F path)

include hreal

theorem goWinners_find? :
    ((walked.foldl (P.goOffer G) ∅).find? real).map GoWinner.spelling = P.winningSpelling F walked real := by
  induction walked using List.reverseRecOn with
  | nil => rfl
  | append_singleton _ path ih =>
    have ih := ih fun q hq => hreal q (mem_append_left _ hq)
    rw [foldl_append, foldl_cons, foldl_nil, goOffer_find?, winningSpelling_concat, ih,
      hreal path (by simp)]

theorem mem_goWinners_iff :
    path ∈ (walked.foldl (P.goOffer G) ∅).rows.map (·.path) ↔
      ∃ real via, P.winningSpelling F walked real = some (path, via) := by
  rw [mem_map]
  constructor
  · rintro ⟨w, hw, rfl⟩
    refine ⟨w.real, w.viaLink, ?_⟩
    rw [← goWinners_find? hreal, find?_key hw]
    rfl
  · rintro ⟨real, via, h⟩
    rw [← goWinners_find? hreal] at h
    obtain ⟨w, hw, hspelling⟩ := Option.map_eq_some_iff.mp h
    exact ⟨w, (find?_eq_some_iff.mp hw).1, congrArg Prod.fst hspelling⟩

end

theorem relative_mem_finish_iff {guard : GuardState} : (∃ f ∈ (P.finish guard walked).files, f.relative = path) ↔
    ∃ real via, P.winningSpelling guard.followed walked real = some (path, via) := by
  constructor
  · rintro ⟨f, hf, rfl⟩
    obtain ⟨w, hw, q, hq, rfl⟩ := mem_finish_files.mp hf
    refine ⟨w.real, w.viaLink, ?_⟩
    rw [winningSpelling, find?_key hw, Option.map_some, getD_eq_getElem?_getD, hq]
    rfl
  · rintro ⟨real, via, h⟩
    obtain ⟨w, hw, hspelling⟩ := Option.map_eq_some_iff.mp h
    obtain ⟨q, hq, -⟩ := ((winners_spec P guard.followed walked).1 _ _ hw).2.spelled
    rw [getD_eq_getElem?_getD, hq] at hspelling
    exact ⟨_, mem_finish_files.mpr ⟨w, (find?_eq_some_iff.mp hw).1, q, hq, rfl⟩,
      congrArg Prod.fst hspelling⟩

section Plain

variable {up : FsPath} {name : String}

theorem plainDir_node (h : P.disk.contains (name :: up ++ P.rootReal)) :
    P.disk.nodeAt (up ++ P.rootReal) name = some .dir := by
  apply listed_parent h
  intro heq
  have hlen : (name :: up ++ P.rootReal).length = P.rootReal.length := congrArg List.length heq
  rw [length_append, length_cons] at hlen
  omega

variable (h : P.disk.contains (up ++ P.rootReal))

include h

theorem plainComponents_iff : P.plainComponents up ↔ P.PlainDir up := by
  induction up with
  | nil => exact ⟨fun _ => .root, fun _ => rfl⟩
  | cons _ _ ih =>
    have hnode := plainDir_node h
    have ih := ih (nodeAt_listed hnode)
    constructor
    · intro hplain
      simp only [plainComponents, Bool.and_eq_true, Bool.not_eq_true', decide_eq_false_iff_not] at hplain
      exact .child (ih.mp hplain.1.1) hnode hplain.2 hplain.1.2
    · intro hplain
      cases hplain with
      | child hup _ hignored hexcluded => simp [plainComponents, ih.mpr hup, hignored, hexcluded]

theorem Visits.plain_of_listed (hv : Visits P F up real via) :
    P.PlainDir up ∧ real = up ++ P.rootReal := by
  induction hv with
  | root => exact ⟨.root, rfl⟩
  | dir _ _ hi hex ih =>
    have hnode := plainDir_node h
    obtain ⟨hup, hreal⟩ := ih (nodeAt_listed hnode)
    exact ⟨.child hup hnode hi hex, by rw [hreal, cons_append]⟩
  | link _ hlink _ ih =>
    have hnode := plainDir_node h
    obtain ⟨-, hreal⟩ := ih (nodeAt_listed hnode)
    rw [hreal, hnode] at hlink
    simp at hlink

end Plain

variable {name : String} {st : WalkState}

theorem forGo_excluded (h : name ∈ P.forGo.excluded) : isGoFile name = false := by
  have hnames : ∀ name ∈ hardExcludedDirs, isGoFile name = false := by decide +kernel
  exact hnames name h

theorem goWalkStart_mirrors (P : Project) : Mirrors P P.walkStart P.goWalkStart := by
  refine ⟨fun _ _ => rfl, fun r => ?_, rfl, nofun⟩
  simp only [walkStart, yieldDir, guardStart, contains_put_entered]
  simp [goWalkStart, KeyedTable.contains]

theorem walkProjectFiles_mem (hst : P.forGo.runWalker = some st) :
    ∃ out, P.forGo.walkProjectFiles = some out ∧ ∀ path, path ∈ out ↔
      ∃ f ∈ (P.forGo.finish st.guard (st.files.filter isGoPath)).files, f.relative = path := by
  obtain ⟨g, hg, hmirror⟩ := visitDir_mirrors (fun _ h => forGo_excluded h) hst (goWalkStart_mirrors _)
    (walkStart_sound _) .root (nofun)
    (fun r hr => ((goWalkStart_mirrors _).entered r).mp hr)
  refine ⟨_, by rw [walkProjectFiles, hg]; rfl, fun path => ?_⟩
  have hreal : ∀ p ∈ g.walked, P.forGo.realOf g.guard.followed p = P.forGo.realOf st.guard.followed p :=
    fun p hp => hmirror.realOf (hmirror.named p hp)
  rw [mem_insertionSort, mem_goWinners_iff hreal, hmirror.walked, relative_mem_finish_iff]

section

variable {up : FsPath} (hfile : P.disk.nodeAt (up ++ P.rootReal) name = some .file)

include hfile

theorem plainWalkReaches_iff (hname : isGoFile name) (hexcluded : name ∉ P.excluded) :
    P.plainWalkReaches (name :: up) ↔ P.PlainFile (name :: up) := by
  have hup := plainComponents_iff (nodeAt_listed hfile)
  simp [plainWalkReaches, isGoPath, hname, plainComponents, hup, hexcluded, PlainFile, hfile]

theorem mem_finish_plain_iff {keep : FsPath → Bool} (hst : P.runWalker = some st)
    (hkeep : keep (name :: up)) :
    (∃ f ∈ (P.finish st.guard (st.files.filter keep)).files, f.relative = name :: up) ↔ P.PlainFile (name :: up) := by
  have hs := runWalker_sound hst
  constructor
  · rintro ⟨f, hf, hrel⟩
    obtain ⟨w, -, q, hq, rfl⟩ := mem_finish_files.mp hf
    have hmem : name :: up ∈ st.files := by
      have hwalked := mem_of_getElem? hq
      exact hrel ▸ (mem_filter.mp hwalked).1
    obtain ⟨real, via, hv⟩ := hs.files _ hmem
    cases hv with
    | file hup _ hi => exact ⟨(hup.plain_of_listed (nodeAt_listed hfile)).1, hfile, hi⟩
    | link hup hlink =>
      rw [(hup.plain_of_listed (nodeAt_listed hfile)).2, hfile] at hlink
      simp at hlink
  · intro hplain
    exact finish_plain_of_mem hs (fun _ hq => (mem_filter.mp hq).1) hplain
      (mem_filter.mpr ⟨hplain.yielded hst, hkeep⟩)

end

/-- The Go plugin's walk lists what the shared one does with its excluded names and files, and a Go file with no link
on its path when no component is excluded or ignored. -/
theorem walkProjectFiles_lists_walkFiltered (P : Project) : ∃ out w,
    P.forGo.walkProjectFiles = some out ∧ P.forGo.walkFiltered isGoPath = some w ∧
    (∀ path, path ∈ out ↔ ∃ f ∈ w.files, f.relative = path) ∧
    ∀ name up, P.disk.nodeAt (up ++ P.rootReal) name = some .file → isGoFile name = true →
      (P.forGo.plainWalkReaches (name :: up) = true ↔ name :: up ∈ out) := by
  obtain ⟨st, hst⟩ := P.forGo.runWalker_ends
  obtain ⟨out, hout, hmem⟩ := walkProjectFiles_mem hst
  refine ⟨out, _, hout, by rw [walkFiltered, hst]; rfl, hmem, fun name up hfile hname => ?_⟩
  have hexcluded : name ∉ P.forGo.excluded := by
    intro hex
    rw [forGo_excluded hex] at hname
    simp at hname
  have hfile : P.forGo.disk.nodeAt (up ++ P.forGo.rootReal) name = some .file := hfile
  rw [hmem, plainWalkReaches_iff hfile hname hexcluded, mem_finish_plain_iff hfile hst hname]

end Project

end GMesh
