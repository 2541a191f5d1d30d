import GMesh.ProjectWinners

namespace GMesh

open List Option

abbrev IgnoreRules := FsPath → Bool → Bool

/-- Whether a path lies in one of the subtrees; the empty one is the whole project. -/
def underAny (path : FsPath) (subtrees : List FsPath) : Bool := subtrees.any fun subtree => subtree.isSuffixOf path

def inReach (subtrees : List FsPath) (mayHold : Bool) (path : FsPath) : Bool :=
  subtrees.any fun subtree => subtree.isSuffixOf path || (mayHold && path.isSuffixOf subtree)

/-- Why the pruned walk has no answer. -/
inductive PlainStop
  | outOfFuel | metLink
  deriving DecidableEq, Repr

namespace Project

variable (P : Project) (rules : IgnoreRules) (subtrees : List FsPath)

def isDirAt : FsPath → Bool
  | [] => true
  | name :: up =>
    match (P.realPath up).bind fun real => P.disk.nodeAt real name with
    | some .dir => true
    | some (.link (.found _ isDir)) => isDir
    | _ => false

/-- The project under ignore rules, which the following walk asks about what a link names. -/
def withRules : Project := { P with ignored := fun path => rules path (P.isDirAt path) }

def projectFiles : Option (List WalkedEntry) := (P.withRules rules).walk.map (·.files)

/-- The pruned walk meets an entry. It follows no link, and takes none for a directory. -/
def meetPlain (dir : FsPath) (into : FsPath → List FsPath → Except PlainStop (List FsPath)) (files : List FsPath)
    (name : String) : FsNode → Except PlainStop (List FsPath)
  | .file =>
    .ok (if rules (name :: dir) false || !inReach subtrees false (name :: dir) then files else files ++ [name :: dir])
  | .dir =>
    if rules (name :: dir) true || decide (name ∈ P.excluded) || !inReach subtrees true (name :: dir) then .ok files
    else into (name :: dir) files
  | .link _ =>
    if rules (name :: dir) false || !inReach subtrees true (name :: dir) then .ok files else .error .metLink

def visitPlain : (fuel : Nat) → (dir : FsPath) → List FsPath → Except PlainStop (List FsPath)
  | 0, _, _ => .error .outOfFuel
  | fuel + 1, dir, files =>
    (P.disk.entriesAt (dir ++ P.rootReal)).foldlM
      (fun files entry => P.meetPlain rules subtrees dir (visitPlain fuel) files entry.1 entry.2) files

def plainFilesUnder : Except PlainStop (List FsPath) := P.visitPlain rules subtrees (P.height + 1) [] []

def projectFilesUnder : Option (List WalkedEntry) :=
  match P.plainFilesUnder rules subtrees with
  | .ok files => some (files.map fun path => ⟨path, none⟩)
  | .error .metLink => (P.projectFiles rules).map fun files => files.filter fun f => underAny f.relative subtrees
  | .error .outOfFuel => none

end Project

section Reach

variable {subtrees : List FsPath} {path up : FsPath}

theorem inReach_false : inReach subtrees false path = underAny path subtrees := by
  simp [inReach, underAny]

theorem inReach_true_iff : inReach subtrees true path ↔ ∃ s ∈ subtrees, s <:+ path ∨ path <:+ s := by
  simp [inReach, isSuffixOf_iff_suffix]

theorem inReach_above (hup : up <:+ path) (h : inReach subtrees true path) : inReach subtrees true up := by
  obtain ⟨s, hs, hor⟩ := inReach_true_iff.mp h
  refine inReach_true_iff.mpr ⟨s, hs, ?_⟩
  rcases hor with h | h
  · exact suffix_or_suffix_of_suffix h hup
  · exact .inr (hup.trans h)

theorem inReach_of_underAny (h : underAny path subtrees) : inReach subtrees true path := by
  obtain ⟨s, hs, hsuffix⟩ := any_eq_true.mp h
  exact inReach_true_iff.mpr ⟨s, hs, .inl (isSuffixOf_iff_suffix.mp hsuffix)⟩

end Reach

/-- A fold over parts that lie apart collects what each adds, or stops at one that stops. -/
theorem foldlM_collects {ε α β : Type} {f : List α → β → Except ε (List α)} {A : β → α → Prop} {S : β → Prop}
    {stop : ε} {l : List β} (files : List α) (hapart : l.Pairwise fun b c => ∀ p, A b p → ¬A c p)
    (h : ∀ files, ∀ b ∈ l, (∃ new, f files b = .ok (files ++ new) ∧ new.Nodup ∧ (∀ p, p ∈ new ↔ A b p) ∧ ¬S b) ∨
      f files b = .error stop ∧ S b) :
    (∃ new, l.foldlM f files = .ok (files ++ new) ∧ new.Nodup ∧ (∀ p, p ∈ new ↔ ∃ b ∈ l, A b p) ∧ ¬∃ b ∈ l, S b) ∨
      l.foldlM f files = .error stop ∧ ∃ b ∈ l, S b := by
  induction l generalizing files with
  | nil => exact .inl ⟨[], by rw [append_nil]; rfl, by simp, by simp, by simp⟩
  | cons b _ ih =>
    obtain ⟨hb, hapart⟩ := pairwise_cons.mp hapart
    rw [foldlM_cons]
    rcases h files b (by simp) with ⟨first, hf, hnd, hadds, hgo⟩ | ⟨hf, hstop⟩
    · rw [hf]
      rcases ih (files ++ first) hapart fun files b hb => h files b (mem_cons_of_mem _ hb) with
        ⟨rest, hg, hnd', hrest, hgoes⟩ | ⟨hg, c, hc, hs⟩
      · refine .inl ⟨first ++ rest, ?_, ?_, fun p => ?_, ?_⟩
        · rw [← append_assoc]
          exact hg
        · refine nodup_append.mpr ⟨hnd, hnd', fun p hp q hq hpq => ?_⟩
          subst hpq
          obtain ⟨c, hc, hcp⟩ := (hrest p).mp hq
          exact hb c hc p ((hadds p).mp hp) hcp
        · rw [mem_append, hadds, hrest]
          simp
        · simpa [hgo] using hgoes
      · exact .inr ⟨hg, c, mem_cons_of_mem _ hc, hs⟩
    · rw [hf]
      exact .inr ⟨rfl, b, by simp, hstop⟩

namespace Project

variable {P : Project} {rules : IgnoreRules} {subtrees : List FsPath} {dir up path : FsPath} {name : String}

structure StepsInto (P : Project) (rules : IgnoreRules) (subtrees : List FsPath) (dir : FsPath) (name : String) :
    Prop where
  node : P.disk.nodeAt (dir ++ P.rootReal) name = some .dir
  passed : rules (name :: dir) true = false
  kept : name ∉ P.excluded
  reach : inReach subtrees true (name :: dir) = true

inductive ReachedFrom (P : Project) (rules : IgnoreRules) (subtrees : List FsPath) (dir : FsPath) : FsPath → Prop
  | refl : ReachedFrom P rules subtrees dir dir
  | child {name : String} {up : FsPath} (hup : ReachedFrom P rules subtrees dir up)
      (hstep : StepsInto P rules subtrees up name) : ReachedFrom P rules subtrees dir (name :: up)

theorem ReachedFrom.head (h : ReachedFrom P rules subtrees dir up) :
    up = dir ∨ ∃ name, StepsInto P rules subtrees dir name ∧ ReachedFrom P rules subtrees (name :: dir) up := by
  induction h with
  | refl => exact .inl rfl
  | @child name _ _ hstep ih =>
    rcases ih with rfl | ⟨first, hfirst, hrest⟩
    · exact .inr ⟨name, hstep, .refl⟩
    · exact .inr ⟨first, hfirst, hrest.child hstep⟩

theorem ReachedFrom.suffix (h : ReachedFrom P rules subtrees dir up) : dir <:+ up := by
  induction h with
  | refl => exact suffix_rfl
  | child _ _ ih => exact ih.trans (suffix_cons ..)

theorem StepsInto.reachedFrom (hstep : StepsInto P rules subtrees dir name)
    (h : ReachedFrom P rules subtrees (name :: dir) up) : ReachedFrom P rules subtrees dir up := by
  induction h with
  | refl => exact .child .refl hstep
  | child _ hlast ih => exact ih.child hlast

structure YieldsFile (P : Project) (rules : IgnoreRules) (subtrees : List FsPath) (dir : FsPath) (name : String) :
    Prop where
  node : P.disk.nodeAt (dir ++ P.rootReal) name = some .file
  passed : rules (name :: dir) false = false
  under : underAny (name :: dir) subtrees = true

structure ShowsLink (P : Project) (rules : IgnoreRules) (subtrees : List FsPath) (dir : FsPath) (name : String) :
    Prop where
  node : ∃ target, P.disk.nodeAt (dir ++ P.rootReal) name = some (.link target)
  passed : rules (name :: dir) false = false
  reach : inReach subtrees true (name :: dir) = true

def FileFrom (P : Project) (rules : IgnoreRules) (subtrees : List FsPath) (dir path : FsPath) : Prop :=
  ∃ name up, ReachedFrom P rules subtrees dir up ∧ YieldsFile P rules subtrees up name ∧ path = name :: up

def LinkFrom (P : Project) (rules : IgnoreRules) (subtrees : List FsPath) (dir : FsPath) : Prop :=
  ∃ name up, ReachedFrom P rules subtrees dir up ∧ ShowsLink P rules subtrees up name

def Adds (P : Project) (rules : IgnoreRules) (subtrees : List FsPath) (dir : FsPath) (e : String × FsNode)
    (path : FsPath) : Prop :=
  (YieldsFile P rules subtrees dir e.1 ∧ path = e.1 :: dir) ∨
    StepsInto P rules subtrees dir e.1 ∧ FileFrom P rules subtrees (e.1 :: dir) path

theorem fileFrom_iff (dir : FsPath) : FileFrom P rules subtrees dir path ↔ ∃ e ∈ P.disk.entriesAt (dir ++ P.rootReal),
    Adds P rules subtrees dir e path := by
  constructor
  · rintro ⟨name, up, hup, hfile, rfl⟩
    rcases hup.head with rfl | ⟨first, hfirst, hrest⟩
    · exact ⟨(name, .file), nodeAt_eq_some.mp hfile.node, .inl ⟨hfile, rfl⟩⟩
    · exact ⟨(first, .dir), nodeAt_eq_some.mp hfirst.node, .inr ⟨hfirst, name, up, hrest, hfile, rfl⟩⟩
  · rintro ⟨e, -, ⟨hfile, rfl⟩ | ⟨hstep, name, up, hup, hfile, rfl⟩⟩
    · exact ⟨e.1, dir, .refl, hfile, rfl⟩
    · exact ⟨name, up, hstep.reachedFrom hup, hfile, rfl⟩

theorem linkFrom_iff (dir : FsPath) : LinkFrom P rules subtrees dir ↔ ∃ e ∈ P.disk.entriesAt (dir ++ P.rootReal),
    ShowsLink P rules subtrees dir e.1 ∨
      StepsInto P rules subtrees dir e.1 ∧ LinkFrom P rules subtrees (e.1 :: dir) := by
  constructor
  · rintro ⟨name, up, hup, hlink⟩
    rcases hup.head with rfl | ⟨first, hfirst, hrest⟩
    · obtain ⟨target, htarget⟩ := hlink.node
      exact ⟨(name, .link target), nodeAt_eq_some.mp htarget, .inl hlink⟩
    · exact ⟨(first, .dir), nodeAt_eq_some.mp hfirst.node, .inr ⟨hfirst, name, up, hrest, hlink⟩⟩
  · rintro ⟨e, -, hlink | ⟨hstep, name, up, hup, hlink⟩⟩
    · exact ⟨e.1, dir, .refl, hlink⟩
    · exact ⟨name, up, hstep.reachedFrom hup, hlink⟩

section Meet

variable (rules : IgnoreRules) (subtrees files : List FsPath)
  (into : FsPath → List FsPath → Except PlainStop (List FsPath)) {target : LinkTarget}

theorem meetPlain_file (hnode : P.disk.nodeAt (dir ++ P.rootReal) name = some .file) :
    ∃ new, P.meetPlain rules subtrees dir into files name .file = .ok (files ++ new) ∧ new.Nodup ∧
      ∀ p, p ∈ new ↔ YieldsFile P rules subtrees dir name ∧ p = name :: dir := by
  simp only [meetPlain, inReach_false]
  by_cases hyields : YieldsFile P rules subtrees dir name
  · refine ⟨[name :: dir], ?_, by simp, by simp [hyields]⟩
    simp [hyields.passed, hyields.under]
  · have hskip : (rules (name :: dir) false || !underAny (name :: dir) subtrees) := by
      by_contra hc
      simp only [Bool.or_eq_true, Bool.not_eq_true', not_or, Bool.not_eq_true, Bool.not_eq_false] at hc
      exact hyields ⟨hnode, hc.1, hc.2⟩
    exact ⟨[], by simp [hskip], by simp, by simp [hyields]⟩

theorem meetPlain_link (hnode : P.disk.nodeAt (dir ++ P.rootReal) name = some (.link target)) :
    P.meetPlain rules subtrees dir into files name (.link target) = .ok files ∧ ¬ShowsLink P rules subtrees dir name ∨
      P.meetPlain rules subtrees dir into files name (.link target) = .error .metLink ∧
        ShowsLink P rules subtrees dir name := by
  simp only [meetPlain]
  split
  next hskip =>
    refine .inl ⟨rfl, fun h => ?_⟩
    simp [h.passed, h.reach] at hskip
  next hmet =>
    simp only [Bool.or_eq_true, Bool.not_eq_true', not_or, Bool.not_eq_true, Bool.not_eq_false] at hmet
    exact .inr ⟨rfl, ⟨target, hnode⟩, hmet.1, hmet.2⟩

theorem meetPlain_dir (hnode : P.disk.nodeAt (dir ++ P.rootReal) name = some .dir) :
    P.meetPlain rules subtrees dir into files name .dir = .ok files ∧ ¬StepsInto P rules subtrees dir name ∨
      P.meetPlain rules subtrees dir into files name .dir = into (name :: dir) files ∧
        StepsInto P rules subtrees dir name := by
  simp only [meetPlain]
  split
  next hskip =>
    refine .inl ⟨rfl, fun h => ?_⟩
    simp [h.passed, h.reach, h.kept] at hskip
  next hinto =>
    simp only [Bool.or_eq_true, decide_eq_true_eq, Bool.not_eq_true', not_or, Bool.not_eq_true,
      Bool.not_eq_false] at hinto
    exact .inr ⟨rfl, hnode, hinto.1.1, hinto.1.2, hinto.2⟩

end Meet

theorem Adds.suffix {e : String × FsNode} (h : Adds P rules subtrees dir e path) : e.1 :: dir <:+ path := by
  rcases h with ⟨-, rfl⟩ | ⟨-, name, up, hup, -, rfl⟩
  · exact suffix_rfl
  · exact hup.suffix.trans (suffix_cons ..)

theorem adds_apart (dir : FsPath) : (P.disk.entriesAt (dir ++ P.rootReal)).Pairwise fun e e' =>
    ∀ path, Adds P rules subtrees dir e path → ¬Adds P rules subtrees dir e' path := by
  refine (P.entriesAt_sorted _).imp fun {e e'} hlt path h h' => ?_
  have heq : e.1 :: dir = e'.1 :: dir := by
    apply List.IsSuffix.eq_of_length _ (by simp)
    exact suffix_of_suffix_length_le h.suffix h'.suffix (by simp)
  rw [(List.cons.inj heq).1] at hlt
  exact String.lt_irrefl _ hlt

/-- The pruned walk collects each file below the directory once, or stops at a link. -/
theorem visitPlain_spec (rules : IgnoreRules) (subtrees : List FsPath) (fuel : Nat) (dir : FsPath)
    (files : List FsPath) (hlisted : P.disk.contains (dir ++ P.rootReal))
    (hfuel : P.height - (dir ++ P.rootReal).length < fuel) :
    (∃ new, P.visitPlain rules subtrees fuel dir files = .ok (files ++ new) ∧ new.Nodup ∧
      (∀ p, p ∈ new ↔ FileFrom P rules subtrees dir p) ∧ ¬LinkFrom P rules subtrees dir) ∨
      P.visitPlain rules subtrees fuel dir files = .error .metLink ∧ LinkFrom P rules subtrees dir := by
  induction fuel generalizing dir files with
  | zero => omega
  | succ fuel ih =>
    simp only [fileFrom_iff dir, linkFrom_iff dir]
    refine foldlM_collects (A := Adds P rules subtrees dir) files (adds_apart dir) ?_
    rintro files ⟨name, node⟩ he
    have hnode : P.disk.nodeAt (dir ++ P.rootReal) name = some node := nodeAt_eq_some.mpr he
    have hfile (h : YieldsFile P rules subtrees dir name) : node = .file := some.inj (hnode.symm.trans h.node)
    have hdir (h : StepsInto P rules subtrees dir name) : node = .dir := some.inj (hnode.symm.trans h.node)
    have hlink (h : ShowsLink P rules subtrees dir name) : ∃ target, node = .link target := by
      obtain ⟨target, htarget⟩ := h.node
      exact ⟨target, some.inj (hnode.symm.trans htarget)⟩
    cases node with
    | file =>
      obtain ⟨new, hnew, hnd, hmem⟩ := meetPlain_file rules subtrees files (P.visitPlain rules subtrees fuel) hnode
      have hnodir : ¬StepsInto P rules subtrees dir name := fun h => nomatch hdir h
      have hnolink : ¬ShowsLink P rules subtrees dir name := fun h => nomatch (hlink h).choose_spec
      exact .inl ⟨new, hnew, hnd, by simp [hmem, Adds, hnodir], by simp [hnodir, hnolink]⟩
    | link target =>
      have hnodir : ¬StepsInto P rules subtrees dir name := fun h => nomatch hdir h
      have hnofile : ¬YieldsFile P rules subtrees dir name := fun h => nomatch hfile h
      rcases meetPlain_link rules subtrees files (P.visitPlain rules subtrees fuel) hnode with
        ⟨hok, hno⟩ | ⟨hmet, hshows⟩
      · exact .inl ⟨[], by simpa using hok, by simp, by simp [Adds, hnodir, hnofile], by simp [hnodir, hno]⟩
      · exact .inr ⟨hmet, .inl hshows⟩
    | dir =>
      have hnolink : ¬ShowsLink P rules subtrees dir name := fun h => nomatch (hlink h).choose_spec
      have hnofile : ¬YieldsFile P rules subtrees dir name := fun h => nomatch hfile h
      rcases meetPlain_dir rules subtrees files (P.visitPlain rules subtrees fuel) hnode with
        ⟨hok, hno⟩ | ⟨hinto, hsteps⟩
      · exact .inl ⟨[], by simpa using hok, by simp, by simp [Adds, hno, hnofile], by simp [hno, hnolink]⟩
      · have hsub : P.disk.contains (name :: dir ++ P.rootReal) := dir_listed hnode
        have hlt := length_lt_height hsub
        simp only [cons_append, length_cons] at hlt
        rcases ih (name :: dir) files hsub (by simp only [cons_append, length_cons]; omega) with
          ⟨new, hnew, hnd, hmem, hno⟩ | ⟨hmet, hfound⟩
        · exact .inl ⟨new, hinto.trans hnew, hnd, by simp [hmem, Adds, hnofile, hsteps], by simp [hnolink, hno]⟩
        · exact .inr ⟨hinto.trans hmet, .inr ⟨hsteps, hfound⟩⟩

/-- A link lies where the pruned walk comes, and the rules let it through as no directory. -/
def MeetsLink (P : Project) (rules : IgnoreRules) (subtrees : List FsPath) : Prop :=
  ∃ name up, (P.withRules rules).PlainDir up ∧ ShowsLink P rules subtrees up name

theorem realPath_withRules (path : FsPath) : (P.withRules rules).realPath path = P.realPath path := by
  induction path with
  | nil => rfl
  | cons _ _ ih =>
    rw [realPath, realPath, ih]
    rfl

theorem PlainDir.isDirAt (hup : (P.withRules rules).PlainDir up) {node : FsNode}
    (hnode : P.disk.nodeAt (up ++ P.rootReal) name = some node) (hlink : node = .file ∨ node = .dir) :
    P.isDirAt (name :: up) = decide (node = .dir) := by
  have hreal : P.realPath up = some (up ++ P.rootReal) :=
    (realPath_withRules up).symm.trans (hup.visits (F := ∅)).realPath
  rcases hlink with rfl | rfl
  · simp [Project.isDirAt, hreal, hnode]
  · simp [Project.isDirAt, hreal, hnode]

theorem ReachedFrom.plain (h : ReachedFrom P rules subtrees [] up) : (P.withRules rules).PlainDir up := by
  induction h with
  | refl => exact .root
  | @child _ _ _ hstep ih =>
    refine .child ih hstep.node ?_ hstep.kept
    have hdir := ih.isDirAt hstep.node (.inr rfl)
    simpa [withRules, hdir] using hstep.passed

theorem PlainDir.reached (h : (P.withRules rules).PlainDir up) (hreach : inReach subtrees true up) :
    ReachedFrom P rules subtrees [] up := by
  induction h with
  | root => exact .refl
  | @child name up hup hnode hignored hkept ih =>
    have hdir := hup.isDirAt hnode (.inr rfl)
    have hpassed : rules (name :: up) true = false := by simpa [withRules, hdir] using hignored
    exact .child (ih (inReach_above (suffix_cons ..) hreach)) ⟨hnode, hpassed, hkept, hreach⟩

theorem fileFrom_root_iff : FileFrom P rules subtrees [] path ↔
    (P.withRules rules).PlainFile path ∧ underAny path subtrees := by
  constructor
  · rintro ⟨name, up, hup, hfile, rfl⟩
    have hdir := hup.plain.isDirAt hfile.node (.inl rfl)
    refine ⟨⟨hup.plain, hfile.node, ?_⟩, hfile.under⟩
    simpa [withRules, hdir] using hfile.passed
  · rintro ⟨hplain, hunder⟩
    cases path with
    | nil => exact hplain.elim
    | cons name up =>
      obtain ⟨hup, hnode, hignored⟩ := hplain
      have hdir := hup.isDirAt hnode (.inl rfl)
      have hpassed : rules (name :: up) false = false := by simpa [withRules, hdir] using hignored
      have hreach := inReach_above (suffix_cons ..) (inReach_of_underAny hunder)
      exact ⟨name, up, hup.reached hreach, ⟨hnode, hpassed, hunder⟩, rfl⟩

theorem linkFrom_root_iff : LinkFrom P rules subtrees [] ↔ P.MeetsLink rules subtrees := by
  constructor
  · rintro ⟨name, up, hup, hlink⟩
    exact ⟨name, up, hup.plain, hlink⟩
  · rintro ⟨name, up, hup, hlink⟩
    exact ⟨name, up, hup.reached (inReach_above (suffix_cons ..) hlink.reach), hlink⟩

section Listed

variable {Q : Project} {st : WalkState} {f : WalkedEntry}

theorem walk_eq_finish (hst : Q.runWalker = some st) : Q.walk = some (Q.finish st.guard st.files) := by
  have hall : st.files.filter (fun _ => true) = st.files := filter_true st.files
  rw [walk, walkFiltered, hst, map_some, hall]

theorem eq_entryOf_of_listed {guard : GuardState} {walked : List FsPath} (hf : f ∈ (Q.finish guard walked).files) :
    f = Q.entryOf guard.followed f.relative := by
  obtain ⟨w, -, path, -, rfl⟩ := mem_finish_files.mp hf
  rfl

theorem VisitsFile.realRelative {F : FollowedTable} (hF : FollowsLinks Q F) {path real : FsPath} {via : Bool}
    (h : VisitsFile Q F path real via) : (Q.entryOf F path).realRelative = none ↔ via = false := by
  have hreal := h.realOf hF
  obtain ⟨name, up, hname, below, hup, -⟩ := h.clean hF
  have hdrop : real.dropSuffix? Q.rootReal = some (name :: below) := by
    rw [dropSuffix?_eq_some_iff]
    exact ⟨Q.rootReal, by rw [hname, hup, cons_append], by simp⟩
  unfold entryOf realRelativeOf
  rw [hreal]
  cases via with
  | false => simp
  | true => simp [hdrop]

theorem listed_plain_iff (hst : Q.runWalker = some st) :
    f ∈ (Q.finish st.guard st.files).files ∧ f.realRelative = none ↔
      Q.PlainFile f.relative ∧ f.realRelative = none := by
  have hs := runWalker_sound hst
  refine and_congr_left fun hnone => ⟨fun hf => ?_, fun hplain => ?_⟩
  · obtain ⟨w, -, -, hv⟩ := finish_listed hs hf
    rw [eq_entryOf_of_listed hf, hv.realRelative hs.follows] at hnone
    rw [hnone] at hv
    exact hv.plain.1
  · obtain ⟨g, hg, hrelative⟩ := finish_plain hst hplain
    have hentry := eq_entryOf_of_listed hg
    have hgnone : g.realRelative = none := by
      rw [hentry, hrelative]
      exact ((PlainFile.visits hplain).realRelative hs.follows).mpr rfl
    cases f
    cases g
    simp_all

end Listed

/-- The subtree listing is the whole one's part exactly when a link stops the pruned walk or no link is on the way. -/
theorem projectFilesUnder_perm_iff (P : Project) (rules : IgnoreRules) (subtrees : List FsPath) :
    ∃ files listed, P.projectFilesUnder rules subtrees = some files ∧ P.projectFiles rules = some listed ∧
      (files.Perm (listed.filter fun f => underAny f.relative subtrees) ↔
        P.MeetsLink rules subtrees ∨ ∀ f ∈ listed, underAny f.relative subtrees → f.realRelative = none) := by
  obtain ⟨st, hst⟩ := (P.withRules rules).runWalker_ends
  have hlisted : P.projectFiles rules = some ((P.withRules rules).finish st.guard st.files).files := by
    rw [projectFiles, walk_eq_finish hst, map_some]
  have hspec := P.visitPlain_spec rules subtrees (P.height + 1) [] [] P.root_listed (by omega)
  simp only [fileFrom_root_iff, linkFrom_root_iff, nil_append] at hspec
  rcases hspec with ⟨files, hfiles, hnd, hmem, hno⟩ | ⟨hmet, hlink⟩
  · refine ⟨_, _, by rw [projectFilesUnder, plainFilesUnder, hfiles], hlisted, ?_⟩
    have hnd' : (files.map fun path => (⟨path, none⟩ : WalkedEntry)).Nodup :=
      hnd.map fun p q h => (WalkedEntry.mk.inj h).1
    rw [perm_ext_iff_of_nodup hnd' ((finish_reals_nodup (runWalker_sound hst)).of_map.filter _), or_iff_right hno]
    have hplain : ∀ f : WalkedEntry, f ∈ files.map (fun path => (⟨path, none⟩ : WalkedEntry)) ↔
        (f ∈ ((P.withRules rules).finish st.guard st.files).files ∧ underAny f.relative subtrees) ∧
          f.realRelative = none := by
      intro f
      rw [and_right_comm, listed_plain_iff hst, List.mem_map]
      constructor
      · rintro ⟨path, hpath, rfl⟩
        obtain ⟨hp, hu⟩ := (hmem path).mp hpath
        exact ⟨⟨hp, rfl⟩, hu⟩
      · rintro ⟨⟨hp, hnone⟩, hu⟩
        exact ⟨f.relative, (hmem _).mpr ⟨hp, hu⟩, by rw [← hnone]⟩
    simp only [hplain, mem_filter]
    constructor
    · intro h f hf hu
      exact ((h f).mpr ⟨hf, hu⟩).2
    · intro h f
      exact and_iff_left_of_imp fun hf => h f hf.1 hf.2
  · have hunder : P.projectFilesUnder rules subtrees =
        some (((P.withRules rules).finish st.guard st.files).files.filter fun f => underAny f.relative subtrees) := by
      simp only [projectFilesUnder, plainFilesUnder, hmet, hlisted, map_some]
    exact ⟨_, _, hunder, hlisted, iff_of_true (List.Perm.refl _) (.inl hlink)⟩

variable {Q : Project} {real : FsPath} {st : WalkState}

theorem visitDir_keeps {J : WalkState → Prop}
    (hmeet : ∀ dir real above st name node, J st → J (Q.meet dir real above st name node).1) {fuel : Nat}
    {dir : FsPath} {above : List FsPath} {st' : WalkState} (h : Q.visitDir fuel dir real above st = some st')
    (hJ : J st) : J st' := by
  induction fuel generalizing dir real above st st' with
  | zero => simp [visitDir] at h
  | succ fuel ih =>
    rw [visitDir] at h
    generalize Q.disk.entriesAt real = entries at h
    induction entries generalizing st with
    | nil => exact some.inj h ▸ hJ
    | cons e _ ihe =>
      rw [foldlM_cons] at h
      obtain ⟨mid, hmid, hrest⟩ := bind_eq_some_iff.mp h
      have hmet := hmeet dir real above st e.1 e.2 hJ
      have hJmid : J mid := by
        cases hm : Q.meet dir real above st e.1 e.2 with
        | mk s sub =>
          rw [hm] at hmet hmid
          cases sub with
          | none => exact some.inj hmid ▸ hmet
          | some target => exact ih hmid hmet
      exact ihe hJmid hrest

theorem meet_followed (dir real : FsPath) (above : List FsPath) (st : WalkState) (name : String) (node : FsNode) :
    (Q.meet dir real above st name node).1.guard.followed = st.guard.followed ∨
      Q.ignored (name :: dir) = false ∧ ∃ target,
        (Q.meet dir real above st name node).1.guard.followed = st.guard.followed.put ⟨name :: dir, target⟩ := by
  cases node with
  | file =>
    left
    simp only [meet]
    split <;> rfl
  | dir =>
    left
    simp only [meet]
    split <;> rfl
  | link target =>
    cases target with
    | missing named => exact .inl rfl
    | found target isDir =>
      simp only [meet]
      split
      next => exact .inl rfl
      next =>
        split
        next => exact .inl rfl
        next hpass =>
          simp only [Bool.or_eq_true, not_or, Bool.not_eq_true] at hpass
          simp only [admitLink]
          cases Q.judge st.guard (.found target isDir) with
          | followedDir real => exact .inr ⟨hpass.1, real, rfl⟩
          | followedFile real => exact .inr ⟨hpass.1, real, rfl⟩
          | alreadyEntered real => exact .inl rfl
          | refused why real => exact .inl rfl

theorem followed_not_ignored (hst : Q.runWalker = some st) {f : FollowedLink}
    (hf : st.guard.followed.find? path = some f) : Q.ignored path = false := by
  have hkeeps : ∀ path f, st.guard.followed.find? path = some f → Q.ignored path = false := by
    refine visitDir_keeps (J := fun st => ∀ path f, st.guard.followed.find? path = some f → Q.ignored path = false)
      ?_ hst ?_
    · intro dir real above st name node hJ path f hf
      rcases meet_followed dir real above st name node with hsame | ⟨hpass, target, hput⟩
      · exact hJ path f (hsame ▸ hf)
      · rw [hput, KeyedTable.find?_put] at hf
        split at hf
        next hpath => exact hpath ▸ hpass
        next => exact hJ path f hf
    · intro path f hf
      simp [walkStart, yieldDir, guardStart] at hf
  exact hkeeps path f hf

def FirstLink (Q : Project) (F : FollowedTable) (path : FsPath) : Prop :=
  ∃ name up target isDir, Q.PlainDir up ∧
    Q.disk.nodeAt (up ++ Q.rootReal) name = some (.link (.found target isDir)) ∧
    (∃ f, F.find? (name :: up) = some f) ∧ name :: up <:+ path

variable {F : FollowedTable} {dir path : FsPath}

theorem FirstLink.under (h : FirstLink Q F dir) (name : String) : FirstLink Q F (name :: dir) := by
  obtain ⟨first, up, target, isDir, hup, hnode, hf, hsuffix⟩ := h
  exact ⟨first, up, target, isDir, hup, hnode, hf, hsuffix.trans (suffix_cons ..)⟩

theorem Visits.firstLink (h : Visits Q F dir real true) : FirstLink Q F dir := by
  generalize hvia : true = via at h
  induction h with
  | root => simp at hvia
  | dir _ _ _ _ ih => exact (ih hvia).under _
  | @link dir _ target via name hup hlink hf ih =>
    cases via with
    | true => exact (ih rfl).under name
    | false =>
      obtain ⟨hplain, rfl⟩ := hup.plain
      exact ⟨name, dir, target, true, hplain, hlink, ⟨_, hf⟩, suffix_rfl⟩

theorem VisitsFile.firstLink (h : VisitsFile Q F path real true) : FirstLink Q F path := by
  cases h with
  | file hup => exact hup.firstLink.under _
  | @link dir _ _ via name hup hlink hf =>
    cases via with
    | true => exact hup.firstLink.under name
    | false =>
      obtain ⟨hplain, rfl⟩ := hup.plain
      exact ⟨name, dir, _, false, hplain, hlink, ⟨_, hf⟩, suffix_rfl⟩

theorem meetsLink_of_listed (hst : (P.withRules rules).runWalker = some st) {f : WalkedEntry}
    (hrules : ∀ path, rules path true = false → rules path false = false)
    (hf : f ∈ ((P.withRules rules).finish st.guard st.files).files) (hunder : underAny f.relative subtrees)
    (hvia : f.realRelative ≠ none) : P.MeetsLink rules subtrees := by
  have hs := runWalker_sound hst
  obtain ⟨w, -, -, hv⟩ := finish_listed hs hf
  rw [eq_entryOf_of_listed hf, ne_eq, hv.realRelative hs.follows, Bool.not_eq_false] at hvia
  rw [hvia] at hv
  obtain ⟨name, up, target, isDir, hup, hnode, ⟨g, hg⟩, hsuffix⟩ := hv.firstLink
  have hdir : P.isDirAt (name :: up) = isDir := by
    have hreal : P.realPath up = some (up ++ P.rootReal) :=
      (realPath_withRules up).symm.trans (hup.visits (F := ∅)).realPath
    have hnode' : P.disk.nodeAt (up ++ P.rootReal) name = some (.link (.found target isDir)) := hnode
    simp [isDirAt, hreal, hnode']
  have hpass : rules (name :: up) (P.isDirAt (name :: up)) = false := followed_not_ignored hst hg
  have hlet : rules (name :: up) false = false := by
    rw [hdir] at hpass
    cases isDir with
    | false => exact hpass
    | true => exact hrules _ hpass
  exact ⟨name, up, hup, ⟨_, hnode⟩, hlet, inReach_above hsuffix (inReach_of_underAny hunder)⟩

/-- The subtree walk lists what the full walk does in the subtrees exactly if it meets a link, or the full walk lists
no file of theirs through one; so it does where no link is ignored that a directory would not be. -/
theorem projectFilesUnder_exact_iff (P : Project) (rules : IgnoreRules) (subtrees : List FsPath) :
    ∃ files listed, P.projectFilesUnder rules subtrees = some files ∧ P.projectFiles rules = some listed ∧
      (files.Perm (listed.filter fun f => underAny f.relative subtrees) ↔
        P.MeetsLink rules subtrees ∨ ∀ f ∈ listed, underAny f.relative subtrees = true → f.realRelative = none) ∧
      ((∀ path, rules path true = false → rules path false = false) →
        files.Perm (listed.filter fun f => underAny f.relative subtrees)) := by
  obtain ⟨files, listed, hfiles, hlisted, hiff⟩ := P.projectFilesUnder_perm_iff rules subtrees
  refine ⟨files, listed, hfiles, hlisted, hiff, fun hrules => hiff.mpr ?_⟩
  obtain ⟨st, hst⟩ := (P.withRules rules).runWalker_ends
  rw [projectFiles, walk_eq_finish hst, map_some, some.injEq] at hlisted
  subst hlisted
  by_cases hmeets : P.MeetsLink rules subtrees
  · exact .inl hmeets
  · refine .inr fun f hf hunder => ?_
    by_contra hvia
    exact hmeets (meetsLink_of_listed hst hrules hf hunder hvia)

end Project

section WhitelistedDirectory

/-! A project that ignores everything at the top but the directory `src`, which is a link to an ignored directory. -/

def linkedSourceDisk : Disk where
  rows := [⟨[], [("real", .dir), ("src", .link (.found ["real"] true))]⟩, ⟨["real"], [("a.ts", .file)]⟩]
  nodup := by decide

def linkedSource : Project where
  rootReal := []
  disk := linkedSourceDisk
  excluded := []
  ignored := fun _ => false
  root_listed := by decide
  sorted := by decide +kernel
  nested := by decide
  parents := by decide
  resolved := by decide

/-- `/*` and `!/src/`. -/
def onlySourceDirectory : IgnoreRules
  | ["src"], isDir => !isDir
  | [_], _ => true
  | _, _ => false

end WhitelistedDirectory

theorem ignored_link_hides_subtree :
    linkedSource.projectFilesUnder onlySourceDirectory [["src"]] = some [] ∧
      linkedSource.projectFiles onlySourceDirectory = some [⟨["a.ts", "src"], some ["a.ts", "real"]⟩] ∧
      underAny ["a.ts", "src"] [["src"]] = true := by
  decide +kernel

end GMesh
