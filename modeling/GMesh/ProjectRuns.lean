import GMesh.KeyedTable

namespace GMesh

open KeyedTable List

/-- The names of a path, innermost first. -/
abbrev FsPath := List String

inductive LinkTarget where
  | missing (named : Option FsPath)
  | found (real : FsPath) (isDir : Bool)
  deriving DecidableEq, Repr

inductive FsNode where
  | file
  | dir
  | link (target : LinkTarget)
  deriving DecidableEq, Repr

structure Listing where
  real : FsPath
  entries : List (String × FsNode)
  deriving DecidableEq, Repr

abbrev Disk := KeyedTable Listing.real

variable (disk : Disk)

namespace Disk

def entriesAt (real : FsPath) : List (String × FsNode) :=
  match disk.find? real with
  | some d => d.entries
  | none => []

def nodeAt (real : FsPath) (name : String) : Option FsNode :=
  ((disk.entriesAt real).find? (fun e => decide (e.1 = name))).map (·.2)

def fileAt : FsPath → Bool
  | [] => false
  | name :: up => disk.nodeAt up name = some .file

/-- A link into the tree names something that is there, of the kind it says. -/
def resolves (rootReal : FsPath) : FsNode → Bool
  | .link (.found real isDir) =>
    !(rootReal.isSuffixOf real) || (if isDir then disk.contains real else disk.fileAt real)
  | _ => true

theorem mem_entriesAt {disk : Disk} {real : FsPath} {e : String × FsNode} :
    e ∈ disk.entriesAt real ↔ ∃ d ∈ disk, d.real = real ∧ e ∈ d.entries := by
  unfold entriesAt
  constructor
  · intro he
    split at he
    · next d hd =>
      obtain ⟨hm, hk⟩ := find?_eq_some_iff.mp hd
      exact ⟨d, hm, hk, he⟩
    · simp at he
  · rintro ⟨d, hm, rfl, he⟩
    rw [find?_key hm]
    exact he

end Disk

/-- A project's tree below its real root, with what a walk of it skips. -/
structure Project where
  rootReal : FsPath
  disk : Disk
  excluded : List String
  ignored : FsPath → Bool
  root_listed : disk.contains rootReal = true
  sorted : ∀ d ∈ disk.rows, d.entries.Pairwise (fun a b => a.1 < b.1)
  nested : ∀ d ∈ disk.rows, ∀ e ∈ d.entries, e.2 = .dir → disk.contains (e.1 :: d.real) = true
  parents : ∀ d ∈ disk.rows, d.real ≠ rootReal →
    ∃ up ∈ disk.rows, ∃ e ∈ up.entries, e.2 = .dir ∧ d.real = e.1 :: up.real
  resolved : ∀ d ∈ disk.rows, ∀ e ∈ d.entries, disk.resolves rootReal e.2 = true

variable {target : FsPath}

namespace Project

variable {P : Project}

theorem entriesAt_names_nodup (P : Project) (real : FsPath) : ((P.disk.entriesAt real).map (·.1)).Nodup := by
  unfold Disk.entriesAt
  split
  · next d hd =>
    have hs := P.sorted d (find?_eq_some_iff.mp hd).1
    rw [List.Nodup, pairwise_map]
    refine hs.imp fun {a b} h heq => ?_
    rw [heq] at h
    exact String.lt_irrefl _ h
  · simp

variable {real : FsPath} {name : String} {node : FsNode}

theorem nodeAt_eq_some : P.disk.nodeAt real name = some node ↔ (name, node) ∈ P.disk.entriesAt real := by
  unfold Disk.nodeAt
  constructor
  · intro h
    obtain ⟨e, he, rfl⟩ := Option.map_eq_some_iff.mp h
    have hn := find?_some he
    rw [← of_decide_eq_true hn]
    exact mem_of_find?_eq_some he
  · intro he
    cases hf : (P.disk.entriesAt real).find? (fun e => decide (e.1 = name)) with
    | none => simpa using find?_eq_none.mp hf _ he
    | some e =>
      have hn := find?_some hf
      have hm := mem_of_find?_eq_some hf
      have := inj_on_of_nodup_map (P.entriesAt_names_nodup real) hm he (of_decide_eq_true hn)
      simp [this]

theorem nodeAt_listed (h : P.disk.nodeAt real name = some node) : P.disk.contains real := by
  obtain ⟨d, hd, hr, _⟩ := Disk.mem_entriesAt.mp (nodeAt_eq_some.mp h)
  exact contains_iff.mpr ⟨d, hd, hr⟩

theorem dir_listed (h : P.disk.nodeAt real name = some .dir) : P.disk.contains (name :: real) := by
  obtain ⟨d, hd, rfl, he⟩ := Disk.mem_entriesAt.mp (nodeAt_eq_some.mp h)
  exact P.nested d hd _ he rfl

theorem listed_parent (h : P.disk.contains (name :: real)) (hr : name :: real ≠ P.rootReal) :
    P.disk.nodeAt real name = some .dir := by
  obtain ⟨d, hd, hk⟩ := contains_iff.mp h
  obtain ⟨up, hup, e, he, hdir, hreal⟩ := P.parents d hd (hk ▸ hr)
  rw [hk, List.cons.injEq] at hreal
  rw [nodeAt_eq_some, Disk.mem_entriesAt]
  exact ⟨up, hup, hreal.2.symm, by rw [hreal.1, ← hdir]; exact he⟩

theorem listed_below_root (h : P.disk.contains real) : ∃ below, real = below ++ P.rootReal := by
  induction real with
  | nil =>
    obtain ⟨d, hd, hk⟩ := contains_iff.mp h
    by_cases hr : [] = P.rootReal
    · exact ⟨[], by simp [← hr]⟩
    · obtain ⟨up, _, e, _, _, hreal⟩ := P.parents d hd (hk ▸ hr)
      rw [hk] at hreal
      exact absurd hreal (by simp)
  | cons name up ih =>
    by_cases hr : name :: up = P.rootReal
    · exact ⟨[], by simp [hr]⟩
    · obtain ⟨below, hb⟩ := ih (nodeAt_listed (listed_parent h hr))
      exact ⟨name :: below, by rw [hb, cons_append]⟩

theorem link_resolves (h : P.disk.nodeAt real name = some node) : P.disk.resolves P.rootReal node := by
  obtain ⟨d, hd, _, he⟩ := Disk.mem_entriesAt.mp (nodeAt_eq_some.mp h)
  exact P.resolved d hd _ he

theorem link_dir_listed (h : P.disk.nodeAt real name = some (.link (.found target true)))
    (hr : P.rootReal <:+ target) : P.disk.contains target := by
  have := link_resolves h
  rw [← isSuffixOf_iff_suffix] at hr
  simpa [Disk.resolves, hr] using this

theorem link_file_listed (h : P.disk.nodeAt real name = some (.link (.found target false)))
    (hr : P.rootReal <:+ target) : P.disk.fileAt target := by
  have := link_resolves h
  rw [← isSuffixOf_iff_suffix] at hr
  simpa [Disk.resolves, hr] using this

/-- `canonicalize` of a path below the root: links are followed as they come. -/
def realPath (P : Project) : FsPath → Option FsPath
  | [] => some P.rootReal
  | name :: up =>
    (P.realPath up).bind fun real =>
      match P.disk.nodeAt real name with
      | some .file | some .dir => some (name :: real)
      | some (.link (.found target _)) => some target
      | some (.link (.missing _)) | none => none

/-- A directory with no link on its path that is neither ignored nor excluded. -/
inductive PlainDir (P : Project) : FsPath → Prop
  | root : PlainDir P []
  | child {name : String} {up : FsPath} (hup : PlainDir P up)
      (hdir : P.disk.nodeAt (up ++ P.rootReal) name = some .dir)
      (hignored : P.ignored (name :: up) = false) (hexcluded : name ∉ P.excluded) : PlainDir P (name :: up)

def PlainFile (P : Project) : FsPath → Prop
  | [] => False
  | name :: up => P.PlainDir up ∧ P.disk.nodeAt (up ++ P.rootReal) name = some .file ∧
      P.ignored (name :: up) = false

end Project

structure FollowedLink where
  path : FsPath
  real : FsPath
  deriving DecidableEq, Repr

abbrev FollowedTable := KeyedTable FollowedLink.path

/-- A directory the walk entered: the first spelling, and the one with no followed link above it. -/
structure Entered where
  real : FsPath
  first : FsPath
  plain : Option FsPath
  deriving DecidableEq, Repr

abbrev EnteredTable := KeyedTable Entered.real

def Entered.reached (entered : Entered) (path : FsPath) (viaLink : Bool) : Entered :=
  if !viaLink && entered.plain.isNone then { entered with plain := some path } else entered

inductive LinkRefusal where
  | dangling
  | outsideRoot
  | excludedTarget
  deriving DecidableEq, Repr

inductive Verdict where
  | followedDir (real : FsPath)
  | followedFile (real : FsPath)
  | alreadyEntered (real : FsPath)
  | refused (why : LinkRefusal) (real : Option FsPath)
  deriving DecidableEq, Repr

def Verdict.real : Verdict → Option FsPath
  | .followedDir real | .followedFile real | .alreadyEntered real => some real
  | .refused _ real => real

structure Judged where
  path : FsPath
  isDir : Bool
  verdict : Verdict
  deriving DecidableEq, Repr

structure GuardState where
  followed : FollowedTable
  entered : EnteredTable
  judged : List Judged

inductive LinkOutcome where
  | aliases (plain : FsPath)
  | followed
  | duplicate (first : FsPath)
  | refused (why : LinkRefusal)
  deriving DecidableEq, Repr

structure Link where
  path : FsPath
  real : Option FsPath
  isDir : Bool
  outcome : LinkOutcome
  deriving DecidableEq, Repr

structure WalkedEntry where
  relative : FsPath
  realRelative : Option FsPath
  deriving DecidableEq, Repr

structure Walk where
  files : List WalkedEntry
  links : List Link
  deriving DecidableEq, Repr

structure DirWalk where
  dirs : List WalkedEntry
  links : List Link
  deriving DecidableEq, Repr

structure Winner where
  real : FsPath
  index : Nat
  viaLink : Bool
  deriving DecidableEq, Repr

abbrev WinnerTable := KeyedTable Winner.real

/-- One file offered to the winners: the first spelling holds until one with no followed link comes. -/
def WinnerTable.offer (winners : WinnerTable) (real : FsPath) (viaLink : Bool) (index : Nat) : WinnerTable :=
  match winners.find? real with
  | some winner => if winner.viaLink && !viaLink then winners.put ⟨real, index, viaLink⟩ else winners
  | none => winners.put ⟨real, index, viaLink⟩

namespace GuardState

variable (guard : GuardState)

def note (judged : Judged) : GuardState :=
  { guard with judged := guard.judged ++ [judged] }

/-- What became of a judged link; a file link whose file was not kept is left out. -/
def outcome (walked : List FsPath) (winners : WinnerTable) (judged : Judged) :
    Option LinkOutcome :=
  match judged.verdict with
  | .refused why _ => some (.refused why)
  | .followedDir real | .alreadyEntered real =>
    match guard.entered.find? real with
    | some entered =>
      match entered.plain with
      | some plain => some (.aliases plain)
      | none => if entered.first ≠ judged.path then some (.duplicate entered.first) else some .followed
    | none => some .followed
  | .followedFile real =>
    (winners.find? real).map fun winner =>
      let path := walked.getD winner.index []
      if path = judged.path then .followed
      else if winner.viaLink then .duplicate path
      else .aliases path

def links (walked : List FsPath) (winners : WinnerTable) : List Link :=
  guard.judged.filterMap fun judged =>
    (guard.outcome walked winners judged).map fun outcome =>
      ⟨judged.path, judged.verdict.real, judged.isDir, outcome⟩

end GuardState

namespace Project

variable (P : Project)

/-- `path`'s real path, and whether a followed link is above it (or is it). -/
def realOf (followed : FollowedTable) : FsPath → FsPath × Bool
  | [] => (P.rootReal, false)
  | name :: up =>
    match followed.find? (name :: up) with
    | some link => (link.real, true)
    | none => (name :: (realOf followed up).1, (realOf followed up).2)

def realRelativeOf (real : FsPath) (viaLink : Bool) : Option FsPath :=
  if viaLink then real.dropSuffix? P.rootReal else none

def guardStart : GuardState where
  followed := ∅
  entered := KeyedTable.put ∅ ⟨P.rootReal, [], some []⟩
  judged := []

variable (guard : GuardState)

def enteredDir (path : FsPath) : GuardState :=
  let real := P.realOf guard.followed path
  let entered := (guard.entered.find? real.1).getD ⟨real.1, path, none⟩
  { guard with entered := guard.entered.put (entered.reached path real.2) }

def judge : LinkTarget → Verdict
  | .missing _ => .refused .dangling none
  | .found real isDir =>
    match real.dropSuffix? P.rootReal with
    | none => .refused .outsideRoot (some real)
    | some below =>
      if below.any (fun name => decide (name ∈ P.excluded)) then .refused .excludedTarget (some real)
      else if !isDir then .followedFile real
      else if guard.entered.contains real then .alreadyEntered real
      else .followedDir real

/-- The verdict on the link at `path`, and the guard that has taken it in. -/
def admitLink (path : FsPath) (isDir : Bool) (target : LinkTarget) : GuardState × Verdict :=
  let verdict := P.judge guard target
  let guard :=
    match verdict with
    | .followedDir real =>
      { guard with
        followed := guard.followed.put ⟨path, real⟩
        entered := guard.entered.put ⟨real, path, none⟩ }
    | .followedFile real => { guard with followed := guard.followed.put ⟨path, real⟩ }
    | .alreadyEntered _ | .refused _ _ => guard
  (guard.note ⟨path, isDir, verdict⟩, verdict)

def winners (followed : FollowedTable) (walked : List FsPath) : WinnerTable :=
  walked.zipIdx.foldl
    (fun winners walkedAt => winners.offer (P.realOf followed walkedAt.1).1 (P.realOf followed walkedAt.1).2 walkedAt.2) ∅

def sharingAFileLink (walked : List FsPath) : List FsPath :=
  let targets := guard.judged.filterMap fun judged =>
    match judged.verdict with
    | .followedFile real => some real
    | _ => none
  walked.filter fun path => decide ((P.realOf guard.followed path).1 ∈ targets)

def entryOf (followed : FollowedTable) (path : FsPath) : WalkedEntry :=
  ⟨path, P.realRelativeOf (P.realOf followed path).1 (P.realOf followed path).2⟩

/-- The winner pass: one spelling per real file, then every judged link's outcome. -/
def finish (walked : List FsPath) : Walk :=
  let winners := P.winners guard.followed walked
  { files := (walked.zipIdx.filter fun walkedAt => winners.rows.any fun winner => winner.index = walkedAt.2).map
      fun walkedAt => P.entryOf guard.followed walkedAt.1
    links := guard.links walked winners }

end Project

structure WalkState where
  guard : GuardState
  files : List FsPath
  dirs : List WalkedEntry

namespace WalkState

def yieldFile (st : WalkState) (path : FsPath) : WalkState := { st with files := st.files ++ [path] }

def note (st : WalkState) (judged : Judged) : WalkState := { st with guard := st.guard.note judged }

end WalkState

namespace Project

variable (P : Project)

def yieldDir (st : WalkState) (path : FsPath) : WalkState :=
  { st with dirs := st.dirs ++ [P.entryOf st.guard.followed path] }

/-- The iterator meets the entry `name` of the directory `real`, which it is in under `dir`, inside the real paths
`above`, and may go into a directory next. A dangling link and one to an ancestor fail before the ignore rules. -/
def meet (dir real : FsPath) (above : List FsPath) (st : WalkState) (name : String) :
    FsNode → WalkState × Option FsPath
  | .file => (if P.ignored (name :: dir) then st else st.yieldFile (name :: dir), none)
  | .dir =>
    if P.ignored (name :: dir) || decide (name ∈ P.excluded) then (st, none)
    else
      (P.yieldDir { st with guard := P.enteredDir st.guard (name :: dir) } (name :: dir), some (name :: real))
  | .link (.missing _) => (st.note ⟨name :: dir, false, .refused .dangling none⟩, none)
  | .link (.found target isDir) =>
    if isDir && above.contains target then (st.note ⟨name :: dir, true, .alreadyEntered target⟩, none)
    else if P.ignored (name :: dir) || (isDir && decide (name ∈ P.excluded)) then (st, none)
    else
      let admitted := P.admitLink st.guard (name :: dir) isDir (.found target isDir)
      match admitted.2 with
      | .followedDir _ => (P.yieldDir { st with guard := admitted.1 } (name :: dir), some target)
      | .followedFile _ => ({ st with guard := admitted.1 }.yieldFile (name :: dir), none)
      | .alreadyEntered _ | .refused _ _ => ({ st with guard := admitted.1 }, none)

/-- Every entry of the directory `real`, in name order, each directory gone into before the next. -/
def visitDir : (fuel : Nat) → (dir real : FsPath) → (above : List FsPath) → WalkState → Option WalkState
  | 0, _, _, _, _ => none
  | fuel + 1, dir, real, above, st =>
    (P.disk.entriesAt real).foldlM
      (fun st entry =>
        match P.meet dir real above st entry.1 entry.2 with
        | (st, none) => some st
        | (st, some sub) => visitDir fuel (entry.1 :: dir) sub (sub :: above) st)
      st

def walkStart : WalkState := P.yieldDir ⟨P.guardStart, [], []⟩ []

def height : Nat := (P.disk.rows.map (·.real.length)).foldr max 0 + 1

/-- Deeper than any walk goes: `visitDir_ends`. -/
def walkFuel : Nat := P.disk.rows.length * P.height + P.height + 1

def runWalker : Option WalkState := P.visitDir P.walkFuel [] P.rootReal [P.rootReal] P.walkStart

def walkFiltered (keep : FsPath → Bool) : Option Walk :=
  P.runWalker.map fun st => P.finish st.guard (st.files.filter keep)

def walk : Option Walk := P.walkFiltered fun _ => true

def walkDirs : Option DirWalk :=
  P.runWalker.map fun st =>
    let files := P.sharingAFileLink st.guard st.files
    { dirs := st.dirs
      links := st.guard.links files (P.winners st.guard.followed files) }

end Project

namespace WalkState

def followDir (st : WalkState) (path real : FsPath) : WalkState :=
  { st with
    guard :=
      { st.guard with
        followed := st.guard.followed.put ⟨path, real⟩
        entered := st.guard.entered.put ⟨real, path, none⟩ }.note ⟨path, true, .followedDir real⟩ }

def followFile (st : WalkState) (path real : FsPath) : WalkState :=
  { st with
    guard :=
      { st.guard with followed := st.guard.followed.put ⟨path, real⟩ }.note ⟨path, false, .followedFile real⟩ }

end WalkState

namespace Project

variable {P : Project}

/-- Below the root's real path, with no excluded name on the way. -/
def Clean (P : Project) (real : FsPath) : Prop :=
  ∃ below, real = below ++ P.rootReal ∧ ∀ name ∈ below, name ∉ P.excluded

inductive Met (P : Project) (dir real : FsPath) (above : List FsPath) (st : WalkState) (name : String) :
    FsNode → WalkState → Option FsPath → Prop
  | ignored {node : FsNode} (h : P.ignored (name :: dir) = true) : Met P dir real above st name node st none
  | excluded {node : FsNode} (h : name ∈ P.excluded) (hf : node ≠ .file) : Met P dir real above st name node st none
  | file (h : P.ignored (name :: dir) = false) :
      Met P dir real above st name .file (st.yieldFile (name :: dir)) none
  | dir (h : P.ignored (name :: dir) = false) (hex : name ∉ P.excluded) :
      Met P dir real above st name .dir
        (P.yieldDir { st with guard := P.enteredDir st.guard (name :: dir) } (name :: dir)) (some (name :: real))
  | dangling {named : Option FsPath} :
      Met P dir real above st name (.link (.missing named))
        (st.note ⟨name :: dir, false, .refused .dangling none⟩) none
  | ancestor {target : FsPath} (h : target ∈ above) :
      Met P dir real above st name (.link (.found target true))
        (st.note ⟨name :: dir, true, .alreadyEntered target⟩) none
  | entered {target : FsPath} (h : st.guard.entered.contains target = true) :
      Met P dir real above st name (.link (.found target true))
        (st.note ⟨name :: dir, true, .alreadyEntered target⟩) none
  | refused {target : FsPath} {isDir : Bool} {why : LinkRefusal} (h : why ≠ .dangling) :
      Met P dir real above st name (.link (.found target isDir))
        (st.note ⟨name :: dir, isDir, .refused why (some target)⟩) none
  | followDir {target : FsPath} (hclean : P.Clean target) (hnew : st.guard.entered.contains target = false) :
      Met P dir real above st name (.link (.found target true))
        (P.yieldDir (st.followDir (name :: dir) target) (name :: dir)) (some target)
  | followFile {target : FsPath} (hclean : P.Clean target) :
      Met P dir real above st name (.link (.found target false))
        ((st.followFile (name :: dir) target).yieldFile (name :: dir)) none

theorem clean_of_judge {below : FsPath} (h : target.dropSuffix? P.rootReal = some below)
    (hany : ¬ (below.any fun name => decide (name ∈ P.excluded))) : P.Clean target := by
  obtain ⟨root, rfl, hroot⟩ := dropSuffix?_eq_some_iff.mp h
  rw [eq_of_beq hroot]
  refine ⟨below, rfl, fun name hname hex => hany ?_⟩
  exact any_eq_true.mpr ⟨name, hname, decide_eq_true hex⟩

theorem judge_found (P : Project) (guard : GuardState) (target : FsPath) (isDir : Bool) :
    (∃ why, why ≠ .dangling ∧ P.judge guard (.found target isDir) = .refused why (some target)) ∨
      P.Clean target ∧ P.judge guard (.found target isDir) =
        if !isDir then .followedFile target
        else if guard.entered.contains target then .alreadyEntered target
        else .followedDir target := by
  cases hd : target.dropSuffix? P.rootReal with
  | none => exact .inl ⟨.outsideRoot, nofun, by simp only [judge, hd]⟩
  | some below =>
    by_cases hany : (below.any fun name => decide (name ∈ P.excluded))
    · exact .inl ⟨.excludedTarget, nofun, by simp only [judge, hd, if_pos hany]⟩
    · exact .inr ⟨clean_of_judge hd hany, by simp only [judge, hd, if_neg hany]⟩

theorem meet_link_met (dir real : FsPath) (above : List FsPath) (st : WalkState) (name : String) (target : FsPath)
    (isDir : Bool) :
    Met P dir real above st name (.link (.found target isDir))
      (P.meet dir real above st name (.link (.found target isDir))).1
      (P.meet dir real above st name (.link (.found target isDir))).2 := by
  simp only [meet]
  split
  · next ha =>
    obtain ⟨rfl, ht⟩ := Bool.and_eq_true_iff.mp ha
    exact .ancestor (contains_iff_mem.mp ht)
  split
  · next hskip =>
    rcases (Bool.or_eq_true _ _).mp hskip with hi | hex
    · exact .ignored hi
    · exact .excluded (of_decide_eq_true (Bool.and_eq_true_iff.mp hex).2) nofun
  rcases P.judge_found st.guard target isDir with ⟨why, hw, hj⟩ | ⟨hc, hj⟩
  · simp only [admitLink, hj]
    exact .refused hw
  cases isDir with
  | false =>
    simp only [admitLink, hj, Bool.not_false, if_true]
    exact .followFile hc
  | true =>
    by_cases hent : st.guard.entered.contains target
    · simp only [admitLink, hj, hent, Bool.not_true, Bool.false_eq_true, if_false, if_true]
      exact .entered hent
    · simp only [admitLink, hj, hent, Bool.not_true, Bool.false_eq_true, if_false]
      exact .followDir hc (by simpa using hent)

theorem meet_met (dir real : FsPath) (above : List FsPath) (st : WalkState) (name : String) (node : FsNode) :
    Met P dir real above st name node (P.meet dir real above st name node).1
      (P.meet dir real above st name node).2 := by
  cases node with
  | file =>
    simp only [meet]
    split
    · next hi => exact .ignored hi
    · next hi => exact .file (by simpa using hi)
  | dir =>
    simp only [meet]
    split
    · next hskip =>
      rcases (Bool.or_eq_true _ _).mp hskip with hi | hex
      · exact .ignored hi
      · exact .excluded (of_decide_eq_true hex) nofun
    · next hskip =>
      simp only [Bool.or_eq_true, decide_eq_true_eq, not_or, Bool.not_eq_true] at hskip
      exact .dir hskip.1 hskip.2
  | link target =>
    cases target with
    | missing named => exact .dangling
    | found target isDir => exact meet_link_met dir real above st name target isDir

/-- What walking one directory does: each entry is met, and a directory gone into is walked whole. -/
inductive Runs (P : Project) : FsPath → FsPath → List FsPath → List (String × FsNode) → WalkState → WalkState → Prop
  | nil {dir real : FsPath} {above : List FsPath} {st : WalkState} : Runs P dir real above [] st st
  | flat {dir real : FsPath} {above : List FsPath} {name : String} {node : FsNode} {rest : List (String × FsNode)}
      {st s st' : WalkState} (hnode : P.disk.nodeAt real name = some node)
      (hmet : Met P dir real above st name node s none) (hrest : Runs P dir real above rest s st') :
      Runs P dir real above ((name, node) :: rest) st st'
  | deep {dir real sub : FsPath} {above : List FsPath} {name : String} {node : FsNode}
      {rest : List (String × FsNode)} {st s s' st' : WalkState} (hnode : P.disk.nodeAt real name = some node)
      (hmet : Met P dir real above st name node s (some sub))
      (hsub : Runs P (name :: dir) sub (sub :: above) (P.disk.entriesAt sub) s s')
      (hrest : Runs P dir real above rest s' st') : Runs P dir real above ((name, node) :: rest) st st'

variable {dir real path : FsPath} {above : List FsPath} {st : WalkState}

/-- A walk of a directory that ends is a run over its entries. -/
theorem visitDir_runs {fuel : Nat} {st' : WalkState} (h : P.visitDir fuel dir real above st = some st') :
    Runs P dir real above (P.disk.entriesAt real) st st' := by
  induction fuel generalizing dir real above st st' with
  | zero => simp [visitDir] at h
  | succ fuel ih =>
    rw [visitDir] at h
    have hall : ∀ e ∈ P.disk.entriesAt real, P.disk.nodeAt real e.1 = some e.2 := fun e he => nodeAt_eq_some.mpr he
    generalize P.disk.entriesAt real = entries at h hall
    induction entries generalizing st with
    | nil =>
      simp only [foldlM_nil, Option.pure_def, Option.some.injEq] at h
      exact h ▸ .nil
    | cons entry _ ihrest =>
      obtain ⟨name, node⟩ := entry
      obtain ⟨hnode, hrest⟩ := forall_mem_cons.mp hall
      have hmet := meet_met (P := P) dir real above st name node
      rw [foldlM_cons, Option.bind_eq_bind, Option.bind_eq_some_iff] at h
      obtain ⟨s', hs', h⟩ := h
      generalize P.meet dir real above st name node = met at hs' hmet
      obtain ⟨s, sub⟩ := met
      cases sub with
      | none => exact .flat hnode (Option.some.inj hs' ▸ hmet) (ihrest h hrest)
      | some sub => exact .deep hnode hmet (ih hs') (ihrest h hrest)

theorem enteredDir_contains {guard : GuardState} {r : FsPath} (h : guard.entered.contains r) :
    (P.enteredDir guard path).entered.contains r := by
  simp only [KeyedTable.contains, enteredDir, find?_put] at h ⊢
  split
  · rfl
  · exact h

variable {s : WalkState} {name : String} {node : FsNode}

theorem Met.contains {sub : Option FsPath}
    (h : Met P dir real above st name node s sub) {r : FsPath} (hr : st.guard.entered.contains r) :
    s.guard.entered.contains r := by
  cases h with
  | dir => exact enteredDir_contains hr
  | followDir =>
    simp only [yieldDir, WalkState.followDir, GuardState.note, KeyedTable.contains, find?_put] at hr ⊢
    split
    · rfl
    · exact hr
  | _ => exact hr

def unentered (P : Project) (st : WalkState) : Nat :=
  P.disk.rows.countP fun d => !st.guard.entered.contains d.real

theorem unentered_le (h : ∀ r, st.guard.entered.contains r → s.guard.entered.contains r) :
    P.unentered s ≤ P.unentered st := by
  refine countP_mono_left fun d _ hd => ?_
  by_contra hc
  rw [h _ (by simpa using hc)] at hd
  exact absurd hd (by simp)

theorem unentered_followDir (hl : P.disk.contains target)
    (hnew : st.guard.entered.contains target = false) :
    P.unentered (P.yieldDir (st.followDir path target) path) < P.unentered st := by
  obtain ⟨d, hd, rfl⟩ := contains_iff.mp hl
  have hput : ∀ r, (P.yieldDir (st.followDir path d.real) path).guard.entered.contains r =
      (decide (d.real = r) || st.guard.entered.contains r) := by
    intro r
    simp only [yieldDir, WalkState.followDir, GuardState.note, KeyedTable.contains, find?_put]
    split <;> simp_all
  refine countP_lt (a := d) (fun e _ he => ?_) hd (by simp [hnew]) (by simp [hput])
  rw [hput] at he
  simp at he
  simp [he]

theorem length_lt_height (h : P.disk.contains real) : real.length < P.height := by
  obtain ⟨d, hd, rfl⟩ := contains_iff.mp h
  have hle : ∀ l : List Nat, d.real.length ∈ l → d.real.length ≤ l.foldr max 0 := by
    intro l hl
    induction l with
    | nil => simp at hl
    | cons _ _ ih =>
      rcases mem_cons.mp hl with rfl | hl
      · exact Nat.le_max_left _ _
      · exact Nat.le_trans (ih hl) (Nat.le_max_right _ _)
  exact Nat.lt_succ_of_le (hle _ (mem_map_of_mem hd))

theorem Met.fuel {sub : FsPath} (h : Met P dir real above st name node s (some sub))
    (hnode : P.disk.nodeAt real name = some node) :
    P.disk.contains sub ∧
      P.unentered s * P.height + (P.height - sub.length) < P.unentered st * P.height + (P.height - real.length) := by
  have hlen := length_lt_height (nodeAt_listed hnode)
  cases h with
  | dir hi hex =>
    have hl := dir_listed hnode
    have hsub := length_lt_height hl
    have hle : P.unentered (P.yieldDir { st with guard := P.enteredDir st.guard (name :: dir) } (name :: dir)) ≤
        P.unentered st := unentered_le fun r hr => enteredDir_contains hr
    have hmul := Nat.mul_le_mul_right P.height hle
    rw [length_cons] at hsub ⊢
    exact ⟨hl, by omega⟩
  | followDir hclean hnew =>
    obtain ⟨below, hb, _⟩ := hclean
    have hl := link_dir_listed hnode ⟨below, hb.symm⟩
    have hlt : P.unentered (P.yieldDir (st.followDir (name :: dir) sub) (name :: dir)) + 1 ≤ P.unentered st :=
      unentered_followDir hl hnew
    have hmul := Nat.mul_le_mul_right P.height hlt
    rw [Nat.add_mul, Nat.one_mul] at hmul
    exact ⟨hl, by omega⟩

/-- Fuel for the directories not entered yet is enough for the walk to end. -/
theorem visitDir_ends (fuel : Nat) (dir real : FsPath) (above : List FsPath) (st : WalkState)
    (hl : P.disk.contains real)
    (hfuel : P.unentered st * P.height + (P.height - real.length) < fuel) :
    ∃ st', P.visitDir fuel dir real above st = some st' ∧ P.unentered st' ≤ P.unentered st := by
  induction fuel generalizing dir real above st with
  | zero => omega
  | succ fuel ih =>
    rw [visitDir]
    have hall : ∀ e ∈ P.disk.entriesAt real, P.disk.nodeAt real e.1 = some e.2 := fun e he => nodeAt_eq_some.mpr he
    generalize P.disk.entriesAt real = entries at hall
    induction entries generalizing st with
    | nil => exact ⟨st, rfl, Nat.le_refl _⟩
    | cons entry _ ihrest =>
      obtain ⟨name, node⟩ := entry
      obtain ⟨hnode, hrest⟩ := forall_mem_cons.mp hall
      have hmet := meet_met (P := P) dir real above st name node
      rw [foldlM_cons]
      generalize P.meet dir real above st name node = met at hmet
      obtain ⟨s, sub⟩ := met
      have hs : P.unentered s ≤ P.unentered st := unentered_le fun r hr => hmet.contains hr
      have hmul := Nat.mul_le_mul_right P.height hs
      cases sub with
      | none =>
        obtain ⟨st', hst', hle⟩ := ihrest s (by omega) hrest
        exact ⟨st', hst', Nat.le_trans hle hs⟩
      | some sub =>
        obtain ⟨hlsub, hlt⟩ := hmet.fuel hnode
        obtain ⟨s', hs', hle'⟩ := ih (name :: dir) sub (sub :: above) s hlsub (by dsimp only at hlt; omega)
        have hmul' := Nat.mul_le_mul_right P.height hle'
        obtain ⟨st', hst', hle⟩ := ihrest s' (by omega) hrest
        refine ⟨st', ?_, by omega⟩
        rw [Option.bind_eq_bind, Option.bind_eq_some_iff]
        exact ⟨s', hs', hst'⟩

theorem runWalker_ends (P : Project) : ∃ st, P.runWalker = some st := by
  have hle : P.unentered P.walkStart ≤ P.disk.rows.length := countP_le_length
  have hmul := Nat.mul_le_mul_right P.height hle
  obtain ⟨st, hst, _⟩ := visitDir_ends P.walkFuel [] P.rootReal [P.rootReal] P.walkStart P.root_listed
    (by unfold walkFuel; omega)
  exact ⟨st, hst⟩

end Project

end GMesh
