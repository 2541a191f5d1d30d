import GMesh.PythonProject
import Mathlib.Data.List.MinMax
import Mathlib.Data.List.Sort

namespace GMesh

open List

def excludedDirs : List WireText :=
  [".venv", "venv", "__pycache__", ".tox", ".mypy_cache", "site-packages", "node_modules", ".git", ".claude"].map
    String.toList

def pathIsExcluded (path : WireText) : Bool :=
  (rsplitOnce '/' path).any fun parts => (parts.1.splitOn '/').any excludedDirs.contains

def claimsPath (path : WireText) : Bool :=
  [".py".toList, ".pyi".toList].any (fileExtension path == some ·) && !pathIsExcluded path

def rootDepth (dir : WireText) : Nat := if dir.isEmpty then 0 else dir.count '/' + 1

def hasSrcLayout (paths : List WireText) : Bool := paths.any "src/".toList.isPrefixOf

/-- The roots of a project, deepest first. Its files are read only when none is declared. -/
def resolveRoots (declared paths : List WireText) : List WireText :=
  (if declared ≠ [] then declared else if hasSrcLayout paths then ["src".toList] else [[]]).insertionSort
    fun a b => rootDepth b < rootDepth a ∨ rootDepth b = rootDepth a ∧ a ≤ b

/-- The note of an `__init__` file directly under its root, which it names. -/
def initNote (path root : WireText) : Option WireText :=
  let segments := (relativeTo root path).splitOn '/'
  if segments.dropLast = [] ∧ fileStem (segments.getLast?.getD []) = "__init__".toList then some root else none

def place (roots : List WireText) (path : WireText) : ContainerInfo := (PyProject.mk roots []).containerFor path

def placeNote (roots : List WireText) (path : WireText) : Option WireText :=
  (owningRoot roots path).bind (initNote path)

/-- The model of a project that presence events keep current. A container counts the files that provide it. -/
structure ProjectContext where
  declaredRoots : List WireText
  roots : List WireText := []
  files : KeyedTable (Prod.fst : WireText × ContainerInfo → WireText) := ∅
  containers : WireText → Nat := fun _ => 0
  fileNotes : WireText → Option WireText := fun _ => none

namespace ProjectContext

section Model

variable (c : ProjectContext) (path : WireText)

def insert : ProjectContext :=
  { c with
    containers := fun key => c.containers key + (keyPrefixes (place c.roots path)).count key
    fileNotes := fun p => if p = path then (placeNote c.roots p).or (c.fileNotes p) else c.fileNotes p
    files := c.files.put (path, place c.roots path) }

def remove : Option ProjectContext :=
  (c.files.find? path).map fun entry =>
    { c with
      containers := fun key => c.containers key - (keyPrefixes entry.2).count key
      fileNotes := fun p => if p = path then none else c.fileNotes p
      files := c.files.erase path }

def rebuild (paths : List WireText) : ProjectContext :=
  paths.foldl insert { declaredRoots := c.declaredRoots, roots := resolveRoots c.declaredRoots paths }

def paths : List WireText := c.files.rows.map Prod.fst

def underSrc : Option WireText := (c.paths.filter fun p => !decide (p < "src/".toList)).argmin id

/-- Without declared roots, a file set that moves the roots is keyed again. -/
def reroot : ProjectContext :=
  if c.declaredRoots = [] ∧ resolveRoots [] c.underSrc.toList ≠ c.roots then c.rebuild c.paths else c

def filePresenceChanged (event : WireText × Bool) : ProjectContext :=
  if claimsPath event.1 then
    if event.2 then if c.files.contains event.1 then c else (c.insert event.1).reroot
    else (c.remove event.1).elim c reroot
  else c

end Model

def load (declared paths : List WireText) : ProjectContext := rebuild { declaredRoots := declared } paths

def presence (paths : List WireText) (event : WireText × Bool) : List WireText :=
  if claimsPath event.1 then if event.2 then paths.insert event.1 else paths.erase event.1 else paths

/-- Two models with the same roots, files, counted containers and notes. -/
structure Same (c d : ProjectContext) : Prop where
  roots : c.roots = d.roots
  files : ∀ path, c.files.find? path = d.files.find? path
  containers : c.containers = d.containers
  fileNotes : c.fileNotes = d.fileNotes

variable {c : ProjectContext} {declared roots paths order : List WireText} {path : WireText}

/-- Every file is keyed against the roots, and every container counts the files that provide it. -/
structure Keyed (declared roots paths : List WireText) (c : ProjectContext) : Prop where
  declares : c.declaredRoots = declared
  rooted : c.roots = roots
  nodup : paths.Nodup
  files : ∀ p, c.files.find? p = if p ∈ paths then some (p, place roots p) else none
  containers : ∀ key, c.containers key = (paths.flatMap fun p => keyPrefixes (place roots p)).count key
  fileNotes : ∀ p, c.fileNotes p = if p ∈ paths then placeNote roots p else none

namespace Keyed

variable (h : Keyed declared roots paths c)

include h

theorem perm (hp : order.Perm paths) : Keyed declared roots order c where
  declares := h.declares
  rooted := h.rooted
  nodup := hp.nodup_iff.mpr h.nodup
  files p := by simp only [h.files p, hp.mem_iff]
  containers key := by rw [h.containers key, (hp.flatMap_right _).count_eq]
  fileNotes p := by simp only [h.fileNotes p, hp.mem_iff]

theorem added (hn : path ∉ paths) : Keyed declared roots (path :: paths) (c.insert path) := by
  obtain ⟨hd, rfl, hnodup, hf, hc, ht⟩ := h
  refine ⟨hd, rfl, nodup_cons.mpr ⟨hn, hnodup⟩, fun p => ?_, fun key => ?_, fun p => ?_⟩
  · by_cases hp : p = path
    · simp [insert, hp]
    · simp [insert, hp, Ne.symm hp, hf]
  · rw [flatMap_cons, count_append, Nat.add_comm, ← hc]
    rfl
  · by_cases hp : p = path
    · simp [insert, hp, ht, hn]
    · simp [insert, hp, ht]

theorem removed (hm : path ∈ paths) : ∃ d, c.remove path = some d ∧ Keyed declared roots (paths.erase path) d := by
  have hfind := h.files path
  rw [if_pos hm] at hfind
  refine ⟨_, congrArg (Option.map _) hfind, h.declares, h.rooted, h.nodup.erase _, fun p => ?_, fun key => ?_,
    fun p => ?_⟩
  · by_cases hp : p = path
    · simp [hp, h.nodup.not_mem_erase]
    · simp [hp, mem_erase_of_ne hp, h.files]
  · change c.containers key - _ = _
    rw [h.containers, ((perm_cons_erase hm).flatMap_right _).count_eq, flatMap_cons, count_append]
    exact Nat.add_sub_cancel_left _ _
  · by_cases hp : p = path
    · simp [hp, h.nodup.not_mem_erase]
    · simp [hp, mem_erase_of_ne hp, h.fileNotes]

theorem foldl_insert (hn : (order ++ paths).Nodup) : Keyed declared roots (order ++ paths) (order.foldl insert c) := by
  induction order generalizing c paths with
  | nil => exact h
  | cons path _ ih =>
    have hm : path ∉ paths := fun hm => (nodup_cons.mp hn).1 (mem_append_right _ hm)
    exact (ih (h.added hm) (perm_middle.nodup_iff.mpr hn)).perm perm_middle.symm

theorem paths_perm : c.paths.Perm paths := by
  refine (perm_ext_iff_of_nodup c.files.nodup h.nodup).mpr fun path => ?_
  refine mem_map.trans (KeyedTable.contains_iff.symm.trans ?_)
  rw [KeyedTable.contains, h.files path]
  by_cases hm : path ∈ paths <;> simp [hm]

end Keyed

/-- The files are keyed against the roots that they have. -/
abbrev Current (declared paths : List WireText) (c : ProjectContext) : Prop :=
  Keyed declared (resolveRoots declared paths) paths c

theorem rebuild_current (hd : c.declaredRoots = declared) (hn : paths.Nodup) :
    Current declared paths (c.rebuild paths) := by
  subst hd
  have he : Keyed _ _ [] { declaredRoots := c.declaredRoots, roots := resolveRoots c.declaredRoots paths } :=
    ⟨rfl, rfl, nodup_nil, fun _ => rfl, fun _ => rfl, fun _ => rfl⟩
  have h := he.foldl_insert (by rwa [append_nil])
  rwa [append_nil] at h

theorem resolveRoots_congr (h : declared = [] → hasSrcLayout order = hasSrcLayout paths) :
    resolveRoots declared order = resolveRoots declared paths := by
  unfold resolveRoots
  by_cases hd : declared = []
  · rw [h hd]
  · rw [if_pos hd, if_pos hd]

theorem isPrefix_of_between {bound first last : WireText} (hp : bound <+: last) (hb : ¬first < bound)
    (hf : ¬last < first) : bound <+: first := by
  induction bound generalizing first last with
  | nil => exact nil_prefix
  | cons a bound ih =>
    obtain ⟨rest, rfl⟩ := hp
    cases first with
    | nil => exact absurd (nil_lt_cons a bound) hb
    | cons b first =>
      rw [cons_append, cons_lt_cons_iff, not_or] at hf
      rw [cons_lt_cons_iff, not_or] at hb
      obtain rfl : a = b := le_antisymm (not_lt.mp hb.1) (not_lt.mp hf.1)
      have hp := ih ⟨rest, rfl⟩ (fun h => hb.2 ⟨rfl, h⟩) fun h => hf.2 ⟨rfl, h⟩
      exact (prefix_cons_inj _).mpr hp

theorem hasSrcLayout_underSrc (c : ProjectContext) : hasSrcLayout c.underSrc.toList = hasSrcLayout c.paths := by
  rw [Bool.eq_iff_iff]
  simp only [hasSrcLayout, any_eq_true, isPrefixOf_iff_prefix, Option.mem_toList]
  constructor
  · rintro ⟨first, hf, hp⟩
    exact ⟨first, (mem_filter.mp (argmin_mem hf)).1, hp⟩
  · rintro ⟨last, hl, hp⟩
    have hle : ¬last < "src/".toList := by
      obtain ⟨rest, rfl⟩ := hp
      exact le_append_left
    have hm := mem_filter (p := fun p => !decide (p < "src/".toList)).mpr ⟨hl, by simpa using hle⟩
    cases hu : c.underSrc with
    | none =>
      rw [underSrc, argmin_eq_none] at hu
      rw [hu] at hm
      cases hm
    | some first =>
      have hfirst := (mem_filter.mp (argmin_mem hu)).2
      exact ⟨first, rfl, isPrefix_of_between hp (by simpa using hfirst) (not_lt_of_mem_argmin hm hu)⟩

theorem Keyed.reroot (h : Keyed declared roots order c)
    (hr : declared ≠ [] → roots = resolveRoots declared order) : Current declared order c.reroot := by
  have hp := h.paths_perm
  have hroots : resolveRoots [] c.underSrc.toList = resolveRoots [] order :=
    resolveRoots_congr fun _ => (hasSrcLayout_underSrc c).trans hp.any_eq
  rw [ProjectContext.reroot, h.declares, hroots, h.rooted]
  split
  next =>
    have hk := (rebuild_current h.declares (show c.paths.Nodup from c.files.nodup)).perm hp.symm
    rwa [resolveRoots_congr fun _ => hp.any_eq] at hk
  next hsame =>
    by_cases hd : declared = []
    · subst hd
      rwa [Current, not_not.mp (not_and.mp hsame rfl)]
    · rwa [Current, ← hr hd]

/-- A presence event keeps the model current. -/
theorem Current.step (h : Current declared paths c) (event : WireText × Bool) :
    Current declared (presence paths event) (c.filePresenceChanged event) := by
  obtain ⟨path, present⟩ := event
  have hfind := h.files path
  have hroots : ∀ order, declared ≠ [] → resolveRoots declared paths = resolveRoots declared order :=
    fun _ hne => resolveRoots_congr fun hd => absurd hd hne
  unfold filePresenceChanged presence
  split
  next =>
    cases present
    · by_cases hm : path ∈ paths
      · obtain ⟨d, he, hk⟩ := h.removed hm
        simpa [he] using hk.reroot (hroots _)
      · simpa [remove, hfind, hm, erase_of_not_mem hm] using h
    · by_cases hm : path ∈ paths
      · simpa [KeyedTable.contains, hfind, hm] using h
      · simpa [KeyedTable.contains, hfind, hm] using (h.added hm).reroot (hroots _)
  next => exact h

theorem Current.run (h : Current declared paths c) (events : List (WireText × Bool)) :
    Current declared (events.foldl presence paths) (events.foldl filePresenceChanged c) := by
  induction events generalizing c paths with
  | nil => exact h
  | cons event _ ih => exact ih (.step h event)

/-- The model that presence events keep is the one that a load of the resulting files makes, in any order. -/
theorem presence_eq_load (declared : List WireText) (hn : paths.Nodup) (events : List (WireText × Bool))
    (hp : order.Perm (events.foldl presence paths)) :
    (events.foldl filePresenceChanged (load declared paths)).Same (load declared order) := by
  have hk := Current.run (rebuild_current (c := { declaredRoots := declared }) rfl hn) events
  have hl := rebuild_current (c := { declaredRoots := declared }) rfl (hp.nodup_iff.mpr hk.nodup)
  have hkept := Keyed.perm hk hp
  rw [← resolveRoots_congr fun _ => hp.any_eq] at hkept
  exact ⟨hkept.rooted.trans hl.rooted.symm, fun p => (hkept.files p).trans (hl.files p).symm,
    funext fun key => (hkept.containers key).trans (hl.containers key).symm,
    funext fun p => (hkept.fileNotes p).trans (hl.fileNotes p).symm⟩

theorem presence_eq_load_srcLayout :
    (filePresenceChanged (load [] ["a.py".toList]) ("src/b.py".toList, true)).Same
      (load [] ["a.py".toList, "src/b.py".toList]) :=
  presence_eq_load [] (nodup_singleton "a.py".toList) [("src/b.py".toList, true)] (by decide +kernel)

end ProjectContext

end GMesh
