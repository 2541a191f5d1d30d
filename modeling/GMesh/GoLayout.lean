import GMesh.ResolutionDelta
import Mathlib.Algebra.GroupWithZero.Nat
import Mathlib.Data.List.Sort

namespace GMesh

def byteLength (t : WireText) : Nat := (t.map Char.utf8Size).sum

/-- The rest of a path under a directory, if it is there. The root is empty and holds all. -/
def underDir (dir child : WireText) : Option WireText :=
  if dir = [] then some child
  else if child = dir then some []
  else if (dir ++ ['/']).isPrefixOf child then some (child.drop (dir.length + 1))
  else none

def normalizeDir (dir : WireText) : WireText :=
  if dir = ['.'] ∨ dir = ['/'] then []
  else if dir.getLast? = some '/' then dir.dropLast
  else dir

def underModule (path suffix : WireText) : WireText :=
  if suffix = [] then path else path ++ '/' :: suffix

structure ModuleRoot where
  dir : WireText
  path : WireText
  deriving DecidableEq, Repr

structure ReplaceRule where
  file : WireText
  replaced : WireText
  rule : WireText
  deriving DecidableEq, Repr

/-- A project's modules, at most one in a directory, the longest directory first. -/
structure GoWorkspace where
  modules : List ModuleRoot
  uses : List WireText := []
  replaces : List ReplaceRule := []
  nodup : (modules.map (·.dir)).Nodup
  longestFirst : modules.Pairwise fun m n => byteLength n.dir ≤ byteLength m.dir
  clean : ∀ m ∈ modules, m.dir.getLast? ≠ some '/'

namespace GoWorkspace

variable (w : GoWorkspace)

def importPath (relDir : WireText) : WireText :=
  let relDir := normalizeDir relDir
  match w.modules.findSome? fun m => (underDir m.dir relDir).map (underModule m.path) with
  | some path => path
  | none => if relDir = [] then ['.'] else relDir

def isProjectImportPath (path : WireText) : Bool :=
  w.modules.any fun m => path == m.path || (m.path ++ ['/']).isPrefixOf path

def moduleDirFor (relDir : WireText) : WireText :=
  ((w.modules.find? fun m => (underDir m.dir relDir).isSome).map (·.dir)).getD []

end GoWorkspace

structure ModuleCopy where
  module : WireText
  dir : WireText
  deriving DecidableEq, Repr

def ModuleRoot.copyDir (m : ModuleRoot) (importPath : WireText) : Option WireText :=
  if importPath = m.path then some m.dir
  else if (m.path ++ ['/']).isPrefixOf importPath then
    let suffix := importPath.drop (m.path.length + 1)
    some (if m.dir = [] then suffix else m.dir ++ '/' :: suffix)
  else none

def GoWorkspace.packageCopies (w : GoWorkspace) (importPath : WireText) : List ModuleCopy :=
  w.modules.filterMap fun m =>
    ((m.copyDir importPath).filter fun dir => w.moduleDirFor dir = m.dir).map fun dir => ⟨m.dir, dir⟩

structure GoFacts where
  modules : List ModuleRoot
  uses : List WireText := []
  replaces : List ReplaceRule := []
  deriving DecidableEq, Repr

def sortTexts (ts : List WireText) : List WireText := ts.insertionSort (· ≤ ·)

def factsOf (w : GoWorkspace) : GoFacts where
  modules := w.modules.insertionSort fun m n => m.dir ≤ n.dir
  uses := sortTexts w.uses
  replaces := w.replaces

def modulesByDir (modules : List ModuleRoot) (dir : WireText) : Option WireText :=
  (lastWhere (fun m => decide (m.dir = dir)) modules).map (·.path)

/-- The longer of the best module so far and one that holds the directory. -/
def closerModule (dir : WireText) (best : Option ModuleRoot) (m : ModuleRoot) : Option ModuleRoot :=
  if (underDir m.dir dir).isSome ∧ best.all (fun b => decide (byteLength b.dir < byteLength m.dir)) then some m else best

/-- The import path of a directory under the innermost module that holds it. -/
def importPathIn (modules : List ModuleRoot) (dir : WireText) : Option WireText :=
  (modules.foldl (closerModule dir) none).map fun m => underModule m.path ((underDir m.dir dir).getD [])

def replacesByModule (rules : List ReplaceRule) (replaced : WireText) : WireText :=
  ['\n'].intercalate
    (sortTexts ((rules.filter (·.replaced = replaced)).map fun r => r.file ++ Char.ofNat 0 :: r.rule))

def specifierUnder (path : WireText) : ImportSelector where
  selecting := .specifier (.under path ['/'])

section Delta

variable (old new : GoFacts)

def allDirs : List WireText := ((old.modules ++ new.modules).map (·.dir)).dedup

def changedDirs : List WireText :=
  sortTexts ((allDirs old new).filter fun dir => decide (modulesByDir old.modules dir ≠ modulesByDir new.modules dir))

def nestedDirs (dir : WireText) : List WireText :=
  sortTexts ((allDirs old new).filter fun other => decide (other ≠ dir) && (underDir dir other).isSome)

def movedPrefixes : List WireText :=
  (changedDirs old new).flatMap fun dir =>
    (importPathIn old.modules dir).toList ++ (importPathIn new.modules dir).toList

def usedPrefixes : List WireText :=
  ((old.uses.filter fun dir => !new.uses.contains dir) ++ new.uses.filter fun dir => !old.uses.contains dir).flatMap
    fun dir => (modulesByDir old.modules dir).toList ++ (modulesByDir new.modules dir).toList

def replacedPrefixes : List WireText :=
  ((old.replaces ++ new.replaces).map (·.replaced)).filter fun replaced =>
    decide (replacesByModule old.replaces replaced ≠ replacesByModule new.replaces replaced)

def factsDelta : ResolutionDelta :=
  let changed := changedDirs old new
  let files := changed.map fun dir => { under := dir, notUnder := nestedDirs old new dir }
  let prefixes := (movedPrefixes old new ++ usedPrefixes old new ++ replacedPrefixes old new).dedup
  if changed ≠ [] ∧ changed.length = (allDirs old new).length then .unknown
  else if files = [] ∧ prefixes = [] then .unchanged
  else .affected files ((sortTexts prefixes).map specifierUnder)

end Delta

open List Option

variable {dir k m d s t u path : WireText}

theorem byteLength_append (a b : WireText) : byteLength (a ++ b) = byteLength a + byteLength b := by
  simp [byteLength]

theorem byteLength_pos {a : WireText} (h : a ≠ []) : 0 < byteLength a := by
  cases a with
  | nil => exact absurd rfl h
  | cons c a =>
    have hc : 0 < c.utf8Size := Char.utf8Size_pos c
    simp only [byteLength, map_cons, sum_cons]
    omega

theorem underDir_eq_some_iff : underDir dir d = some s ↔
    (dir = [] ∧ s = d) ∨ (dir ≠ [] ∧ d = dir ∧ s = []) ∨ (dir ≠ [] ∧ d = dir ++ '/' :: s) := by
  unfold underDir
  split
  next h => simp [h, eq_comm]
  next h =>
    split
    next hd =>
      subst hd
      simp [h, eq_comm]
    next hd =>
      split
      next hp =>
        obtain ⟨rest, rfl⟩ := isPrefixOf_iff_prefix.mp hp
        simp [h, eq_comm]
      next hp =>
        simp only [reduceCtorEq, h, hd, false_and, and_false, false_or, ne_eq, not_false_eq_true, true_and, false_iff]
        intro he
        apply hp
        rw [he, isPrefixOf_iff_prefix]
        exact ⟨s, by simp⟩

def Under (dir d : WireText) : Prop := (underDir dir d).isSome = true

theorem under_iff : Under dir d ↔ dir = [] ∨ d = dir ∨ ∃ s, d = dir ++ '/' :: s := by
  unfold Under
  rw [isSome_iff_exists]
  simp only [underDir_eq_some_iff]
  by_cases h : dir = []
  · simp [h]
  · simp only [h, false_and, ne_eq, not_false_eq_true, true_and, false_or]
    constructor
    · rintro ⟨s, hs⟩
      exact hs.imp And.left fun hs => ⟨s, hs⟩
    · rintro (hd | ⟨s, hs⟩)
      · exact ⟨[], .inl ⟨hd, rfl⟩⟩
      · exact ⟨s, .inr hs⟩

theorem under_refl (d : WireText) : Under d d := under_iff.mpr (.inr (.inl rfl))

theorem Under.trans (hm : Under m k) (hk : Under k d) : Under m d := by
  rw [under_iff] at hm hk ⊢
  rcases hm with rfl | rfl | ⟨s, rfl⟩
  · exact .inl rfl
  · exact hk
  · rcases hk with hk | rfl | ⟨t, rfl⟩
    · simp at hk
    · exact .inr (.inr ⟨s, rfl⟩)
    · exact .inr (.inr ⟨s ++ '/' :: t, by simp⟩)

theorem Under.isPrefix (h : Under m d) : m <+: d := by
  rcases under_iff.mp h with rfl | rfl | ⟨s, rfl⟩
  · exact nil_prefix
  · exact prefix_refl _
  · exact prefix_append ..

theorem byteLength_lt_of_isPrefix (h : m <+: k) (hne : m ≠ k) : byteLength m < byteLength k := by
  obtain ⟨rest, rfl⟩ := h
  have hrest : rest ≠ [] := by
    intro hr
    exact hne (by simp [hr])
  rw [byteLength_append]
  have hpos := byteLength_pos hrest
  omega

theorem Under.of_byteLength_le (hm : Under m d) (hk : Under k d) (h : byteLength m ≤ byteLength k) : Under m k := by
  have hmk : m <+: k := by
    rcases prefix_or_prefix_of_prefix hm.isPrefix hk.isPrefix with hmk | hkm
    · exact hmk
    · by_cases he : k = m
      · exact he ▸ prefix_refl _
      · have hlt := byteLength_lt_of_isPrefix hkm he
        omega
  by_cases he : m = k
  · exact he ▸ under_refl m
  · rcases under_iff.mp hm with rfl | rfl | ⟨s, rfl⟩
    · exact under_iff.mpr (.inl rfl)
    · have hlt := byteLength_lt_of_isPrefix hk.isPrefix (Ne.symm he)
      omega
    · obtain ⟨rest, rfl⟩ := hmk
      cases rest with
      | nil => simp at he
      | cons c rest =>
        obtain ⟨tail, htail⟩ := hk.isPrefix
        have hc : c = '/' := by simpa using congrArg (fun l => l[m.length]?) htail
        exact under_iff.mpr (.inr (.inr ⟨rest, by rw [hc]⟩))

theorem under_antisymm (hm : Under m d) (hk : Under k d) (h : byteLength m = byteLength k) : m = k := by
  have hmk := (hm.of_byteLength_le hk (by omega)).isPrefix
  by_contra hne
  have hlt := byteLength_lt_of_isPrefix hmk hne
  omega

theorem accepts_under_iff : (Matcher.under path ['/']).accepts t ↔ t = path ∨ ∃ s, t = path ++ '/' :: s := by
  simp only [Matcher.accepts, isEmpty_cons, Bool.not_false, Bool.true_and, Bool.or_eq_true, beq_iff_eq,
    isPrefixOf_iff_prefix]
  apply or_congr Iff.rfl
  constructor
  · rintro ⟨s, rfl⟩
    exact ⟨s, by simp⟩
  · rintro ⟨s, rfl⟩
    exact ⟨s, by simp⟩

theorem accepts_underModule : (Matcher.under path ['/']).accepts (underModule path s) := by
  rw [accepts_under_iff, underModule]
  split
  next => exact .inl rfl
  next => exact .inr ⟨s, rfl⟩

theorem accepts_underModule_of_under (hk : underDir m k = some s) (hd : underDir m d = some u) (h : Under k d) :
    (Matcher.under (underModule path s) ['/']).accepts (underModule path u) := by
  by_cases hs : s = []
  · rw [hs]
    exact accepts_underModule
  · rcases underDir_eq_some_iff.mp hk with ⟨rfl, rfl⟩ | ⟨-, -, hs'⟩ | ⟨hm, rfl⟩
    · rcases underDir_eq_some_iff.mp hd with ⟨-, rfl⟩ | ⟨hm, -⟩ | ⟨hm, -⟩
      · rw [accepts_under_iff]
        rcases under_iff.mp h with h | rfl | ⟨t, rfl⟩
        · exact absurd h hs
        · exact .inl rfl
        · exact .inr ⟨t, by simp [underModule, hs]⟩
      · exact absurd rfl hm
      · exact absurd rfl hm
    · exact absurd hs' hs
    · rw [accepts_under_iff]
      rcases under_iff.mp h with h | rfl | ⟨t, rfl⟩
      · simp at h
      · have hu : u = s := some.inj (hd.symm.trans hk)
        exact .inl (by rw [hu])
      · have hu : u = s ++ '/' :: t := by
          rcases underDir_eq_some_iff.mp hd with ⟨rfl, -⟩ | ⟨-, hd, -⟩ | ⟨-, hd⟩
          · exact absurd rfl hm
          · simpa using congrArg List.length hd
          · simpa using hd.symm
        exact .inr ⟨t, by simp [hu, underModule, hs]⟩

structure Innermost (modules : List ModuleRoot) (d : WireText) (m : ModuleRoot) : Prop where
  mem : m ∈ modules
  under : Under m.dir d
  longest : ∀ n ∈ modules, Under n.dir d → byteLength n.dir ≤ byteLength m.dir

section Innermost

variable {modules others : List ModuleRoot} {m n : ModuleRoot}

theorem Innermost.unique (hn : (modules.map (·.dir)).Nodup) {a b : ModuleRoot} (ha : Innermost modules d a)
    (hb : Innermost modules d b) : a = b := by
  have hle := hb.longest a ha.mem ha.under
  have hge := ha.longest b hb.mem hb.under
  have hdir : a.dir = b.dir := under_antisymm ha.under hb.under (by omega)
  exact inj_on_of_nodup_map hn ha.mem hb.mem hdir

theorem Innermost.of_subset (h : Innermost modules d m) (hm : m ∈ others) (hsub : ∀ n ∈ others, n ∈ modules) :
    Innermost others d m :=
  ⟨hm, h.under, fun n hn hu => h.longest n (hsub n hn) hu⟩

theorem Innermost.append_cons (h : Innermost modules d m) (n : ModuleRoot)
    (hn : Under n.dir d → byteLength n.dir ≤ byteLength m.dir) : Innermost (modules ++ [n]) d m := by
  refine ⟨mem_append_left _ h.mem, h.under, ?_⟩
  intro o ho hu
  rcases mem_append.mp ho with ho | ho
  · exact h.longest o ho hu
  · cases mem_singleton.mp ho
    exact hn hu

/-- What the scan for the longest directory has found after some of the modules. -/
def Scanned (modules : List ModuleRoot) (d : WireText) : Option ModuleRoot → Prop
  | some m => Innermost modules d m
  | none => ∀ m ∈ modules, ¬Under m.dir d

variable {best : Option ModuleRoot}

theorem Scanned.closerModule (h : Scanned modules d best) (n : ModuleRoot) :
    Scanned (modules ++ [n]) d (closerModule d best n) := by
  unfold GMesh.closerModule
  split
  next hc =>
    refine ⟨mem_append_right _ (mem_singleton_self n), hc.1, ?_⟩
    intro o ho hu
    rcases mem_append.mp ho with ho | ho
    · cases best with
      | none => exact absurd hu (h o ho)
      | some m =>
        have hm : byteLength m.dir < byteLength n.dir := by simpa using hc.2
        have ho := Innermost.longest h o ho hu
        omega
    · cases mem_singleton.mp ho
      exact Nat.le_refl _
  next hc =>
    cases best with
    | none =>
      intro o ho hu
      rcases mem_append.mp ho with ho | ho
      · exact h o ho hu
      · cases mem_singleton.mp ho
        exact hc ⟨hu, rfl⟩
    | some m =>
      apply Innermost.append_cons h
      intro hu
      by_contra hlt
      exact hc ⟨hu, by simpa using hlt⟩

theorem scanned_foldl (scan : List ModuleRoot) (h : Scanned modules d best) :
    Scanned (modules ++ scan) d (scan.foldl (closerModule d) best) := by
  induction scan generalizing modules best with
  | nil => simpa using h
  | cons n _ ih =>
    have hstep := ih (h.closerModule n)
    simpa using hstep

theorem scanned (modules : List ModuleRoot) (d : WireText) :
    Scanned modules d (modules.foldl (closerModule d) none) := by
  have hstart : Scanned [] d none := by simp [Scanned]
  exact scanned_foldl modules hstart

theorem exists_innermost (h : ∃ m ∈ modules, Under m.dir d) : ∃ m, Innermost modules d m := by
  obtain ⟨m, hm, hu⟩ := h
  have hscan := scanned modules d
  cases hbest : modules.foldl (closerModule d) none with
  | none =>
    rw [hbest] at hscan
    exact absurd hu (hscan m hm)
  | some best =>
    rw [hbest] at hscan
    exact ⟨best, hscan⟩

theorem importPathIn_eq (hn : (modules.map (·.dir)).Nodup) (hm : Innermost modules d m)
    (hs : underDir m.dir d = some s) : importPathIn modules d = some (underModule m.path s) := by
  have hscan := scanned modules d
  unfold importPathIn
  cases hbest : modules.foldl (closerModule d) none with
  | none =>
    rw [hbest] at hscan
    exact absurd hm.under (hscan m hm.mem)
  | some best =>
    rw [hbest] at hscan
    cases Innermost.unique hn hscan hm
    simp [hs]

end Innermost

namespace GoWorkspace

variable {w : GoWorkspace} {m : ModuleRoot}

theorem find?_eq_some_iff_innermost :
    (w.modules.find? fun m => (underDir m.dir d).isSome) = some m ↔ Innermost w.modules d m := by
  have hfirst : ∀ first, (w.modules.find? fun m => (underDir m.dir d).isSome) = some first →
      Innermost w.modules d first := by
    intro first h
    obtain ⟨hu, before, after, hsplit, hbefore⟩ := find?_eq_some_iff_append.mp h
    refine ⟨by simp [hsplit], hu, ?_⟩
    intro n hn hun
    rw [hsplit] at hn
    rcases mem_append.mp hn with hn | hn
    · exact absurd hun (by simpa [Under] using hbefore n hn)
    · rcases mem_cons.mp hn with rfl | hn
      · exact Nat.le_refl _
      · have hpairs := w.longestFirst
        rw [hsplit] at hpairs
        exact (pairwise_cons.mp (pairwise_append.mp hpairs).2.1).1 n hn
  constructor
  · exact hfirst m
  · intro hm
    cases hfind : w.modules.find? fun m => (underDir m.dir d).isSome with
    | none => exact absurd hm.under (find?_eq_none.mp hfind m hm.mem)
    | some first => rw [(hfirst first hfind).unique w.nodup hm]

theorem importPath_eq (hm : Innermost w.modules (normalizeDir d) m) (hs : underDir m.dir (normalizeDir d) = some s) :
    w.importPath d = underModule m.path s := by
  obtain ⟨_, before, after, hsplit, hbefore⟩ := find?_eq_some_iff_append.mp (find?_eq_some_iff_innermost.mpr hm)
  have hfirst : (w.modules.findSome? fun m => (underDir m.dir (normalizeDir d)).map (underModule m.path)) =
      some (underModule m.path s) := by
    refine findSome?_eq_some_iff.mpr ⟨before, m, after, hsplit, by simp [hs], ?_⟩
    intro n hn
    simpa using hbefore n hn
  unfold importPath
  dsimp only
  rw [hfirst]

theorem importPath_of_none (h : ∀ m ∈ w.modules, ¬Under m.dir (normalizeDir d)) :
    w.importPath d = if normalizeDir d = [] then ['.'] else normalizeDir d := by
  have hnone : (w.modules.findSome? fun m => (underDir m.dir (normalizeDir d)).map (underModule m.path)) = none := by
    rw [findSome?_eq_none_iff]
    intro m hm
    have hu := h m hm
    simpa [Under] using hu
  unfold importPath
  dsimp only
  rw [hnone]

theorem isProjectImportPath_iff :
    w.isProjectImportPath t ↔ ∃ m ∈ w.modules, (Matcher.under m.path ['/']).accepts t := by
  simp [isProjectImportPath, Matcher.accepts]

theorem moduleDirFor_eq_iff (hm : m ∈ w.modules) : w.moduleDirFor d = m.dir ↔ Innermost w.modules d m := by
  unfold moduleDirFor
  constructor
  · intro hdir
    cases hfind : w.modules.find? fun m => (underDir m.dir d).isSome with
    | none =>
      rw [hfind] at hdir
      exact absurd (under_iff.mpr (.inl hdir.symm)) (find?_eq_none.mp hfind m hm)
    | some first =>
      rw [hfind] at hdir
      have hfirst := find?_eq_some_iff_innermost.mp hfind
      rwa [← inj_on_of_nodup_map w.nodup hfirst.mem hm hdir]
  · intro h
    rw [find?_eq_some_iff_innermost.mpr h]
    rfl

theorem mem_packageCopies {c : ModuleCopy} : c ∈ w.packageCopies path ↔
    ∃ m, Innermost w.modules c.dir m ∧ m.dir = c.module ∧ m.copyDir path = some c.dir := by
  simp only [packageCopies, mem_filterMap, map_eq_some_iff, filter_eq_some_iff, decide_eq_true_eq]
  constructor
  · rintro ⟨m, hm, dir, ⟨hdir, hinner⟩, rfl⟩
    exact ⟨m, (moduleDirFor_eq_iff hm).mp hinner, rfl, hdir⟩
  · rintro ⟨m, hm, hc, hdir⟩
    exact ⟨m, hm.mem, c.dir, ⟨hdir, (moduleDirFor_eq_iff hm.mem).mpr hm⟩, by rw [hc]⟩

theorem packageCopies_nodup (w : GoWorkspace) (path : WireText) : (w.packageCopies path).Nodup := by
  refine (pairwise_map.mp w.nodup).filterMap _ ?_
  rintro m n hne c hc c' hc' rfl
  obtain ⟨_, _, rfl⟩ := map_eq_some_iff.mp hc
  obtain ⟨_, _, he⟩ := map_eq_some_iff.mp hc'
  exact hne (congrArg ModuleCopy.module he).symm

end GoWorkspace

/-- Made of segments, none of them empty, `.` or `..`. -/
def Segmented (t : WireText) : Prop := t = [] ∨ ∀ s ∈ t.splitOn '/', s ≠ [] ∧ s ≠ ['.'] ∧ s ≠ ['.', '.']

theorem Segmented.getLast?_ne (h : Segmented t) : t.getLast? ≠ some '/' := by
  intro hlast
  obtain ⟨front, rfl⟩ := getLast?_eq_some_iff.mp hlast
  rcases h with h | h
  · simp at h
  · exact (h [] (by simp [splitOn_append_cons_self])).1 rfl

theorem Segmented.normalizeDir_eq (h : Segmented d) : normalizeDir d = d := by
  have hlast := h.getLast?_ne
  have hdot : d ≠ ['.'] := by
    rintro rfl
    revert h
    unfold Segmented
    decide
  have hslash : d ≠ ['/'] := by
    rintro rfl
    exact hlast rfl
  simp [normalizeDir, hdot, hslash, hlast]

/-- Between a module's directories and its import paths only the part before the rest changes. -/
theorem copyDir_eq_some_iff {m : ModuleRoot} (hp : Segmented path) (hd : Segmented d) :
    m.copyDir path = some d ↔ ∃ s, underDir m.dir d = some s ∧ underModule m.path s = path := by
  simp only [underDir_eq_some_iff, ModuleRoot.copyDir]
  constructor
  · intro h
    split at h
    next heq =>
      refine ⟨[], ?_, heq.symm⟩
      rw [← some.inj h]
      by_cases hroot : m.dir = []
      · exact .inl ⟨hroot, hroot.symm⟩
      · exact .inr (.inl ⟨hroot, rfl, rfl⟩)
    next =>
      split at h
      next hprefix =>
        obtain ⟨rest, rfl⟩ := isPrefixOf_iff_prefix.mp hprefix
        have hrest : rest ≠ [] := by
          rintro rfl
          exact hp.getLast?_ne (by simp)
        refine ⟨rest, ?_, by simp [underModule, hrest]⟩
        rw [← some.inj h]
        by_cases hroot : m.dir = []
        · simp [hroot]
        · simp [hroot]
      next => cases h
  · rintro ⟨s, ⟨hroot, rfl⟩ | ⟨hroot, rfl, rfl⟩ | ⟨hroot, rfl⟩, rfl⟩
    · by_cases hs : s = []
      · simp [underModule, hs, hroot]
      · simp [underModule, hs, hroot]
    · simp [underModule]
    · have hs : s ≠ [] := by
        rintro rfl
        exact hd.getLast?_ne (by simp)
      simp [underModule, hs, hroot]

/-- The copies of an import path are the directories that have it, each once and with its innermost module. -/
theorem packageCopies_invert_importPath (w : GoWorkspace) {path : WireText} (hp : Segmented path) :
    (∀ d, Segmented d → ((∃ m, Innermost w.modules d m ∧ ⟨m.dir, d⟩ ∈ w.packageCopies path) ↔
      (∃ m ∈ w.modules, Under m.dir d) ∧ w.importPath d = path)) ∧
    (∀ c ∈ w.packageCopies path, ∃ m, Innermost w.modules c.dir m ∧ m.dir = c.module) ∧
    (w.packageCopies path).Nodup := by
  refine ⟨?_, ?_, w.packageCopies_nodup path⟩
  · intro d hd
    have hpath : ∀ m, Innermost w.modules d m → (m.copyDir path = some d ↔ w.importPath d = path) := by
      intro m hm
      obtain ⟨s, hs⟩ := isSome_iff_exists.mp hm.under
      have heq := hd.normalizeDir_eq
      rw [GoWorkspace.importPath_eq (heq.symm ▸ hm) (heq.symm ▸ hs), copyDir_eq_some_iff hp hd, hs]
      simp
    constructor
    · rintro ⟨m, hm, hc⟩
      obtain ⟨n, hn, _, hdir⟩ := GoWorkspace.mem_packageCopies.mp hc
      exact ⟨⟨m, hm.mem, hm.under⟩, (hpath n hn).mp hdir⟩
    · rintro ⟨hunder, heq⟩
      obtain ⟨m, hm⟩ := exists_innermost hunder
      exact ⟨m, hm, GoWorkspace.mem_packageCopies.mpr ⟨m, hm, rfl, (hpath m hm).mpr heq⟩⟩
  · intro c hc
    obtain ⟨m, hm, hdir, _⟩ := GoWorkspace.mem_packageCopies.mp hc
    exact ⟨m, hm, hdir⟩

def forked : GoWorkspace where
  modules := [⟨['f'], ['x']⟩, ⟨['o'], ['x']⟩]
  nodup := by decide
  longestFirst := by decide
  clean := by decide

theorem packageCopies_invert_importPath_forked : ∃ m, Innermost forked.modules ['o', '/', 's'] m ∧
    ⟨m.dir, ['o', '/', 's']⟩ ∈ forked.packageCopies ['x', '/', 's'] := by
  have hseg : Segmented ['x', '/', 's'] ∧ Segmented ['o', '/', 's'] := by
    unfold Segmented
    decide
  refine ((packageCopies_invert_importPath forked hseg.1).1 _ hseg.2).mpr ⟨⟨⟨['o'], ['x']⟩, ?_, ?_⟩, ?_⟩
  · decide
  · exact under_iff.mpr (.inr (.inr ⟨['s'], rfl⟩))
  · decide +kernel

end GMesh
