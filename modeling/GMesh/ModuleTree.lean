import GMesh.TsRelative

namespace GMesh

open TsResolve Option List

/-- A project on disk. Its root's text ends in the separator, and `stripRoot` is `Path::strip_prefix` of it. -/
structure ModuleTree where
  root : WireText
  isFile : WireText → Bool
  stripRoot : WireText → Option WireText
  strip_plain : ∀ segments : List WireText, (∀ s ∈ segments, Plain s) →
    stripRoot (root ++ ['/'].intercalate segments) = some (['/'].intercalate segments)

namespace ModuleTree

def parentDir (path : WireText) : WireText := (rsplitOnce '/' path).elim [] Prod.fst

def dirSegments (dir : WireText) : List WireText := if dir = [] then [] else dir.splitOn '/'

/-- At the root a `..` drops nothing. -/
def pushSegment (segments : List WireText) (segment : WireText) : List WireText :=
  if segment = [] ∨ segment = ['.'] then segments
  else if segment = dotDot then segments.dropLast
  else segments ++ [segment]

def join (dir tail : WireText) : WireText :=
  ['/'].intercalate ((tail.splitOn '/').foldl pushSegment (dirSegments dir))

variable (tree : ModuleTree)

def toAbsolute (path : WireText) : WireText := if path.head? = some '/' then path else tree.root ++ path

def relativeTo (path : WireText) : Option WireText := (tree.stripRoot path).map relPath

def resolveChildFile (modDir declaringFile name : WireText) : Option WireText → Option (WireText × Bool)
  | some explicitPath =>
    let absolute := tree.toAbsolute (relPath (join (parentDir declaringFile) explicitPath))
    if tree.isFile absolute then
      (tree.relativeTo absolute).map fun resolved =>
        (resolved, (resolved.splitOn '/').getLast? == some "mod.rs".toList)
    else none
  | none =>
    let asFile := relPath (join modDir (name ++ ".rs".toList))
    let asDir := relPath (join modDir (name ++ "/mod.rs".toList))
    if tree.isFile (tree.toAbsolute asFile) then some (asFile, false)
    else if tree.isFile (tree.toAbsolute asDir) then some (asDir, true)
    else none

/-- A step of the lexical walk, which may not climb above the root. -/
def walkSegment (segments : List WireText) (segment : WireText) : Option (List WireText) :=
  if segment = dotDot ∧ segments = [] then none else some (pushSegment segments segment)

/-- What a `#[path]` names from the declaring file's directory, unless it leaves the project. -/
def lexicalPath (declaringFile value : WireText) : Option WireText :=
  if value.head? = some '/' then none
  else ((value.splitOn '/').foldlM walkSegment (dirSegments (parentDir declaringFile))).map ['/'].intercalate

def lexicalFile (declaringFile value : WireText) : Option WireText :=
  (lexicalPath declaringFile value).filter fun path => tree.isFile (tree.root ++ path)

/-- No file of the project stands where a joined path points, its backslashes read as slashes. -/
def misses (joined : WireText) : Bool :=
  let absolute := tree.toAbsolute (relPath joined)
  !tree.isFile absolute || (tree.stripRoot absolute).isNone

variable {tree : ModuleTree} {modDir file name value path : WireText} {segments : List WireText}

theorem foldl_of_walk {rest out : List WireText} (h : rest.foldlM walkSegment segments = some out) :
    rest.foldl pushSegment segments = out := by
  induction rest generalizing segments with
  | nil => exact Option.some.inj h
  | cons _ _ ih =>
    rw [foldlM_cons] at h
    obtain ⟨after, hafter, h⟩ := bind_eq_some_iff.mp h
    unfold walkSegment at hafter
    split at hafter
    next => cases hafter
    next =>
      cases hafter
      exact ih h

theorem plain_pushed (hs : ∀ s ∈ segments, Plain s) :
    ∀ s ∈ (value.splitOn '/').foldl pushSegment segments, Plain s := by
  refine foldlRecOn (motive := fun segments => ∀ s ∈ segments, Plain s) _ _ hs ?_
  intro segments ih segment hsegment s h
  unfold pushSegment at h
  split at h
  next => exact ih s h
  next hplain =>
    split at h
    next => exact ih s (dropLast_subset _ h)
    next =>
      rcases mem_append.mp h with h | h
      · exact ih s h
      · rw [mem_singleton.mp h]
        exact ⟨(not_or.mp hplain).1, (not_or.mp hplain).2, not_mem_of_mem_splitOn segment hsegment⟩

theorem plain_parentDir (hfile : ∀ s ∈ file.splitOn '/', Plain s) : ∀ s ∈ dirSegments (parentDir file), Plain s := by
  unfold dirSegments parentDir
  intro s hs
  cases hsplit : rsplitOnce '/' file with
  | none => simp [hsplit] at hs
  | some parts =>
    rw [rsplitOnce_some hsplit, splitOn_append_cons_self] at hfile
    rw [hsplit, elim_some] at hs
    split at hs
    next => cases hs
    next => exact hfile s (mem_append_left _ hs)

theorem join_of_lexicalPath (h : lexicalPath file value = some path) : join (parentDir file) value = path := by
  unfold lexicalPath at h
  split at h
  next => cases h
  next =>
    obtain ⟨out, hout, rfl⟩ := map_eq_some_iff.mp h
    rw [← foldl_of_walk hout, join]

theorem resolve_eq_none_iff : tree.resolveChildFile modDir file name (some value) = none ↔
    tree.misses (join (parentDir file) value) := by
  simp [resolveChildFile, misses, relativeTo, imp_iff_not_or]

theorem resolve_backslash {found : WireText × Bool}
    (h : tree.resolveChildFile modDir file name (some value) = some found) : '\\' ∉ found.1 := by
  simp only [resolveChildFile, relativeTo, Option.map_map] at h
  split at h
  next =>
    obtain ⟨path, -, rfl⟩ := map_eq_some_iff.mp h
    exact backslash_not_mem_relPath path
  next => cases h

theorem resolve_inside (hfile : ∀ s ∈ file.splitOn '/', Plain s) (hpath : lexicalPath file value = some path)
    (hslash : '\\' ∉ path) :
    (tree.resolveChildFile modDir file name (some value)).map Prod.fst = tree.lexicalFile file value := by
  have hplain := @plain_pushed value _ (plain_parentDir hfile)
  obtain ⟨hdot, hhead⟩ := intercalate_plain hplain
  have hstrip := tree.strip_plain _ hplain
  have hjoin := join_of_lexicalPath hpath
  rw [show ['/'].intercalate _ = path from hjoin] at hdot hhead hstrip
  have hrel := relPath_eq hslash hdot
  rw [lexicalFile, hpath, resolveChildFile, hjoin, hrel, toAbsolute, if_neg hhead, filter_some]
  split <;> simp [relativeTo, hstrip, hrel]

/-- A `#[path]` is resolved as its lexical reading says exactly when no file of the project stands where a value that
leaves it lands, nor at either reading of a path with a backslash. -/
theorem path_attribute_iff (hfile : ∀ s ∈ file.splitOn '/', Plain s) :
    (tree.resolveChildFile modDir file name (some value)).map Prod.fst = tree.lexicalFile file value ↔
      (lexicalPath file value = none → tree.misses (join (parentDir file) value) = true) ∧
      ∀ path ∈ lexicalPath file value, '\\' ∈ path →
        tree.misses path = true ∧ tree.isFile (tree.root ++ path) = false := by
  cases hpath : lexicalPath file value with
  | none => simp [lexicalFile, hpath, resolve_eq_none_iff]
  | some path =>
    by_cases hslash : '\\' ∈ path
    · have hmisses := @resolve_eq_none_iff tree modDir file name value
      rw [join_of_lexicalPath hpath] at hmisses
      simp only [lexicalFile, hpath, filter_some, reduceCtorEq, false_implies, true_and, Option.mem_def,
        Option.some.injEq, forall_eq', hslash, true_implies, ← hmisses]
      cases hfound : tree.resolveChildFile modDir file name (some value) with
      | none => cases tree.isFile (tree.root ++ path) <;> simp
      | some found =>
        have hne : found.1 ≠ path := fun he => resolve_backslash hfound (he ▸ hslash)
        cases tree.isFile (tree.root ++ path) <;> simp [hne]
    · simp [resolve_inside hfile hpath hslash, hslash]

def sample : ModuleTree where
  root := "/p/".toList
  isFile path := path == "/p/x.rs".toList
  stripRoot path := if "/p/".toList.isPrefixOf path then some (path.drop 3) else none
  strip_plain segments _ := by simp

theorem path_attribute_climbing :
    sample.resolveChildFile [] "a/b.rs".toList "x".toList (some "../../x.rs".toList) = some ("x.rs".toList, false) ∧
    lexicalPath "a/b.rs".toList "../../x.rs".toList = none := by
  decide

theorem path_attribute_sibling :
    (sample.resolveChildFile [] "a/b.rs".toList "x".toList (some "../x.rs".toList)).map Prod.fst =
      sample.lexicalFile "a/b.rs".toList "../x.rs".toList :=
  (path_attribute_iff (by decide)).mpr ⟨by decide, by decide⟩

end ModuleTree

end GMesh
