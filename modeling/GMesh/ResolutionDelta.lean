import GMesh.Store
import Mathlib.Data.List.DropRight

namespace GMesh

/-- A path, a key or a specifier as plugins and core exchange it. -/
abbrev WireText := List Char

structure PathScope where
  under : WireText := []
  notUnder : List WireText := []
  deriving DecidableEq, Repr

def pathIsUnder (path dir : WireText) : Bool :=
  let dir := dir.rdropWhile (· == '/')
  dir.isEmpty || path == dir || (dir ++ ['/']).isPrefixOf path

def PathScope.contains (s : PathScope) (path : WireText) : Bool :=
  pathIsUnder path s.under && !s.notUnder.any (pathIsUnder path)

inductive Matcher
  | exact (text : WireText)
  | under (key separator : WireText)
  | startsWith (text : WireText)
  | nonRelative
  deriving DecidableEq, Repr

def Matcher.accepts : Matcher → WireText → Bool
  | .exact text, s => s == text
  | .under key separator, s => s == key || (!separator.isEmpty && (key ++ separator).isPrefixOf s)
  | .startsWith text, s => text.isPrefixOf s
  | .nonRelative, s => !s.isEmpty && !s.head?.any fun c => c == '.' || c == '/' || c == '#'

inductive ImportMatch
  | specifier (matcher : Matcher)
  | target (scopeKind : ScopeKind) (matcher : Matcher)
  deriving DecidableEq, Repr

structure ImportSelector where
  importers : PathScope := {}
  selecting : ImportMatch
  deriving DecidableEq, Repr

inductive ResolutionDelta
  | unchanged
  | unknown
  | affected (files : List PathScope) (imports : List ImportSelector)
  deriving DecidableEq, Repr

/-- An `IMPORTS` edge as core reads it to find the importers that an edit reaches. -/
structure StoredImport where
  importer : WireText
  specifier : Option WireText
  target : Option (ScopeKind × WireText)
  deriving DecidableEq, Repr

def StoredImport.meets (i : StoredImport) (selector : ImportSelector) : Bool :=
  selector.importers.contains i.importer &&
    match selector.selecting with
    | .specifier matcher => i.specifier.any matcher.accepts
    | .target scopeKind matcher => i.target.any fun t => t.1 == scopeKind && matcher.accepts t.2

/-- Whether core extracts the file again, given the imports it has stored of it. -/
def ResolutionDelta.selects (d : ResolutionDelta) (path : WireText) (imports : List StoredImport) : Bool :=
  match d with
  | .unchanged => false
  | .unknown => true
  | .affected files selectors =>
    files.any (·.contains path) || selectors.any fun selector => imports.any (·.meets selector)

/-- The key of every file's container, and every key that there is. -/
structure ContainerFacts where
  files : List (WireText × WireText) := []
  keys : List WireText := []
  deriving DecidableEq, Repr

variable (old new : ContainerFacts)

namespace ContainerFacts

def added : List WireText := new.keys.filter fun k => !old.keys.contains k

def removed : List WireText := old.keys.filter fun k => !new.keys.contains k

def moved : List WireText :=
  ((old.files ++ new.files).map Prod.fst).dedup.filter fun path => old.files.lookup path != new.files.lookup path

end ContainerFacts

def importersOfTarget (key : WireText) : ImportSelector where
  selecting := .target .container (.exact key)

def importersUnder (separator key : WireText) : ImportSelector where
  selecting := .specifier (.under key separator)

def containerDelta (separator : WireText) : ResolutionDelta :=
  let files := (old.moved new).map fun path => { under := path }
  let imports := (old.removed new ++ old.added new).map importersOfTarget ++
    (old.added new).map (importersUnder separator)
  if files.isEmpty && imports.isEmpty then .unchanged else .affected files imports

theorem pathIsUnder_self (path : WireText) : pathIsUnder path path := by
  have hpath : path.rdropWhile (· == '/') ++ path.rtakeWhile (· == '/') = path := List.rdropWhile_append_rtakeWhile
  unfold pathIsUnder
  cases hslashes : path.rtakeWhile (· == '/') with
  | nil =>
    rw [hslashes, List.append_nil] at hpath
    simp [hpath]
  | cons c rest =>
    have hc : c = '/' := by
      have hmem : c ∈ path.rtakeWhile (· == '/') := by simp [hslashes]
      simpa using List.mem_rtakeWhile_imp hmem
    have hunder : (path.rdropWhile (· == '/') ++ ['/']) <+: path :=
      ⟨rest, by rw [hslashes, hc] at hpath; simpa using hpath⟩
    simp [List.isPrefixOf_iff_prefix.mpr hunder]

end GMesh
