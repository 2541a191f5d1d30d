import GMesh.Rows
import GMesh.TableWrites

namespace GMesh

def PathSegment.sepText (s : PathSegment) : String := s.sep.getD ""

variable (p : QualifiedPath)

namespace QualifiedPath

def suffixFrom (start : Nat) : String :=
  match p.segments.drop start with
  | [] => ""
  | first :: rest => rest.foldl (fun text s => text ++ s.sepText ++ s.name) first.name

def display : String := p.suffixFrom 0

def head : Option QualifiedPath :=
  if 2 ≤ p.segments.length then some ⟨p.segments.dropLast⟩ else none

def last : Option PathSegment := p.segments.getLast?

def headName : Option String := p.head.bind fun h => h.last.map PathSegment.name

def suffixesFrom (first : Nat) : List String :=
  (List.range' first (p.segments.length - 1 - first)).map p.suffixFrom

def suffixes (path : Option QualifiedPath) (aliases : List QualifiedPath) : List String :=
  (path.toList.flatMap (fun p => p.suffixesFrom 1) ++ aliases.flatMap (fun a => a.suffixesFrom 0)).dedup

end QualifiedPath

def stripSuffix (text tail : String) : Option String :=
  if tail.toList <:+ text.toList then some (String.ofList (text.toList.take (text.length - tail.length))) else none

example : QualifiedPath.suffixes (some ⟨[⟨none, "m"⟩, ⟨some "::", "<S as T>"⟩, ⟨some "::", "y"⟩]⟩)
    [⟨[⟨none, "m"⟩, ⟨some "::", "S"⟩, ⟨some "::", "y"⟩]⟩] = ["<S as T>::y", "m::S::y", "S::y"] := by decide +kernel

/-- A container's identity: keys are unique within a language only. -/
abbrev ContainerKey := String × String

structure ContainerRow where
  nodeId : String
  language : String
  key : String
  parentKey : Option String := none
  memberCount : Nat := 0
  deriving DecidableEq, Repr

def ContainerRow.ofKey (c : ContainerRow) : ContainerKey := (c.language, c.key)

inductive ScopeKind
  | file | container
  deriving DecidableEq, Repr

inductive KeyKind
  | name | qualifiedName
  deriving DecidableEq, Repr

structure PlaceholderTargetRecord where
  scopeKind : ScopeKind := .file
  scope : String
  keyKind : KeyKind := .name
  key : String
  fromContainer : Option String := none
  keyPath : Option QualifiedPath := none
  alsoScopes : List String := []
  deriving DecidableEq, Repr

structure TargetRow where
  nodeId : String
  scopeKind : ScopeKind := .file
  scope : String
  keyKind : KeyKind := .name
  key : String
  fromContainer : Option String := none
  fromFile : String
  keyPath : Option QualifiedPath := none
  deriving DecidableEq, Repr

structure AlsoScopeRow where
  nodeId : String
  scope : String
  deriving DecidableEq, Repr

structure UntypedCallRow where
  name : String
  nodeId : String
  deriving DecidableEq, Repr

structure SuffixRow where
  suffix : String
  nodeId : String
  deriving DecidableEq, Repr

abbrev ContainerTable := KeyedTable ContainerRow.nodeId
abbrev TargetTable := KeyedTable TargetRow.nodeId
abbrev AlsoScopeTable := KeyedTable (fun r : AlsoScopeRow => r)
abbrev UntypedCallTable := KeyedTable (fun r : UntypedCallRow => r)
abbrev SuffixTable := KeyedTable (fun r : SuffixRow => r)

/-- The index as `write_diff` sees it: the graph and the tables keyed by its nodes. -/
structure Store extends Graph where
  containers : ContainerTable := ∅
  targets : TargetTable := ∅
  alsoScopes : AlsoScopeTable := ∅
  untypedCalls : UntypedCallTable := ∅
  suffixes : SuffixTable := ∅

structure NodeRecord extends NodeRow where
  containerParent : Option String := none
  target : Option PlaceholderTargetRecord := none
  untypedCalls : List String := []
  aliasPaths : List QualifiedPath := []
  deriving DecidableEq, Repr

structure Diff where
  upsertNodes : List NodeRecord := []
  deleteNodeIds : List String := []
  upsertEdges : List EdgeRow := []
  deleteEdgeIds : List String := []
  deriving DecidableEq, Repr

def Diff.isEmpty (d : Diff) : Bool :=
  d.upsertNodes.isEmpty && d.deleteNodeIds.isEmpty && d.upsertEdges.isEmpty && d.deleteEdgeIds.isEmpty

theorem Diff.eq_empty {d : Diff} (hd : d.isEmpty) : d = {} := by
  cases d
  simpa [Diff.isEmpty, and_assoc] using hd

variable (id : String) (e : EdgeRow)

/-- An edge that linking moved off a placeholder goes back onto it, unresolved. -/
def EdgeRow.unlinkFrom : EdgeRow :=
  match e.linkedFrom with
  | some placeholder =>
    if e.toId = id then { e with toId := placeholder, resolved := false, linkedFrom := none } else e
  | none => e

theorem EdgeRow.unlinkFrom_id : (e.unlinkFrom id).id = e.id := by
  unfold EdgeRow.unlinkFrom
  split
  next => split <;> rfl
  next => rfl

theorem EdgeRow.unlinkFrom_fromId : (e.unlinkFrom id).fromId = e.fromId := by
  unfold EdgeRow.unlinkFrom
  split
  next => split <;> rfl
  next => rfl

theorem EdgeRow.unlinkFrom_kind : (e.unlinkFrom id).kind = e.kind := by
  unfold EdgeRow.unlinkFrom
  split
  next => split <;> rfl
  next => rfl

variable (s : Store) (n : NodeRecord)

namespace Store

def deleteEdge (id : String) : Store := { s with edges := s.edges.erase id }

def unlinkInto (id : String) : Store :=
  { s with edges := s.edges.update (EdgeRow.unlinkFrom id) (EdgeRow.unlinkFrom_id id) }

/-- Removes the node and every row keyed by it. Edges at the node stay. -/
def deleteNode (id : String) : Store :=
  { s with
    targets := s.targets.erase id
    alsoScopes := s.alsoScopes.filter (fun r => decide (r.nodeId ≠ id))
    suffixes := s.suffixes.filter (fun r => decide (r.nodeId ≠ id))
    untypedCalls := s.untypedCalls.filter (fun r => decide (r.nodeId ≠ id))
    nodes := s.nodes.erase id }

def deleteNamed (d : Diff) (s : Store) (id : String) : Store :=
  if id ∈ d.upsertNodes.map (·.id) then s.deleteNode id else (s.unlinkInto id).deleteNode id

def replaceUntypedCalls : Store :=
  { s with
    untypedCalls := n.untypedCalls.foldl (fun t name => t.insertIgnore ⟨name, n.id⟩)
      (s.untypedCalls.filter (fun r => decide (r.nodeId ≠ n.id))) }

def replaceSuffixes : Store :=
  { s with
    suffixes := (QualifiedPath.suffixes n.qualifiedPath n.aliasPaths).foldl (fun t suffix => t.insertIgnore ⟨suffix, n.id⟩)
      (s.suffixes.filter (fun r => decide (r.nodeId ≠ n.id))) }

def targetRow (t : PlaceholderTargetRecord) : TargetRow where
  nodeId := n.id
  scopeKind := t.scopeKind
  scope := t.scope
  keyKind := t.keyKind
  key := t.key
  fromContainer := t.fromContainer
  fromFile := n.filePath
  keyPath := t.keyPath

def replaceTarget : Store :=
  let targets := s.targets.erase n.id
  let alsoScopes := s.alsoScopes.filter (fun r => decide (r.nodeId ≠ n.id))
  match n.target with
  | none => { s with targets, alsoScopes }
  | some t =>
    { s with
      targets := targets.put (targetRow n t)
      alsoScopes := t.alsoScopes.foldl (fun a scope => a.insertIgnore ⟨n.id, scope⟩) alsoScopes }

def upsertNode : Store :=
  ((replaceSuffixes { s with nodes := s.nodes.put n.toNodeRow } n).replaceUntypedCalls n).replaceTarget n

/-- A re-sent edge starts unlinked and keeps a stored specifier it does not bring. -/
def upsertEdge (e : EdgeRow) : Store :=
  let stored := (s.edges.find? e.id).bind (·.specifier)
  { s with edges := s.edges.put { e with linkedFrom := none, specifier := e.specifier.or stored } }

end Store

end GMesh
