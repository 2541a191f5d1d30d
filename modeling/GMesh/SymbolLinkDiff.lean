import GMesh.LinkPass

namespace GMesh

/-- A scope and the name something is published under there. -/
abbrev Address := Scope × String

variable (n : NodeRow)

namespace NodeRow

def publishedScopes : List Scope :=
  match n.visibility with
  | .everywhere => Scope.ofNode n.filePath n.language n.container
  | .container => Scope.ofNode n.filePath n.language n.container
  | .file => (Scope.containerOf n.language n.container).toList

def publishedAddresses : List Address := n.publishedScopes.map (fun scope => (scope, n.name))

/-- The addresses a record publishes that re-export chains are walked back up from. -/
def namedSeeds : List Address :=
  if isReexport n then (Scope.ofNode n.filePath n.language n.container).map (fun scope => (scope, n.name))
  else if isDeclaration n.nativeKind then n.publishedAddresses
  else []

def exactSeeds : List Address :=
  if isReexport n ∨ isDeclaration n.nativeKind = false then []
  else
    (if n.qualifiedName ≠ n.name then n.publishedScopes.map (fun scope => (scope, n.qualifiedName)) else []) ++
      (if n.visibility = .file then [(.file n.filePath, n.qualifiedName)] else [])

/-- Where the head of a member stands, with the head's qualified name. -/
def headBeside : Option (Scope × String) :=
  if isDeclaration n.nativeKind then
    (n.qualifiedPath.bind QualifiedPath.head).map (fun head => (homeScope n, head.display))
  else none

end NodeRow

namespace Diff

def namedSeeds (d : Diff) : List Address := d.upsertNodes.flatMap (fun n => n.namedSeeds)

def exactSeeds (d : Diff) : List Address := d.upsertNodes.flatMap (fun n => n.exactSeeds)

def askedHeads (d : Diff) : List (Scope × String) :=
  keepFirst (fun asked => asked) [] (d.upsertNodes.filterMap (fun n => n.headBeside))

def upsertedMembers (d : Diff) (key : ContainerKey) : Nat :=
  (d.finalMembers.filter (fun m => decide (m.2 = key))).length

end Diff

namespace Store

variable (s : Store) (d : Diff)

def headsOfMembers : List Address :=
  d.askedHeads.flatMap fun asked =>
    (s.nodes.rows.filter (fun n =>
      isDeclaration n.nativeKind && asked.1.holds n && decide (n.qualifiedName = asked.2))).flatMap
      NodeRow.publishedAddresses

def targetedAt (ofKind : NodeRow → Bool) (scope : Scope) : List (NodeRow × TargetRow) :=
  s.targets.rows.filterMap fun t =>
    ((s.nodes.find? t.nodeId).filter (fun n =>
      ofKind n && decide (Scope.fromRow t.scopeKind t.scope n.language = scope))).map (·, t)

def reexporters (a : Address) : List NodeRow :=
  let rows := (s.targetedAt isReexport a.1).filter (fun r => decide (r.2.keyKind = .name))
  if a.2 = reexportAllName then rows.map Prod.fst
  else
    (a.2 :: if a.2 ≠ defaultExportName then [reexportAllName] else []).flatMap fun key =>
      (rows.filter (fun r => decide (r.2.key = key))).map Prod.fst

/-- A whole-module re-export publishes under the same name, a named one under its own. -/
def republished (a : Address) : List Address :=
  (s.reexporters a).flatMap fun n =>
    (Scope.ofNode n.filePath n.language n.container).map
      (fun scope => (scope, if n.name = reexportAllName then a.2 else n.name))

def republishedFrom : Nat → List Address → List Address → List Address
  | 0, visited, frontier => keepFirst (fun a => a) visited frontier
  | left + 1, visited, frontier =>
    let fresh := keepFirst (fun a => a) visited frontier
    fresh ++ republishedFrom left (fresh ++ visited) (fresh.flatMap s.republished)

def republishedAddresses (seeds : List Address) : List Address := s.republishedFrom maxReexportDepth [] seeds

def waitingOnAHead (addresses : List Address) : List String :=
  (addresses.filter (fun a => decide (a.2 ≠ reexportAllName))).flatMap fun a =>
    ((s.targetedAt isPlaceholder a.1).filter (fun r =>
      decide (r.2.keyKind = .qualifiedName ∧ r.2.keyPath.bind QualifiedPath.headName = some a.2))).map (·.1.id)

/-- The placeholders at the addresses. A whole-module one takes its scope. -/
def waitingPlaceholders (addresses : List Address) : List String :=
  addresses.flatMap fun a =>
    ((s.targetedAt isPlaceholder a.1).filter (fun r =>
      decide (a.2 = reexportAllName ∨ r.2.key = a.2))).map (·.1.id)

/-- The containers that have no other members than those the diff upserted. -/
def newContainers : List ContainerKey :=
  (keySet (d.finalMembers.map Prod.snd)).filter fun key =>
    decide ((s.containers.rows.find? (fun c => decide (c.ofKey = key))).map (·.memberCount) =
      some (d.upsertedMembers key))

def childContainers (key : ContainerKey) : List ContainerKey :=
  (s.containers.rows.filter (fun c => decide (c.language = key.1 ∧ c.parentKey = some key.2))).map ContainerRow.ofKey

def containersBelow : Nat → List ContainerKey → List ContainerKey → List ContainerKey
  | 0, _, below => below
  | _, [], below => below
  | fuel + 1, key :: stack, below =>
    if key ∈ below then containersBelow fuel stack below
    else containersBelow fuel (s.childContainers key ++ stack) (key :: below)

def requestersBelowNewContainers : List String :=
  let fresh := s.newContainers d
  let below := s.containersBelow (fresh.length + s.containers.rows.length) fresh []
  let files := below.flatMap fun key =>
    (s.nodes.rows.filter (fun n => decide (n.language = key.1 ∧ n.container = some key.2))).map (·.filePath)
  (s.nodes.rows.filter (fun n => isPlaceholder n && decide (n.filePath ∈ files))).map (·.id)

def wokenIds : List String :=
  let addresses := s.republishedAddresses (d.namedSeeds ++ s.headsOfMembers d)
  (d.upsertNodes.filter (fun n => isPlaceholder n.toNodeRow)).map (·.id) ++
    s.waitingOnAHead addresses ++ s.waitingPlaceholders (addresses ++ d.exactSeeds) ++
    (d.upsertEdges.filter (fun e => (requiredTargetKind e.kind false).isSome)).map (·.toId) ++
    s.requestersBelowNewContainers d

def wokenPlaceholders : List Placeholder :=
  ((s.wokenIds d).dedup.insertionSort (· ≤ ·)).filterMap fun id =>
    ((s.nodes.find? id).filter isPlaceholder).bind s.placeholderOf

def linkDiff (rules : LinkRules) (d : Diff) : Store × Nat := s.link rules (s.wokenPlaceholders d)

end Store

def resolvedModuleNativeKind : String := "resolved_module"

def isResolvedModule : Bool :=
  decide (n.kind = .module ∧ n.nativeKind = some resolvedModuleNativeKind)

/-- A resolved import: the node to eliminate and the address it names. -/
structure ImportPlaceholder where
  id : String
  scopeKind : ScopeKind
  scope : String
  language : String
  deriving DecidableEq, Repr

def EdgeRow.importOnto (placeholder target : String) (e : EdgeRow) : EdgeRow :=
  if e.toId = placeholder ∧ e.kind = .imports then { e with toId := target, resolved := true } else e

theorem EdgeRow.importOnto_id (placeholder target : String) (e : EdgeRow) :
    (e.importOnto placeholder target).id = e.id := by
  unfold EdgeRow.importOnto
  split <;> rfl

namespace Store

variable (s : Store)

/-- `SELECT nodeId FROM containers WHERE language = ? AND key = ?`. -/
def findContainer (language key : String) : Option String :=
  (s.containers.rows.find? (fun c => decide (c.language = language ∧ c.key = key))).map (·.nodeId)

/-- `SELECT id FROM nodes WHERE kind = 'File' AND filePath = ?`. -/
def findFile (path : String) : Option String :=
  (s.nodes.rows.find? (fun n => decide (n.kind = .file ∧ n.filePath = path))).map (·.id)

def importTarget (p : ImportPlaceholder) : Option String :=
  match p.scopeKind with
  | .container => s.findContainer p.language p.scope
  | .file => s.findFile p.scope

def incident (id : String) : Bool := s.edges.rows.any (fun e => decide (e.fromId = id ∨ e.toId = id))

def repointImports (placeholder target : String) : Store :=
  { s with edges := s.edges.update (EdgeRow.importOnto placeholder target) (EdgeRow.importOnto_id placeholder target) }

/-- One placeholder's link: repoint its imports, then drop it when no edge touches it. -/
def linkImport (p : ImportPlaceholder) : Store :=
  match s.importTarget p with
  | none => s
  | some target =>
    let repointed := s.repointImports p.id target
    if repointed.incident p.id then repointed else repointed.deleteNode p.id

def linkImports (ps : List ImportPlaceholder) : Store := ps.foldl linkImport s

def importPlaceholderOf (t : TargetRow) : ImportPlaceholder where
  id := n.id
  scopeKind := t.scopeKind
  scope := t.scope
  language := n.language

def linkAllImports : Store :=
  s.linkImports ((s.nodes.rows.filter isResolvedModule).filterMap fun n =>
    (s.targets.find? n.id).map (importPlaceholderOf n))

def importsWaitingAt (scope : Scope) : List ImportPlaceholder :=
  (s.targetedAt isResolvedModule scope).map (fun r => importPlaceholderOf r.1 r.2)

end Store

namespace Diff

def importPlaceholders (d : Diff) : List ImportPlaceholder :=
  (d.upsertNodes.filter (fun n => isResolvedModule n.toNodeRow)).filterMap fun n =>
    n.target.map (fun t => Store.importPlaceholderOf n.toNodeRow (Store.targetRow n t))

def joinedScopes (d : Diff) : List Scope :=
  (d.upsertNodes.filter (fun n => decide (n.kind = .file))).map (fun n => .file n.filePath) ++
    (keySet (d.upsertNodes.filterMap (fun n => n.container.map (n.language, ·)))).map
      (fun key => .container key.1 key.2)

end Diff

namespace Store

/-- The placeholders a diff just applied could have made linkable, one per id. -/
def wokenImports (s : Store) (d : Diff) : List ImportPlaceholder :=
  keepFirst ImportPlaceholder.id []
    ((d.importPlaceholders ++ d.joinedScopes.flatMap s.importsWaitingAt).insertionSort (fun p q => p.id ≤ q.id))

def linkDiffImports (s : Store) (d : Diff) : Store := s.linkImports (s.wokenImports d)

end Store

end GMesh
