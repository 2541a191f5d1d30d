import GMesh.SymbolLinks

namespace GMesh

structure DeclarationRow where
  nodeId : String
  ordinal : Int
  startLine : Int := 0
  startCol : Int := 0
  endLine : Int := 0
  endCol : Int := 0
  signature : Option String := none
  hasBody : Bool := false
  deriving DecidableEq, Repr

abbrev DeclarationTable := KeyedTable (fun r : DeclarationRow => (r.nodeId, r.ordinal))

structure IndexFile extends Store where
  declarations : DeclarationTable := ∅

def containerNativeKind : String := "container"

section Children

variable {κ ρ : Type} [DecidableEq κ] [DecidableEq ρ] {key : ρ → κ} (owner : ρ → String)

def changedOwners (staged live : KeyedTable key) (stagedIds : List String) : List String :=
  let kept := live.rows.filter (fun r => decide (owner r ∈ stagedIds))
  (staged.rows.filter (fun r => decide (r ∉ kept))).map owner ++
    (kept.filter (fun r => decide (r ∉ staged.rows))).map owner

/-- One child table after the swap: rows of deleted and upserted nodes go, staged ones come. -/
def swapChildren (live staged : KeyedTable key) (deleted upserted : List String) : KeyedTable key :=
  (live.filter (fun r => !decide (owner r ∈ deleted ∨ owner r ∈ upserted))).copy staged
    (fun r => decide (owner r ∈ upserted))

end Children

structure Plan where
  keepNodes : List String
  deleteNodes : List String
  upsertNodes : List String
  unchangedNodes : List String
  deleteEdges : List String
  upsertEdges : List String
  pendingFiles : List String
  deleteContainers : List String
  upsertContainers : List String
  deriving DecidableEq, Repr

structure Reindex where
  staging : IndexFile
  live : IndexFile
  language : String
  keepSemanticPlaceholders : Bool

namespace Reindex

variable (r : Reindex)

def stagedIds : List String := r.staging.nodes.rows.map (·.id)

def stagedEdgeIds : List String := r.staging.edges.rows.map (·.id)

def liveNodes : List NodeRow := r.live.nodes.rows.filter (fun n => decide (n.language = r.language))

def liveIds : List String := r.liveNodes.map (·.id)

def keepNodes : List String :=
  if r.keepSemanticPlaceholders then
    (r.liveNodes.filter (fun n => isPlaceholder n && decide (n.id ∉ r.stagedIds))).map (·.id)
  else []

def deleteNodes : List String := r.liveIds.filter (fun id => decide (id ∉ r.stagedIds ∧ id ∉ r.keepNodes))

def upsertNodes : List String :=
  ((r.staging.nodes.rows.filter (fun n => decide (n.language = r.language))).filter
    (fun n => decide (n ∉ r.liveNodes))).map (·.id) ++
  changedOwners (·.nodeId) r.staging.declarations r.live.declarations r.stagedIds ++
  changedOwners (·.nodeId) r.staging.targets r.live.targets r.stagedIds ++
  changedOwners (·.nodeId) r.staging.alsoScopes r.live.alsoScopes r.stagedIds ++
  changedOwners (·.nodeId) r.staging.suffixes r.live.suffixes r.stagedIds ++
  changedOwners (·.nodeId) r.staging.untypedCalls r.live.untypedCalls r.stagedIds

def unchangedNodes : List String :=
  (r.staging.nodes.rows.filter (fun n => decide (n.id ∈ r.liveIds ∧ n.id ∉ r.upsertNodes ∧
    n.nativeKind ≠ some containerNativeKind))).map (·.id)

def survives (id : String) : Bool :=
  decide (id ∈ r.stagedIds) || decide (id ∈ r.keepNodes) ||
    r.live.nodes.rows.any (fun n => decide (n.id = id ∧ n.language ≠ r.language))

def dropped (e : EdgeRow) : Bool :=
  !r.survives e.toId ||
    decide (e.source = .syntactic ∧ e.fromId ∈ r.unchangedNodes ∧ e.id ∉ r.stagedEdgeIds)

def deleteEdges : List String :=
  (r.live.edges.rows.filter (fun e => decide (e.fromId ∈ r.liveIds ∨ e.toId ∈ r.liveIds) &&
    if e.fromId ∈ r.unchangedNodes ∨ e.fromId ∈ r.keepNodes then r.dropped e
    else decide (e.id ∉ r.stagedEdgeIds))).map (·.id)

def upsertEdges : List String :=
  ((r.staging.edges.rows.filter (fun s => decide (s ∉ r.live.edges.rows))).filter (fun s =>
    decide (s.fromId ∉ r.unchangedNodes) ||
    r.live.edges.rows.any (fun t => decide (t.id = s.id ∧ t.source = .syntactic)) ||
    (r.live.edges.rows.any (fun d => decide (d.fromId = s.fromId ∧ d.kind = s.kind) && r.dropped d) &&
      !r.live.edges.rows.any (fun l => decide (l.id = s.id) && r.survives l.toId)))).map (·.id)

def pendingFiles : List String :=
  ((r.staging.nodes.rows.filter (fun n =>
    decide (n.id ∈ r.upsertNodes ∨
      n.id ∈ (r.staging.edges.rows.filter (fun e => decide (e.id ∈ r.upsertEdges))).map (·.fromId) ∨
      n.id ∈ (r.live.edges.rows.filter (fun e => decide (e.id ∈ r.deleteEdges))).map (·.fromId)) &&
    r.staging.nodes.rows.any (fun f => decide (f.kind = .file ∧ f.filePath = n.filePath)))).map (·.filePath)).dedup

def deleteContainers : List String :=
  (r.live.containers.rows.filter (fun c => decide (c.language = r.language ∧
    c.nodeId ∉ r.staging.containers.rows.map (·.nodeId)))).map (·.nodeId)

def upsertContainers : List String :=
  ((r.staging.containers.rows.filter (fun c => decide (c.language = r.language))).filter (fun c =>
    decide (c ∉ r.live.containers.rows.filter (fun l => decide (l.language = r.language))))).map (·.nodeId)

def planAttached : Plan where
  keepNodes := r.keepNodes
  deleteNodes := r.deleteNodes
  upsertNodes := r.upsertNodes
  unchangedNodes := r.unchangedNodes
  deleteEdges := r.deleteEdges
  upsertEdges := r.upsertEdges
  pendingFiles := r.pendingFiles
  deleteContainers := r.deleteContainers
  upsertContainers := r.upsertContainers

end Reindex

/-- The planned deletes from live, then the planned upserts copied from staging. -/
def swapAttached (live staging : IndexFile) (plan : Plan) : IndexFile where
  edges := (live.edges.filter (fun e => decide (e.id ∉ plan.deleteEdges))).copy staging.edges
    (fun e => decide (e.id ∈ plan.upsertEdges))
  declarations := swapChildren (·.nodeId) live.declarations staging.declarations plan.deleteNodes plan.upsertNodes
  targets := swapChildren (·.nodeId) live.targets staging.targets plan.deleteNodes plan.upsertNodes
  alsoScopes := swapChildren (·.nodeId) live.alsoScopes staging.alsoScopes plan.deleteNodes plan.upsertNodes
  suffixes := swapChildren (·.nodeId) live.suffixes staging.suffixes plan.deleteNodes plan.upsertNodes
  untypedCalls := swapChildren (·.nodeId) live.untypedCalls staging.untypedCalls plan.deleteNodes plan.upsertNodes
  containers := (live.containers.filter (fun c =>
    !decide (c.nodeId ∈ plan.deleteContainers ∨ c.nodeId ∈ plan.deleteNodes))).copy staging.containers
      (fun c => decide (c.nodeId ∈ plan.upsertContainers))
  nodes := (live.nodes.filter (fun n => decide (n.id ∉ plan.deleteNodes))).copy staging.nodes
    (fun n => decide (n.id ∈ plan.upsertNodes))

def Reindex.swapped (r : Reindex) : IndexFile := swapAttached r.live r.staging r.planAttached

end GMesh
