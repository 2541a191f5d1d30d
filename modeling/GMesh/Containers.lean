import GMesh.KeepFirst
import GMesh.Store
import Mathlib.Data.List.Sort

namespace GMesh

/-- The ids core derives by hashing, with no collision. -/
structure ContainerIds where
  containerId : ContainerKey → String
  definesEdgeId : String → String → String
  containerId_injective : Function.Injective containerId
  definesEdgeId_injective : ∀ {c m c' m' : String},
    definesEdgeId c m = definesEdgeId c' m' → c = c' ∧ m = m'

def nonDeclarationNativeKinds : List String :=
  ["pending_symbol", "reexport", "resolved_module", "external_module", "container"]

/-- The container a node is a member of. An empty key names none. -/
def membership (language : String) (container nativeKind : Option String) : Option ContainerKey :=
  match container with
  | none => none
  | some key =>
    if key = "" then none
    else if nativeKind.any (fun kind => decide (kind ∈ nonDeclarationNativeKinds)) then none
    else some (language, key)

def NodeRow.membership (n : NodeRow) : Option ContainerKey :=
  GMesh.membership n.language n.container n.nativeKind

structure Pending where
  members : List (String × ContainerKey) := []
  parents : List (ContainerKey × Option String) := []
  touched : List ContainerKey := []

variable (d : Diff)

namespace Diff

def lastRecord (id : String) : Option NodeRecord :=
  lastWhere (fun n => decide (n.id = id)) d.upsertNodes

def finalMembership (id : String) : Option ContainerKey :=
  (d.lastRecord id).bind (fun n => n.membership)

def memberParents : List (ContainerKey × Option String) :=
  d.upsertNodes.filterMap (fun n => n.membership.map (fun key => (key, n.containerParent)))

def namedIds : List String :=
  keepFirst (fun id => id) [] (d.deleteNodeIds ++ d.upsertNodes.map (·.id))

def finalMembers : List (String × ContainerKey) :=
  ((keepFirst (fun n : NodeRecord => n.id) [] d.upsertNodes.reverse).filterMap
    (fun n => (d.finalMembership n.id).map (fun key => (n.id, key)))).reverse

end Diff

def keyLE (a b : ContainerKey) : Bool := decide (a.1 < b.1) || (decide (a.1 = b.1) && decide (a.2 ≤ b.2))

def keySet (keys : List ContainerKey) : List ContainerKey :=
  keys.dedup.insertionSort (fun a b => keyLE a b = true)

variable (s : Store)

namespace Store

def memberOf (id : String) : Option ContainerKey :=
  (s.nodes.find? id).bind NodeRow.membership

/-- The container the diff takes a node out of, be it for good or until `attach`. -/
def leaves (d : Diff) (id : String) : Option ContainerKey :=
  match s.memberOf id with
  | none => none
  | some was => if d.finalMembership id ≠ some was ∨ id ∈ d.deleteNodeIds then some was else none

def dropMember (ids : ContainerIds) (key : ContainerKey) (s : Store) (id : String) : Store :=
  s.deleteEdge (ids.definesEdgeId (ids.containerId key) id)

def detach (ids : ContainerIds) (s : Store) (d : Diff) : Store × Option Pending :=
  if d.upsertNodes.any (fun n => n.membership.isSome) = false ∧ s.containers.rows = [] then (s, none)
  else
    let detached := d.namedIds.foldl (fun t id =>
      match s.leaves d id with
      | some was => t.dropMember ids was id
      | none => t) s
    let touched := d.namedIds.filterMap (s.leaves d) ++ d.finalMembers.map Prod.snd
      ++ d.memberParents.map Prod.fst
    (detached, some ⟨d.finalMembers, d.memberParents, keySet touched⟩)

end Store

def containerNode (ids : ContainerIds) (key : ContainerKey) : NodeRow where
  id := ids.containerId key
  kind := .module
  name := key.2
  qualifiedName := key.2
  visibility := .everywhere
  language := key.1
  nativeKind := some "container"

def definesEdge (ids : ContainerIds) (key : ContainerKey) (member : String) : EdgeRow where
  id := ids.definesEdgeId (ids.containerId key) member
  fromId := ids.containerId key
  toId := member
  kind := .defines
  source := .syntactic
  engine := "g-mesh-core"
  resolved := true

variable (parents : List (ContainerKey × Option String)) (nodeId : String)

namespace Store

def ensureContainer (ids : ContainerIds) (s : Store) (key : ContainerKey) : Store :=
  { s with
    nodes := s.nodes.insertIgnore (containerNode ids key)
    containers := s.containers.insertIgnore { nodeId := ids.containerId key, language := key.1, key := key.2 } }

def attachMember (ids : ContainerIds) (s : Store) (member : String × ContainerKey) : Store :=
  let ensured := s.ensureContainer ids member.2
  { ensured with edges := ensured.edges.insertIgnore (definesEdge ids member.2 member.1) }

/-- The parent a list of member records leaves in force: the last one sent. -/
def inForce (key : ContainerKey) : Option (Option String) :=
  (lastWhere (fun p => decide (p.1 = key)) parents).map Prod.snd

def setParent (c : ContainerRow) : ContainerRow :=
  match inForce parents c.ofKey with
  | some parent => { c with parentKey := parent }
  | none => c

theorem setParent_nodeId (c : ContainerRow) : (setParent parents c).nodeId = c.nodeId := by
  unfold setParent
  split <;> rfl

def applyParents (s : Store) (parents : List (ContainerKey × Option String)) : Store :=
  if parents = [] then s
  else { s with containers := s.containers.update (setParent parents) (setParent_nodeId parents) }

def deleteContainer : Store :=
  let cut := { s with
    edges := (s.edges.filter (fun e => decide (e.fromId ≠ nodeId))).filter (fun e => decide (e.toId ≠ nodeId))
    containers := s.containers.erase nodeId }
  cut.deleteNode nodeId

/-- `SELECT COUNT(*) FROM edges WHERE fromId = ? AND kind = 'DEFINES'`. -/
def definesCount : Nat :=
  (s.edges.rows.filter (fun e => decide (e.fromId = nodeId ∧ e.kind = .defines))).length

def setCount (count : Nat) (c : ContainerRow) : ContainerRow :=
  if c.nodeId = nodeId then { c with memberCount := count } else c

theorem setCount_nodeId (count : Nat) (c : ContainerRow) : (setCount nodeId count c).nodeId = c.nodeId := by
  unfold setCount
  split <;> rfl

/-- Stores the member count of a container, or deletes it when it is left empty. -/
def recount (ids : ContainerIds) (s : Store) (key : ContainerKey) : Store :=
  let nodeId := ids.containerId key
  let count := s.definesCount nodeId
  if count = 0 then s.deleteContainer nodeId
  else { s with containers := s.containers.update (setCount nodeId count) (setCount_nodeId nodeId count) }

def attach (ids : ContainerIds) (s : Store) (p : Pending) : Store :=
  p.touched.foldl (recount ids) ((p.members.foldl (attachMember ids) s).applyParents p.parents)

def writeRows (d : Diff) : Store :=
  let pruned := d.deleteNodeIds.foldl (deleteNamed d) (d.deleteEdgeIds.foldl deleteEdge s)
  d.upsertEdges.foldl upsertEdge (d.upsertNodes.foldl upsertNode pruned)

def writeDiff (ids : ContainerIds) (s : Store) (d : Diff) : Store :=
  match s.detach ids d with
  | (detached, some pending) => (detached.writeRows d).attach ids pending
  | (detached, none) => detached.writeRows d

def applyDiff (ids : ContainerIds) (s : Store) (d : Diff) : Store :=
  if d.isEmpty then s else s.writeDiff ids d

def keeps (d : Diff) (n : NodeRecord) : Bool :=
  decide (n.id ∉ d.deleteNodeIds) && s.nodes.contains n.id

def insertedPart (d : Diff) : Diff :=
  { d with upsertNodes := d.upsertNodes.filter (fun n => !s.keeps d n) }

/-- A node already stored keeps its row and takes only its untyped calls. -/
def applySemanticDiff (ids : ContainerIds) (s : Store) (d : Diff) : Store :=
  if d.isEmpty then s
  else (d.upsertNodes.filter (s.keeps d)).foldl replaceUntypedCalls (s.applyDiff ids (s.insertedPart d))

variable {ids : ContainerIds}

theorem applyDiff_eq (s : Store) (d : Diff) :
    s.applyDiff ids d = ((s.detach ids d).1.writeRows d).attach ids ((s.detach ids d).2.getD {}) := by
  unfold applyDiff
  split
  next he =>
    rw [Diff.eq_empty he]
    unfold detach
    split <;> rfl
  next =>
    unfold writeDiff
    rcases s.detach ids d with ⟨t, _ | p⟩ <;> rfl

theorem applySemanticDiff_eq (s : Store) (d : Diff) : s.applySemanticDiff ids d =
    (d.upsertNodes.filter (s.keeps d)).foldl replaceUntypedCalls (s.applyDiff ids (s.insertedPart d)) := by
  unfold applySemanticDiff
  split
  next he =>
    rw [Diff.eq_empty he]
    rfl
  next => rfl

end Store

end GMesh
