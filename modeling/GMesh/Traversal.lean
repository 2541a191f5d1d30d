import GMesh.WalkQuery
import GMesh.KeepFirst

namespace GMesh

inductive TruncatedBy
  | maxDepth | maxFanout | explorationBudget
  deriving DecidableEq, Repr

structure TraversalOptions extends WalkShape where
  startNodeId : String
  explorationBudget : Nat

structure ReachedNode where
  node : NodeRow
  depth : Nat
  deriving DecidableEq, Repr

def ReachedNode.id (r : ReachedNode) : String := r.node.id

def ReachedNode.visited (r : ReachedNode) : VisitedNode := ⟨r.node.id, r.depth⟩

structure TraversalResult (τ : Type) where
  nodes : List ReachedNode
  edges : List EdgeRow
  visitedRows : Nat
  truncated : Bool
  truncatedBy : Option TruncatedBy
  frontierNodes : List String
  resumeToken : Option τ

structure JoinedRow where
  node : NodeRow
  depth : Nat
  edge : Option EdgeRow
  deriving DecidableEq, Repr

def JoinedRow.reached (r : JoinedRow) : ReachedNode := ⟨r.node, r.depth⟩

def EdgeRow.record (e : EdgeRow) : EdgeRow := { e with linkedFrom := none, specifier := none }

variable (g : Graph)

/-- `JOIN nodes` drops a row without a node, `LEFT JOIN edges` keeps a seed. -/
def joinRow (w : WalkRow) : Option JoinedRow :=
  (g.nodes.find? w.nodeId).map fun n =>
    ⟨n, w.depth, w.edgeId.bind fun id => (g.edges.find? id).map EdgeRow.record⟩

/-- `ORDER BY w.depth ASC, w.node_id ASC`. -/
def JoinedRow.SortsBefore (a b : JoinedRow) : Prop :=
  a.depth < b.depth ∨ (a.depth = b.depth ∧ a.node.id ≤ b.node.id)

instance (a b : JoinedRow) : Decidable (a.SortsBefore b) :=
  inferInstanceAs (Decidable (_ ∨ _))

def runWalk (cte : List WalkRow) : List JoinedRow :=
  (cte.filterMap (joinRow g)).insertionSort JoinedRow.SortsBefore

variable (shape : WalkShape)

/-- Some expanded node has more matching edges than the walk follows. -/
def fanoutCut (cte : List WalkRow) : Bool :=
  cte.any (fun w => decide (w.depth < shape.maxDepth) &&
    decide (shape.maxFanout < (matchingFrom g shape w.nodeId).length))

/-- Some node on the depth boundary leads to a node the walk never reached. -/
def depthCut (cte : List WalkRow) : Bool :=
  cte.any (fun w => decide (w.depth = shape.maxDepth) &&
    (matchingFrom g shape w.nodeId).any
      (fun e => !(cte.map WalkRow.nodeId).contains (e.otherEnd shape.direction)))

def analyzeCuts (cte : List WalkRow) : Option TruncatedBy :=
  if fanoutCut g shape cte then some .maxFanout
  else if depthCut g shape cte then some .maxDepth
  else none

def frontierNodes (truncatedBy : Option TruncatedBy) (reached : List VisitedNode) (maxDepth : Nat) :
    List String :=
  match truncatedBy with
  | some .maxDepth => (reached.filter (fun v => v.depth == maxDepth)).map VisitedNode.id
  | _ => []

def continuation {τ : Type} (codec : TokenCodec ResumeState τ) (truncatedBy : Option TruncatedBy)
    (state : ResumeState) : Option τ :=
  match truncatedBy with
  | some .explorationBudget => some (codec.encode state)
  | _ => none

def TraversalResult.report {τ : Type} (codec : TokenCodec ResumeState τ) (state : ResumeState)
    (nodes : List ReachedNode) (edges : List EdgeRow) (visitedRows : Nat)
    (truncatedBy : Option TruncatedBy) : TraversalResult τ where
  nodes := nodes
  edges := edges
  visitedRows := visitedRows
  truncated := truncatedBy.isSome
  truncatedBy := truncatedBy
  frontierNodes := GMesh.frontierNodes truncatedBy state.visited state.maxDepth
  resumeToken := continuation codec truncatedBy state

def traverse {τ : Type} (order : ScanOrder) (codec : TokenCodec ResumeState τ) (g : Graph)
    (options : TraversalOptions) : TraversalResult τ :=
  let cte := walkCte order g options.toWalkShape options.startNodeId options.explorationBudget
  let rows := runWalk g cte
  let nodes := keepFirst ReachedNode.id [] (rows.map JoinedRow.reached)
  let edges := keepFirst EdgeRow.id [] (rows.filterMap JoinedRow.edge)
  let visitedRows := rows.length
  let truncatedBy := if options.explorationBudget ≤ visitedRows then some .explorationBudget
    else analyzeCuts g options.toWalkShape cte
  .report codec { options.toWalkShape with
    visited := nodes.map ReachedNode.visited
    walked := edges.map EdgeRow.id } nodes edges visitedRows truncatedBy

def VisitedNode.SortsBefore (a b : VisitedNode) : Prop :=
  a.depth < b.depth ∨ (a.depth = b.depth ∧ a.id ≤ b.id)

instance (a b : VisitedNode) : Decidable (a.SortsBefore b) :=
  inferInstanceAs (Decidable (_ ∨ _))

def resumeState {τ : Type} (order : ScanOrder) (codec : TokenCodec ResumeState τ) (g : Graph)
    (state : ResumeState) (explorationBudget : Nat) : TraversalResult τ :=
  let cte := resumeCte order g state (state.visited.length + explorationBudget)
  let rows := (runWalk g cte).filter (fun r => r.edge.isSome)
  let nodes := keepFirst ReachedNode.id state.visitedIds (rows.map JoinedRow.reached)
  let edges := keepFirst EdgeRow.id [] (rows.filterMap JoinedRow.edge)
  let visitedRows := rows.length
  let truncatedBy := if explorationBudget ≤ visitedRows then some .explorationBudget
    else analyzeCuts g state.toWalkShape cte
  .report codec { state with
    visited := (state.visited ++ nodes.map ReachedNode.visited).insertionSort VisitedNode.SortsBefore
    walked := (state.walked ++ edges.map EdgeRow.id).insertionSort (· ≤ ·) } nodes edges visitedRows truncatedBy

def resume {τ : Type} (order : ScanOrder) (codec : TokenCodec ResumeState τ) (g : Graph) (token : τ)
    (explorationBudget : Nat) : Except String (TraversalResult τ) := do
  let state ← codec.decode token
  return resumeState order codec g state explorationBudget

end GMesh
