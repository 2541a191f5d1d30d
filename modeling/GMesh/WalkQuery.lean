import GMesh.Rows
import GMesh.FifoRun
import GMesh.DelimitedWords
import GMesh.TokenCodec
import Mathlib.Data.List.Sort

namespace GMesh

open List

structure WalkShape where
  direction : Direction
  edgeKind : Option EdgeKind := none
  maxDepth : Nat
  maxFanout : Nat
  deriving DecidableEq, Repr

structure WalkRow where
  nodeId : String
  edgeId : Option String
  depth : Nat
  path : List Char
  deriving DecidableEq, Repr

structure VisitedNode where
  id : String
  depth : Nat
  deriving DecidableEq, Repr

structure ResumeState extends WalkShape where
  visited : List VisitedNode
  walked : List String
  deriving DecidableEq, Repr

def ResumeState.visitedIds (state : ResumeState) : List String := state.visited.map VisitedNode.id

/-- The order of the edges of one expansion, which the query does not fix. -/
structure ScanOrder where
  scan : WalkRow → List EdgeRow → List EdgeRow
  perm : ∀ w es, (scan w es).Perm es

def ScanOrder.asListed : ScanOrder where
  scan := fun _ es => es
  perm := fun _ es => List.Perm.refl es

def matchingFrom (g : Graph) (shape : WalkShape) (nodeId : String) : List EdgeRow :=
  g.edges.rows.filter (fun c => c.thisEnd shape.direction == nodeId &&
    (shape.edgeKind.isNone || shape.edgeKind == some c.kind))

/-- `ORDER BY resolved DESC, id ASC`. -/
def EdgeRow.RanksBefore (a b : EdgeRow) : Prop :=
  (a.resolved = true ∧ b.resolved = false) ∨ (a.resolved = b.resolved ∧ a.id ≤ b.id)

instance (a b : EdgeRow) : Decidable (a.RanksBefore b) :=
  inferInstanceAs (Decidable (_ ∨ _))

def childEdges (g : Graph) (shape : WalkShape) (nodeId : String) : List EdgeRow :=
  ((matchingFrom g shape nodeId).insertionSort EdgeRow.RanksBefore).take shape.maxFanout

/-- `instr(w.path, '|' || id || '|') <> 0`. -/
def WalkRow.onPath (w : WalkRow) (id : String) : Bool :=
  decide (delimit '|' [id.toList] <:+: w.path)

def WalkRow.child (w : WalkRow) (shape : WalkShape) (e : EdgeRow) : WalkRow where
  nodeId := e.otherEnd shape.direction
  edgeId := some e.id
  depth := w.depth + 1
  path := w.path ++ (e.otherEnd shape.direction).toList ++ ['|']

/-- One expansion step; `extraFilter` is what a resumed walk adds to it. -/
def recursiveTerm (order : ScanOrder) (g : Graph) (shape : WalkShape)
    (extraFilter : WalkRow → EdgeRow → Bool) (w : WalkRow) : List WalkRow :=
  if w.depth < shape.maxDepth then
    ((order.scan w (childEdges g shape w.nodeId)).filter
      (fun e => !w.onPath (e.otherEnd shape.direction) && extraFilter w e)).map (w.child shape)
  else []

def seedRow (v : VisitedNode) : WalkRow where
  nodeId := v.id
  edgeId := none
  depth := v.depth
  path := delimit '|' [v.id.toList]

def walkCte (order : ScanOrder) (g : Graph) (shape : WalkShape) (startNodeId : String) (limit : Nat) :
    List WalkRow :=
  fifo (recursiveTerm order g shape (fun _ _ => true)) limit [seedRow ⟨startNodeId, 0⟩]

def resumeFilter (state : ResumeState) (w : WalkRow) (e : EdgeRow) : Bool :=
  (w.edgeId.isNone || !state.visitedIds.contains w.nodeId) &&
    (w.edgeId.isSome || !state.walked.contains e.id)

def resumeTerm (order : ScanOrder) (g : Graph) (state : ResumeState) : WalkRow → List WalkRow :=
  recursiveTerm order g state.toWalkShape (resumeFilter state)

def resumeCte (order : ScanOrder) (g : Graph) (state : ResumeState) (limit : Nat) : List WalkRow :=
  fifo (resumeTerm order g state) limit (state.visited.map seedRow)

variable {g : Graph} {shape : WalkShape} {nodeId : String} {e : EdgeRow}

theorem mem_matchingFrom :
    e ∈ matchingFrom g shape nodeId ↔ e ∈ g.edges ∧ e.thisEnd shape.direction = nodeId ∧
      (shape.edgeKind = none ∨ shape.edgeKind = some e.kind) := by
  simp [matchingFrom, KeyedTable.mem_def]

theorem matchingFrom_of_mem_childEdges (h : e ∈ childEdges g shape nodeId) : e ∈ matchingFrom g shape nodeId :=
  (perm_insertionSort _ _).mem_iff.mp (mem_of_mem_take h)

theorem mem_childEdges_of_fits (hfit : (matchingFrom g shape nodeId).length ≤ shape.maxFanout)
    (h : e ∈ matchingFrom g shape nodeId) : e ∈ childEdges g shape nodeId := by
  rw [childEdges, take_of_length_le (by rw [length_insertionSort]; exact hfit)]
  exact (perm_insertionSort _ _).mem_iff.mpr h

variable {extraFilter : WalkRow → EdgeRow → Bool}

theorem mem_recursiveTerm {order : ScanOrder} {w x : WalkRow} :
    x ∈ recursiveTerm order g shape extraFilter w ↔ w.depth < shape.maxDepth ∧
      ∃ e ∈ childEdges g shape w.nodeId, w.onPath (e.otherEnd shape.direction) = false ∧
        extraFilter w e ∧ w.child shape e = x := by
  unfold recursiveTerm
  split
  next h =>
    simp only [mem_map, List.mem_filter, Bool.and_eq_true, Bool.not_eq_true', h, true_and]
    constructor
    · rintro ⟨e, ⟨he, hp, hf⟩, rfl⟩
      exact ⟨e, (order.perm w _).mem_iff.mp he, hp, hf, rfl⟩
    · rintro ⟨e, he, hp, hf, rfl⟩
      exact ⟨e, ⟨(order.perm w _).mem_iff.mpr he, hp, hf⟩, rfl⟩
  next h => simp [h]

theorem recursiveTerm_depth {order : ScanOrder} {w x : WalkRow} (h : x ∈ recursiveTerm order g shape extraFilter w) :
    x.depth = w.depth + 1 := by
  obtain ⟨_, e, _, _, _, rfl⟩ := mem_recursiveTerm.mp h
  rfl

variable (order : ScanOrder)

theorem recursiveTerm_length_le (g : Graph) (shape : WalkShape) (extraFilter : WalkRow → EdgeRow → Bool)
    (w : WalkRow) : (recursiveTerm order g shape extraFilter w).length ≤ shape.maxFanout := by
  unfold recursiveTerm
  split
  next =>
    rw [length_map]
    refine (length_filter_le _ _).trans ?_
    rw [(order.perm w _).length_eq, childEdges, length_take]
    exact Nat.min_le_left _ _
  next => simp

/-- The rows of a walk without a limit; every limit reads a prefix of them. -/
theorem recursiveTerm_ends (g : Graph) (shape : WalkShape) (extraFilter : WalkRow → EdgeRow → Bool)
    (queue : List WalkRow) :
    ∃ rows : List WalkRow, ∀ limit, fifo (recursiveTerm order g shape extraFilter) limit queue = rows.take limit :=
  fifo_ends (fun _ _ hx => recursiveTerm_depth hx) (recursiveTerm_length_le order g shape extraFilter)
    (fun _ h => if_neg (Nat.not_lt.mpr h)) queue

end GMesh
