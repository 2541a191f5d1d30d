import GMesh.HopDistance
import GMesh.Traversal
import Mathlib.Data.Prod.Lex

namespace GMesh

open KeyedTable List Option

def WalkHop (g : Graph) (shape : WalkShape) (u v : String) : Prop :=
  ∃ e ∈ childEdges g shape u, e.otherEnd shape.direction = v

/-- `k` is the shortest hop count from `start` to `v` over the selected edges. -/
abbrev WalkDist (g : Graph) (shape : WalkShape) (start : String) (k : Nat) (v : String) : Prop :=
  IsDist (WalkHop g shape) start k v

def Graph.DelimiterFree (g : Graph) : Prop := ∀ n ∈ g.nodes, '|' ∉ n.id.toList

instance (g : Graph) : Decidable g.DelimiterFree := inferInstanceAs (Decidable (∀ n ∈ g.nodes, '|' ∉ n.id.toList))

variable {g : Graph} {e : EdgeRow}

theorem Graph.NoDangling.otherEnd (h : g.NoDangling) (he : e ∈ g.edges) (d : Direction) :
    ∃ n ∈ g.nodes, n.id = e.otherEnd d := by
  obtain ⟨hf, ht⟩ := h e he
  cases d with
  | outgoing => exact contains_iff.mp ht
  | incoming => exact contains_iff.mp hf

variable {shape : WalkShape} {v : String}

theorem childEdges_stored {u : String} (h : e ∈ childEdges g shape u) : e ∈ g.edges :=
  (mem_matchingFrom.mp (matchingFrom_of_mem_childEdges h)).1

theorem WalkHop.stored {u : String} (hd : g.NoDangling) (h : WalkHop g shape u v) : ∃ n ∈ g.nodes, n.id = v := by
  obtain ⟨e, he, rfl⟩ := h
  exact hd.otherEnd (childEdges_stored he) _

variable {start : String} {k : Nat}

theorem ReachIn.stored (hd : g.NoDangling) (hs : g.nodes.contains start)
    (h : ReachIn (WalkHop g shape) start k v) : ∃ n ∈ g.nodes, n.id = v := by
  cases h with
  | start => exact contains_iff.mp hs
  | step _ huv => exact huv.stored hd

section Path

variable {w : WalkRow} {ids : List String} (hpath : w.path = delimit '|' (ids.map String.toList))

include hpath

theorem mem_of_onPath (hv : '|' ∉ v.toList) (hfree : ∀ y ∈ ids, '|' ∉ y.toList) (h : w.onPath v) : v ∈ ids := by
  have hwords : ∀ u ∈ ids.map String.toList, '|' ∉ u := by
    intro u hu
    obtain ⟨y, hy, rfl⟩ := mem_map.mp hu
    exact hfree y hy
  rw [WalkRow.onPath, decide_eq_true_eq, hpath, delimit_infix_iff hv hwords] at h
  obtain ⟨y, hy, hyv⟩ := mem_map.mp h
  exact String.toList_inj.mp hyv ▸ hy

theorem not_mem_of_not_onPath (hp : w.onPath v = false) : v ∉ ids := by
  intro hm
  rw [WalkRow.onPath, decide_eq_false_iff_not, hpath] at hp
  exact hp (delimit_infix_of_mem (mem_map_of_mem hm))

theorem child_path (shape : WalkShape) (e : EdgeRow) :
    (w.child shape e).path = delimit '|' ((ids ++ [e.otherEnd shape.direction]).map String.toList) := by
  rw [map_append, map_singleton, delimit_append, WalkRow.child, hpath]

end Path

/-- A row reached by a shortest route, along nodes no farther than itself. -/
structure ShortestRow (g : Graph) (shape : WalkShape) (start : String) (w : WalkRow) : Prop where
  dist : WalkDist g shape start w.depth w.nodeId
  trail : ∃ ids : List String, w.path = delimit '|' (ids.map String.toList) ∧
    ∀ y ∈ ids, '|' ∉ y.toList ∧ ∃ j ≤ w.depth, WalkDist g shape start j y

section

variable {w : WalkRow} (h : ShortestRow g shape start w)

include h

theorem ShortestRow.onPath (hv : '|' ∉ v.toList) (hd : WalkDist g shape start k v)
    (hk : w.depth < k) : w.onPath v = false := by
  obtain ⟨ids, hpath, hids⟩ := h.trail
  refine Bool.eq_false_iff.mpr fun hp => ?_
  obtain ⟨j, hj, hjd⟩ := (hids v (mem_of_onPath hpath hv (fun y hy => (hids y hy).1) hp)).2
  have := hjd.unique hd
  omega

theorem ShortestRow.child (hv : '|' ∉ (e.otherEnd shape.direction).toList)
    (hd : WalkDist g shape start (w.depth + 1) (e.otherEnd shape.direction)) :
    ShortestRow g shape start (w.child shape e) where
  dist := hd
  trail := by
    obtain ⟨ids, hpath, hids⟩ := h.trail
    refine ⟨_, child_path hpath shape e, fun y hy => ?_⟩
    rcases mem_append.mp hy with hy | hy
    · obtain ⟨hf, j, hj, hjd⟩ := hids y hy
      exact ⟨hf, j, Nat.le_succ_of_le hj, hjd⟩
    · rw [mem_singleton.mp hy]
      exact ⟨hv, w.depth + 1, le_rfl, hd⟩

end

/-- A token's state: the visited nodes are the nearest, at their distances, and walked edges lead to them. -/
structure TokenInv (g : Graph) (start : String) (state : ResumeState) : Prop where
  startVisited : ⟨start, 0⟩ ∈ state.visited
  dist : ∀ v ∈ state.visited, WalkDist g state.toWalkShape start v.depth v.id
  within : ∀ v ∈ state.visited, v.depth ≤ state.maxDepth
  nodup : state.visitedIds.Nodup
  sorted : state.visited.Pairwise (fun a b => a.depth ≤ b.depth)
  level : ∀ v ∈ state.visited, ∀ k x, WalkDist g state.toWalkShape start k x → k < v.depth →
    x ∈ state.visitedIds
  walked : ∀ e ∈ g.edges, e.id ∈ state.walked → e.otherEnd state.direction ∈ state.visitedIds

def freshState (shape : WalkShape) (start : String) : ResumeState :=
  { shape with visited := [⟨start, 0⟩], walked := [] }

theorem freshState_inv (g : Graph) (shape : WalkShape) (start : String) :
    TokenInv g start (freshState shape start) where
  startVisited := mem_cons_self
  dist := by
    intro v hv
    rw [mem_singleton.mp hv]
    exact ⟨.start, fun _ _ => Nat.zero_le _⟩
  within := by
    intro v hv
    rw [mem_singleton.mp hv]
    exact Nat.zero_le _
  nodup := by simp [ResumeState.visitedIds, freshState]
  sorted := pairwise_singleton _ _
  level := by
    intro v hv k x _ hk
    rw [mem_singleton.mp hv] at hk
    exact absurd hk (Nat.not_lt_zero k)
  walked := by simp [freshState]

def seedChildren (order : ScanOrder) (g : Graph) (state : ResumeState) : List WalkRow :=
  (state.visited.map seedRow).flatMap (resumeTerm order g state)

def newRows (order : ScanOrder) (g : Graph) (state : ResumeState) (budget : Nat) : List WalkRow :=
  fifo (resumeTerm order g state) budget (seedChildren order g state)

theorem resumeCte_eq (order : ScanOrder) (g : Graph) (state : ResumeState) (budget : Nat) :
    resumeCte order g state (state.visited.length + budget) =
      state.visited.map seedRow ++ newRows order g state budget := by
  have h : fifo (resumeTerm order g state) _ _ = _ :=
    fifo_queue_first budget (state.visited.map seedRow) []
  rw [length_map, append_nil, nil_append] at h
  exact h

structure FromStart (start : String) (w : WalkRow) : Prop where
  trail : ∃ ids : List String, start ∈ ids ∧ w.path = delimit '|' (ids.map String.toList)
  away : w.edgeId ≠ none → w.nodeId ≠ start

section

variable {start : String} {w : WalkRow} (h : FromStart start w)

include h

theorem FromStart.child (shape : WalkShape) {e : EdgeRow} (hp : w.onPath (e.otherEnd shape.direction) = false) :
    FromStart start (w.child shape e) := by
  obtain ⟨ids, hmem, hpath⟩ := h.trail
  refine ⟨⟨_, mem_append_left _ hmem, child_path hpath shape e⟩, fun _ => ?_⟩
  exact (ne_of_mem_of_not_mem hmem (not_mem_of_not_onPath hpath hp)).symm

theorem FromStart.resumeFilter (shape : WalkShape) (e : EdgeRow) : resumeFilter (freshState shape start) w e := by
  cases hw : w.edgeId with
  | none => simp [GMesh.resumeFilter, freshState, hw]
  | some id =>
    have := h.away (by simp [hw])
    simp [GMesh.resumeFilter, freshState, ResumeState.visitedIds, hw, this]

end

theorem walkCte_eq_resumeCte (order : ScanOrder) (g : Graph) (shape : WalkShape) (start : String)
    (limit : Nat) :
    walkCte order g shape start limit = resumeCte order g (freshState shape start) limit := by
  refine fifo_congr (P := FromStart start) ?_ ?_ limit
  · intro w hw
    rw [mem_singleton.mp hw]
    exact ⟨⟨[start], mem_cons_self, rfl⟩, fun h => absurd rfl h⟩
  · intro w hw
    constructor
    · simp only [resumeTerm, recursiveTerm, hw.resumeFilter shape]
      rfl
    · intro x hx
      obtain ⟨_, e, _, hp, _, rfl⟩ := mem_recursiveTerm.mp hx
      exact hw.child shape hp

section Resumed

variable {order : ScanOrder} {g : Graph} {start : String} {state : ResumeState}

def RowEdge (g : Graph) (state : ResumeState) (w : WalkRow) : Prop :=
  ∃ e ∈ g.edges, w.edgeId = some e.id ∧ e.otherEnd state.direction = w.nodeId

variable {w x : WalkRow}

theorem resumeTerm_rowEdge (h : x ∈ resumeTerm order g state w) : RowEdge g state x := by
  obtain ⟨_, e, he, _, _, rfl⟩ := mem_recursiveTerm.mp h
  exact ⟨e, childEdges_stored he, rfl, rfl⟩

/-- A row is reached in as many hops as its depth says, within the depth limit. -/
def RowReached (g : Graph) (start : String) (state : ResumeState) (w : WalkRow) : Prop :=
  ReachIn (WalkHop g state.toWalkShape) start w.depth w.nodeId ∧ w.depth ≤ state.maxDepth

theorem resumeTerm_reached (hw : RowReached g start state w) (h : x ∈ resumeTerm order g state w) :
    RowReached g start state x := by
  obtain ⟨hlt, e, he, _, _, rfl⟩ := mem_recursiveTerm.mp h
  exact ⟨.step hw.1 ⟨e, he, rfl⟩, hlt⟩

theorem seedRow_reached (hi : TokenInv g start state) {v : VisitedNode} (hv : v ∈ state.visited) :
    RowReached g start state (seedRow v) :=
  ⟨(hi.dist v hv).reach, hi.within v hv⟩

theorem mem_seedChildren :
    x ∈ seedChildren order g state ↔ ∃ v ∈ state.visited, x ∈ resumeTerm order g state (seedRow v) := by
  simp [seedChildren, mem_flatMap]

theorem newRows_rowEdge (order : ScanOrder) (g : Graph) (state : ResumeState) (budget : Nat) :
    ∀ w ∈ newRows order g state budget, RowEdge g state w := by
  refine fifo_forall ?_ (fun _ _ _ hx => resumeTerm_rowEdge hx) budget
  intro w hw
  obtain ⟨v, _, hw⟩ := mem_seedChildren.mp hw
  exact resumeTerm_rowEdge hw

theorem seedChildren_reached (hi : TokenInv g start state) :
    ∀ x ∈ seedChildren order g state, RowReached g start state x := by
  intro x hx
  obtain ⟨v, hv, hx⟩ := mem_seedChildren.mp hx
  exact resumeTerm_reached (seedRow_reached hi hv) hx

theorem seedChildren_not_walked (h : x ∈ seedChildren order g state) {id : String} (hid : x.edgeId = some id) :
    id ∉ state.walked := by
  obtain ⟨v, hv, hx⟩ := mem_seedChildren.mp h
  obtain ⟨_, e, _, _, hf, rfl⟩ := mem_recursiveTerm.mp hx
  cases hid
  simpa [resumeFilter, seedRow] using hf

theorem not_visited_of_expands (hw : w.edgeId ≠ none) (hne : resumeTerm order g state w ≠ []) :
    w.nodeId ∉ state.visitedIds := by
  obtain ⟨x, hx⟩ := exists_mem_of_ne_nil _ hne
  obtain ⟨_, e, _, _, hf, _⟩ := mem_recursiveTerm.mp hx
  obtain ⟨id, hid⟩ := ne_none_iff_exists'.mp hw
  simpa [resumeFilter, hid] using hf

theorem seedChildren_levelQueue (order : ScanOrder) (hi : TokenInv g start state) :
    LevelQueue (resumeTerm order g state) WalkRow.depth (seedChildren order g state) where
  sorted := by
    refine flatMap_step_sorted (fun _ _ hx => recursiveTerm_depth hx) ?_
    exact pairwise_map.mpr hi.sorted
  span := by
    intro w hw hne x hx
    obtain ⟨v, hv, hx⟩ := mem_seedChildren.mp hx
    rw [recursiveTerm_depth hx]
    refine Nat.succ_le_succ ?_
    by_contra hlt
    obtain ⟨e, _, hedge, _⟩ : RowEdge g state w := by
      obtain ⟨u, _, hw⟩ := mem_seedChildren.mp hw
      exact resumeTerm_rowEdge hw
    obtain ⟨j, hj, hdist⟩ := (seedChildren_reached hi w hw).1.exists_isDist
    refine not_visited_of_expands (by simp [hedge]) hne (hi.level v hv j w.nodeId hdist ?_)
    simp only [seedRow] at hlt
    omega

/-- The rows a resumed walk reads behind its seeds when no budget cuts it. -/
structure WholeRows (order : ScanOrder) (g : Graph) (start : String) (state : ResumeState)
    (rows : List WalkRow) : Prop where
  take : ∀ budget, newRows order g state budget = rows.take budget
  edge : ∀ w ∈ rows, RowEdge g state w
  reached : ∀ w ∈ rows, RowReached g start state w
  sorted : rows.Pairwise (fun a b => a.depth ≤ b.depth)
  complete : ∀ k x, WalkDist g state.toWalkShape start k x → k ≤ state.maxDepth →
    x ∉ state.visitedIds → ∃ w ∈ rows, w.nodeId = x ∧ w.depth = k
  unwalked : ∀ w, rows.head? = some w → ∀ id, w.edgeId = some id → id ∉ state.walked

/-- Every node within the limit that is not visited has a row by a shortest route. -/
theorem exists_shortestRow {rows : List WalkRow} (hi : TokenInv g start state) (hd : g.NoDangling)
    (hf : g.DelimiterFree) (hs : g.nodes.contains start)
    (hseeds : ∀ w ∈ seedChildren order g state, w ∈ rows)
    (hedge : ∀ w ∈ rows, RowEdge g state w)
    (hclosed : ∀ w ∈ rows, ∀ x ∈ resumeTerm order g state w, x ∈ rows) (k : Nat) {x : String}
    (hx : WalkDist g state.toWalkShape start k x) (hk : k ≤ state.maxDepth)
    (hnew : x ∉ state.visitedIds) :
    ∃ w ∈ rows, w.nodeId = x ∧ ShortestRow g state.toWalkShape start w := by
  have hfree : ∀ j y, WalkDist g state.toWalkShape start j y → '|' ∉ y.toList := by
    intro j y hy
    obtain ⟨n, hn, rfl⟩ := hy.reach.stored hd hs
    exact hf n hn
  induction k generalizing x with
  | zero =>
    rw [hx.eq_start] at hnew
    exact absurd (mem_map_of_mem hi.startVisited) hnew
  | succ k ih =>
    obtain ⟨u, hu, e, he, rfl⟩ := hx.pred
    by_cases hvis : u ∈ state.visitedIds
    · obtain ⟨v, hv, rfl⟩ := mem_map.mp hvis
      have hvk : v.depth = k := (hi.dist v hv).unique hu
      have hseed : ShortestRow g state.toWalkShape start (seedRow v) :=
        ⟨hi.dist v hv, [v.id], rfl, by simpa using ⟨hfree _ _ hu, v.depth, le_rfl, hi.dist v hv⟩⟩
      have hlt : (seedRow v).depth < k + 1 := by simp only [seedRow]; omega
      have hdist : WalkDist g state.toWalkShape start ((seedRow v).depth + 1)
          (e.otherEnd state.direction) := by rw [show (seedRow v).depth = k from hvk]; exact hx
      refine ⟨(seedRow v).child state.toWalkShape e, ?_, rfl, hseed.child (hfree _ _ hx) hdist⟩
      refine hseeds _ (mem_seedChildren.mpr ⟨v, hv, mem_recursiveTerm.mpr ⟨by omega, e, he, ?_, ?_, rfl⟩⟩)
      · exact hseed.onPath (hfree _ _ hx) hx hlt
      · have hnw : e.id ∉ state.walked := fun hw => hnew (hi.walked e (childEdges_stored he) hw)
        simp [resumeFilter, seedRow, hnw]
    · obtain ⟨w, hw, rfl, hshort⟩ := ih hu (by omega) hvis
      have hwk : w.depth = k := hshort.dist.unique hu
      have hdist : WalkDist g state.toWalkShape start (w.depth + 1) (e.otherEnd state.direction) := by
        rw [hwk]; exact hx
      refine ⟨w.child state.toWalkShape e, ?_, rfl, hshort.child (hfree _ _ hx) hdist⟩
      refine hclosed w hw _ (mem_recursiveTerm.mpr ⟨by omega, e, he, ?_, ?_, rfl⟩)
      · exact hshort.onPath (hfree _ _ hx) hx (by omega)
      · obtain ⟨_, _, hid, _⟩ := hedge w hw
        simp [resumeFilter, hid, hvis]

theorem exists_wholeRows (order : ScanOrder) (hi : TokenInv g start state) (hd : g.NoDangling)
    (hf : g.DelimiterFree) (hs : g.nodes.contains start) :
    ∃ rows, WholeRows order g start state rows := by
  obtain ⟨rows, htake⟩ := recursiveTerm_ends order g state.toWalkShape (resumeFilter state) (seedChildren order g state)
  have hall := fifo_whole htake
  obtain ⟨hseeds, hclosed⟩ := fifo_whole_closed htake
  have hedge : ∀ w ∈ rows, RowEdge g state w := by
    rw [← hall]
    exact newRows_rowEdge order g state _
  refine ⟨rows, htake, hedge, ?_, ?_, ?_, ?_⟩
  · rw [← hall]
    exact fifo_forall (seedChildren_reached hi) (fun _ hw _ hx => resumeTerm_reached hw hx) _
  · rw [← hall]
    exact fifo_sorted (fun _ _ hx => recursiveTerm_depth hx) _ (seedChildren_levelQueue order hi)
  · intro k x hx hk hnew
    obtain ⟨w, hw, hwx, hshort⟩ :=
      exists_shortestRow hi hd hf hs hseeds hedge hclosed k hx hk hnew
    refine ⟨w, hw, hwx, (hwx ▸ hshort.dist).unique hx⟩
  · intro w hw id hid
    rw [fifo_whole_head htake] at hw
    exact seedChildren_not_walked (mem_of_head? hw) hid

end Resumed

def reportedRows (g : Graph) (cte : List WalkRow) : List JoinedRow :=
  (runWalk g cte).filter (fun r => r.edge.isSome)

def newNodes (order : ScanOrder) (g : Graph) (state : ResumeState) (budget : Nat) : List ReachedNode :=
  keepFirst ReachedNode.id state.visitedIds
    ((reportedRows g (resumeCte order g state (state.visited.length + budget))).map JoinedRow.reached)

def newEdges (order : ScanOrder) (g : Graph) (state : ResumeState) (budget : Nat) : List EdgeRow :=
  keepFirst EdgeRow.id []
    ((reportedRows g (resumeCte order g state (state.visited.length + budget))).filterMap JoinedRow.edge)

instance joinedRow_isTotal : Std.Total JoinedRow.SortsBefore :=
  total_of_key (k := fun r : JoinedRow => toLex (r.depth, r.node.id)) fun _ _ => by rw [Prod.Lex.toLex_le_toLex]; rfl

instance joinedRow_isTrans : IsTrans JoinedRow JoinedRow.SortsBefore :=
  trans_of_key (k := fun r : JoinedRow => toLex (r.depth, r.node.id)) fun _ _ => by rw [Prod.Lex.toLex_le_toLex]; rfl

theorem runWalk_perm (g : Graph) (cte : List WalkRow) : (runWalk g cte).Perm (cte.filterMap (joinRow g)) :=
  perm_insertionSort _ _

theorem joinRow_eq_some {g : Graph} {w : WalkRow} {r : JoinedRow} : joinRow g w = some r ↔
    (r.node ∈ g.nodes ∧ r.node.id = w.nodeId) ∧ r.depth = w.depth ∧
      r.edge = w.edgeId.bind fun id => (g.edges.find? id).map EdgeRow.record := by
  rw [joinRow, map_eq_some_iff]
  constructor
  · rintro ⟨n, hn, rfl⟩
    exact ⟨find?_eq_some_iff.mp hn, rfl, rfl⟩
  · rintro ⟨hn, hd, he⟩
    exact ⟨r.node, find?_eq_some_iff.mpr hn, by rw [← hd, ← he]⟩

section Rows

variable {g : Graph} {state : ResumeState} {out : List WalkRow} {r : JoinedRow}

theorem RowEdge.joined {w : WalkRow} (hw : RowEdge g state w) (h : joinRow g w = some r) :
    ∃ e ∈ g.edges, w.edgeId = some e.id ∧ r.edge = some e.record ∧ e.otherEnd state.direction = r.node.id := by
  obtain ⟨e, he, hid, hend⟩ := hw
  obtain ⟨⟨_, hn⟩, _, hedge⟩ := joinRow_eq_some.mp h
  refine ⟨e, he, hid, ?_, hend.trans hn.symm⟩
  rw [hedge, hid, bind_some, find?_key he]
  rfl

variable (hout : ∀ w ∈ out, RowEdge g state w) (seeds : List VisitedNode)

include hout

theorem reportedRows_perm : (reportedRows g (seeds.map seedRow ++ out)).Perm (out.filterMap (joinRow g)) := by
  refine ((runWalk_perm g _).filter _).trans ?_
  rw [filterMap_append, filter_append]
  have hseeds : ((seeds.map seedRow).filterMap (joinRow g)).filter (fun r => r.edge.isSome) = [] := by
    rw [filter_eq_nil_iff]
    intro r hr
    obtain ⟨w, hw, hr⟩ := mem_filterMap.mp hr
    obtain ⟨v, _, rfl⟩ := mem_map.mp hw
    simp [show r.edge = none from (joinRow_eq_some.mp hr).2.2]
  have hall : (out.filterMap (joinRow g)).filter (fun r => r.edge.isSome) = out.filterMap (joinRow g) := by
    rw [filter_eq_self]
    intro r hr
    obtain ⟨w, hw, hr⟩ := mem_filterMap.mp hr
    obtain ⟨e, _, _, he, _⟩ := (hout w hw).joined hr
    simp [he]
  rw [hseeds, hall, nil_append]

theorem mem_reportedRows : r ∈ reportedRows g (seeds.map seedRow ++ out) ↔ ∃ w ∈ out, joinRow g w = some r := by
  rw [(reportedRows_perm hout seeds).mem_iff, mem_filterMap]

omit hout in
theorem reportedRows_sorted (cte : List WalkRow) : (reportedRows g cte).Pairwise JoinedRow.SortsBefore :=
  (pairwise_insertionSort _ _).filter _

theorem reportedRows_length (hstored : ∀ w ∈ out, g.nodes.contains w.nodeId) (seeds : List VisitedNode) :
    (reportedRows g (seeds.map seedRow ++ out)).length = out.length := by
  rw [(reportedRows_perm hout seeds).length_eq, length_filterMap_eq_countP, countP_eq_length]
  intro w hw
  obtain ⟨n, hn⟩ := isSome_iff_exists.mp (hstored w hw)
  simp [joinRow, hn]

end Rows

section NewNodes

variable {order : ScanOrder} {g : Graph} {start : String} {state : ResumeState} {rows : List WalkRow} {budget : Nat}
  {r : ReachedNode}

theorem newNodes_row (h : r ∈ newNodes order g state budget) :
    r.node ∈ g.nodes ∧ ∃ w ∈ newRows order g state budget, w.nodeId = r.id ∧ w.depth = r.depth := by
  obtain ⟨j, hj, rfl⟩ := mem_map.mp (mem_of_mem_keepFirst h)
  rw [resumeCte_eq] at hj
  obtain ⟨w, hmem, hjoin⟩ := (mem_reportedRows (newRows_rowEdge order g state budget) _).mp hj
  obtain ⟨⟨hn, hid⟩, hd, _⟩ := joinRow_eq_some.mp hjoin
  exact ⟨hn, w, hmem, hid.symm, hd.symm⟩

theorem newNodes_not_visited (h : r ∈ newNodes order g state budget) : r.id ∉ state.visitedIds :=
  keepFirst_key_not_seen h

theorem newNodes_nodup (order : ScanOrder) (g : Graph) (state : ResumeState) (budget : Nat) :
    ((newNodes order g state budget).map ReachedNode.id).Nodup :=
  keepFirst_keys_nodup _ _

theorem newNodes_sorted (order : ScanOrder) (g : Graph) (state : ResumeState) (budget : Nat) :
    (newNodes order g state budget).Pairwise (fun a b => a.visited.SortsBefore b.visited) := by
  refine .sublist (keepFirst_sublist _ _) (pairwise_map.mpr ?_)
  exact reportedRows_sorted _

theorem exists_newNode {w : WalkRow} (h : w ∈ newRows order g state budget)
    (hstored : ∃ n ∈ g.nodes, n.id = w.nodeId) (hnew : w.nodeId ∉ state.visitedIds) :
    ∃ r ∈ newNodes order g state budget, r.id = w.nodeId ∧ r.depth ≤ w.depth := by
  obtain ⟨n, hn, hid⟩ := hstored
  have hjoin : joinRow g w = some ⟨n, w.depth, w.edgeId.bind fun id => (g.edges.find? id).map EdgeRow.record⟩ :=
    joinRow_eq_some.mpr ⟨⟨hn, hid⟩, rfl, rfl⟩
  have hrep := (mem_reportedRows (newRows_rowEdge order g state budget) state.visited).mpr ⟨w, h, hjoin⟩
  rw [← resumeCte_eq] at hrep
  have hmem := mem_map_of_mem (f := JoinedRow.reached) hrep
  obtain ⟨r, hr, hrid⟩ : ∃ r ∈ newNodes order g state budget, r.id = n.id :=
    exists_mem_keepFirst hmem (by simpa [ReachedNode.id, JoinedRow.reached, hid] using hnew)
  refine ⟨r, hr, hrid.trans hid, ?_⟩
  have hsorted : (List.map JoinedRow.reached (reportedRows g (resumeCte order g state
      (state.visited.length + budget)))).Pairwise (fun a b => a.visited.SortsBefore b.visited) :=
    pairwise_map.mpr (reportedRows_sorted _)
  rcases keepFirst_first hsorted hr hmem hrid.symm with rfl | hlt | ⟨heq, _⟩
  · exact le_rfl
  · exact hlt.le
  · exact heq.le

variable (hd : g.NoDangling)

include hd

section

variable (hs : g.nodes.contains start) (hw : WholeRows order g start state rows)

include hs hw

section

variable (h : r ∈ newNodes order g state budget)

include h

theorem newNodes_level {x : String} (hx : WalkDist g state.toWalkShape start k x) (hk : k < r.depth)
    (hle : r.depth ≤ state.maxDepth) (hnew : x ∉ state.visitedIds) :
    ∃ r' ∈ newNodes order g state budget, r'.id = x ∧ r'.depth ≤ k := by
  obtain ⟨_, w, hmem, _, hdep⟩ := newNodes_row h
  rw [hw.take] at hmem
  obtain ⟨u, hu, rfl, hud⟩ := hw.complete k x hx (by omega) hnew
  have hut := mem_take_of_shallower hw.sorted hmem hu (by omega)
  rw [← hw.take] at hut
  obtain ⟨r', hr', hid', hle'⟩ := exists_newNode hut (hx.reach.stored hd hs) hnew
  exact ⟨r', hr', hid', by omega⟩

theorem newNodes_dist : WalkDist g state.toWalkShape start r.depth r.id ∧ r.depth ≤ state.maxDepth := by
  obtain ⟨_, w, hmem, hid, hdep⟩ := newNodes_row h
  rw [hw.take] at hmem
  obtain ⟨hreach, hle⟩ := hw.reached w (mem_of_mem_take hmem)
  rw [hid, hdep] at hreach
  rw [hdep] at hle
  obtain ⟨j, hj, hdist⟩ := hreach.exists_isDist
  rcases Nat.lt_or_eq_of_le hj with hlt | rfl
  · obtain ⟨r', hr', hid', hle'⟩ := newNodes_level hd hs hw h hdist hlt hle (newNodes_not_visited h)
    have : r' = r := inj_on_of_nodup_map (newNodes_nodup order g state budget) hr' h hid'
    subst this
    omega
  · exact ⟨hdist, hle⟩

end

theorem newNodes_complete (hall : rows.length ≤ budget) {x : String}
    (hx : WalkDist g state.toWalkShape start k x) (hk : k ≤ state.maxDepth) (hnew : x ∉ state.visitedIds) :
    ∃ r ∈ newNodes order g state budget, r.id = x := by
  obtain ⟨u, hu, rfl, _⟩ := hw.complete k x hx hk hnew
  rw [← take_of_length_le hall, ← hw.take] at hu
  obtain ⟨r, hr, hid, _⟩ := exists_newNode hu (hx.reach.stored hd hs) hnew
  exact ⟨r, hr, hid⟩

end

omit hd in
theorem otherEnd_record (e : EdgeRow) (d : Direction) : e.record.otherEnd d = e.otherEnd d := by
  cases d <;> rfl

omit hd in
theorem newEdges_row {e : EdgeRow} (h : e ∈ newEdges order g state budget) :
    ∃ e₀ ∈ g.edges, e = e₀.record ∧ ∃ w ∈ newRows order g state budget, w.edgeId = some e₀.id ∧
      e₀.otherEnd state.direction = w.nodeId ∧ g.nodes.contains w.nodeId := by
  obtain ⟨j, hj, hje⟩ := mem_filterMap.mp (mem_of_mem_keepFirst h)
  rw [resumeCte_eq] at hj
  obtain ⟨w, hmem, hjoin⟩ := (mem_reportedRows (newRows_rowEdge order g state budget) _).mp hj
  obtain ⟨e₀, he₀, hrow, hedge, hend⟩ := (newRows_rowEdge order g state budget w hmem).joined hjoin
  obtain ⟨⟨hn, hid⟩, _⟩ := joinRow_eq_some.mp hjoin
  refine ⟨e₀, he₀, ?_, w, hmem, hrow, hend.trans hid, contains_iff.mpr ⟨_, hn, hid⟩⟩
  exact some.inj (hje.symm.trans hedge)

theorem exists_newEdge_of_row {w : WalkRow} (hmem : w ∈ newRows order g state budget) :
    ∃ e ∈ g.edges, w.edgeId = some e.id ∧ ∃ f ∈ newEdges order g state budget, f.id = e.id := by
  obtain ⟨e, he, hid, hend⟩ := newRows_rowEdge order g state budget w hmem
  obtain ⟨n, hn, hnid⟩ := hd.otherEnd he state.direction
  have hjoin : joinRow g w = some ⟨n, w.depth, some e.record⟩ := by
    refine joinRow_eq_some.mpr ⟨⟨hn, hnid.trans hend⟩, rfl, ?_⟩
    rw [hid, bind_some, find?_key he]
    rfl
  have hrep := (mem_reportedRows (newRows_rowEdge order g state budget) state.visited).mpr ⟨w, hmem, hjoin⟩
  rw [← resumeCte_eq] at hrep
  obtain ⟨f, hf, hfid⟩ : ∃ f ∈ newEdges order g state budget, f.id = e.record.id :=
    exists_mem_keepFirst (mem_filterMap.mpr ⟨_, hrep, rfl⟩) (by simp)
  exact ⟨e, he, hid, f, hf, hfid⟩

theorem exists_unwalked_newEdge (hw : WholeRows order g start state rows) (hne : rows.take budget ≠ []) :
    ∃ e ∈ newEdges order g state budget, e.id ∉ state.walked ∧ ∃ e₀ ∈ g.edges, e₀.id = e.id := by
  cases hrows : rows with
  | nil => simp [hrows] at hne
  | cons w rest =>
    have hmem : w ∈ newRows order g state budget := by
      rw [hw.take]
      cases budget with
      | zero => simp at hne
      | succ budget => simp [hrows]
    obtain ⟨e, he, hid, f, hf, hfid⟩ := exists_newEdge_of_row hd hmem
    refine ⟨f, hf, ?_, e, he, hfid.symm⟩
    rw [hfid]
    exact hw.unwalked w (by simp [hrows]) e.id hid

end NewNodes

end GMesh
