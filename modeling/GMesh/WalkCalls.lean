import GMesh.WalkReport

namespace GMesh

open List

section Cuts

variable {g : Graph} {shape : WalkShape} {start : String} {cte : List WalkRow}

/-- The rows of an uncut walk: each reached as it says, and one at the distance of every node within the limit. -/
structure CoversWalk (g : Graph) (shape : WalkShape) (start : String) (cte : List WalkRow) : Prop where
  reached : ∀ w ∈ cte, ReachIn (WalkHop g shape) start w.depth w.nodeId
  within : ∀ w ∈ cte, w.depth ≤ shape.maxDepth
  complete : ∀ k x, WalkDist g shape start k x → k ≤ shape.maxDepth →
    ∃ w ∈ cte, w.nodeId = x ∧ w.depth = k

variable (h : CoversWalk g shape start cte)

include h

theorem CoversWalk.exists_dist {w : WalkRow} (hw : w ∈ cte) : ∃ k ≤ w.depth, WalkDist g shape start k w.nodeId :=
  (h.reached w hw).exists_isDist

theorem CoversWalk.mem_nodes {x : String} :
    x ∈ cte.map WalkRow.nodeId ↔ ∃ k ≤ shape.maxDepth, WalkDist g shape start k x := by
  constructor
  · intro hx
    obtain ⟨w, hw, rfl⟩ := mem_map.mp hx
    obtain ⟨k, hk, hd⟩ := h.exists_dist hw
    exact ⟨k, hk.trans (h.within w hw), hd⟩
  · rintro ⟨k, hk, hd⟩
    obtain ⟨w, hw, rfl, _⟩ := h.complete k x hd hk
    exact mem_map_of_mem hw

theorem fanoutCut_iff : fanoutCut g shape cte ↔
    ∃ k x, WalkDist g shape start k x ∧ k < shape.maxDepth ∧ shape.maxFanout < (matchingFrom g shape x).length := by
  simp only [fanoutCut, any_eq_true, Bool.and_eq_true, decide_eq_true_eq]
  constructor
  · rintro ⟨w, hw, hlt, hcut⟩
    obtain ⟨k, hk, hd⟩ := h.exists_dist hw
    exact ⟨k, w.nodeId, hd, by omega, hcut⟩
  · rintro ⟨k, x, hd, hlt, hcut⟩
    obtain ⟨w, hw, rfl, rfl⟩ := h.complete k x hd hlt.le
    exact ⟨w, hw, hlt, hcut⟩

theorem depthCut_iff (hf : fanoutCut g shape cte = false) :
    depthCut g shape cte ↔ ∃ x, WalkDist g shape start shape.maxDepth x ∧
      ∃ e ∈ matchingFrom g shape x, ∀ k ≤ shape.maxDepth, ¬ WalkDist g shape start k (e.otherEnd shape.direction) := by
  have hfit : ∀ k x, WalkDist g shape start k x → k < shape.maxDepth →
      (matchingFrom g shape x).length ≤ shape.maxFanout := by
    intro k x hd hlt
    by_contra hcut
    rw [(fanoutCut_iff h).mpr ⟨k, x, hd, hlt, by omega⟩] at hf
    simp at hf
  simp only [depthCut, any_eq_true, Bool.and_eq_true, decide_eq_true_eq, Bool.not_eq_true',
    contains_eq_mem, decide_eq_false_iff_not, h.mem_nodes]
  constructor
  · rintro ⟨w, hw, hmax, e, he, hnone⟩
    have hout : ∀ k ≤ shape.maxDepth, ¬ WalkDist g shape start k (e.otherEnd shape.direction) :=
      fun k hk hd => hnone ⟨k, hk, hd⟩
    obtain ⟨k, hk, hd⟩ := h.exists_dist hw
    rcases Nat.lt_or_eq_of_le hk with hlt | rfl
    · have hchild := mem_childEdges_of_fits (hfit k _ hd (by omega)) he
      obtain ⟨j, hj, hjd⟩ := (ReachIn.step hd.reach ⟨e, hchild, rfl⟩).exists_isDist
      exact absurd hjd (hout j (by omega))
    · exact ⟨w.nodeId, hmax ▸ hd, e, he, hout⟩
  · rintro ⟨x, hd, e, he, hout⟩
    obtain ⟨w, hw, rfl, hwd⟩ := h.complete _ x hd le_rfl
    exact ⟨w, hw, hwd, e, he, fun ⟨k, hk, hkd⟩ => hout k hk hkd⟩

theorem analyzeCuts_eq {cte' : List WalkRow} (h' : CoversWalk g shape start cte') :
    analyzeCuts g shape cte = analyzeCuts g shape cte' := by
  have hfan : fanoutCut g shape cte = fanoutCut g shape cte' := by
    rw [Bool.eq_iff_iff, fanoutCut_iff h, fanoutCut_iff h']
  cases hf : fanoutCut g shape cte with
  | true => simp [analyzeCuts, hf, ← hfan]
  | false =>
    have hdep : depthCut g shape cte = depthCut g shape cte' := by
      rw [Bool.eq_iff_iff, depthCut_iff h hf, depthCut_iff h' (hfan ▸ hf)]
    simp only [analyzeCuts, ← hfan, hdep]

end Cuts

variable {start : String}

theorem resumeCte_covers {order : ScanOrder} {g : Graph} {state : ResumeState} {rows : List WalkRow} {budget : Nat}
    (hi : TokenInv g start state) (hw : WholeRows order g start state rows) (hall : rows.length ≤ budget) :
    CoversWalk g state.toWalkShape start (resumeCte order g state (state.visited.length + budget)) := by
  rw [resumeCte_eq, hw.take, take_of_length_le hall]
  have hreached : ∀ w ∈ state.visited.map seedRow ++ rows, RowReached g start state w := by
    intro w h
    rcases mem_append.mp h with h | h
    · obtain ⟨v, hv, rfl⟩ := mem_map.mp h
      exact seedRow_reached hi hv
    · exact hw.reached w h
  refine ⟨fun w h => (hreached w h).1, fun w h => (hreached w h).2, ?_⟩
  intro k x hd hk
  by_cases hnew : x ∈ state.visitedIds
  · obtain ⟨v, hv, rfl⟩ := mem_map.mp hnew
    exact ⟨seedRow v, mem_append_left _ (mem_map_of_mem hv), rfl, (hi.dist v hv).unique hd⟩
  · obtain ⟨w, h, hid, hdep⟩ := hw.complete k x hd hk hnew
    exact ⟨w, mem_append_right _ h, hid, hdep⟩

structure CompleteVisit (g : Graph) (shape : WalkShape) (start : String) (visited : List VisitedNode) :
    Prop where
  nodup : (visited.map VisitedNode.id).Nodup
  mem : ∀ v, v ∈ visited ↔ WalkDist g shape start v.depth v.id ∧ v.depth ≤ shape.maxDepth

theorem CompleteVisit.perm {g : Graph} {shape : WalkShape} {vs us : List VisitedNode}
    (hv : CompleteVisit g shape start vs) (hu : CompleteVisit g shape start us) : vs.Perm us :=
  (perm_ext_iff_of_nodup (hv.nodup.of_map _) (hu.nodup.of_map _)).mpr (fun v => (hv.mem v).trans (hu.mem v).symm)

instance visitedNode_isAntisymm : Std.Antisymm VisitedNode.SortsBefore where
  antisymm := by
    rintro ⟨a, i⟩ ⟨b, j⟩ (hab | ⟨hab, hid⟩) (hba | ⟨hba, hid'⟩) <;> simp_all
    · omega
    · exact le_antisymm hid hid'

instance visitedNode_isTotal : Std.Total VisitedNode.SortsBefore :=
  total_of_key (k := fun v : VisitedNode => toLex (v.depth, v.id)) fun _ _ => by rw [Prod.Lex.toLex_le_toLex]; rfl

instance visitedNode_isTrans : IsTrans VisitedNode VisitedNode.SortsBefore :=
  trans_of_key (k := fun v : VisitedNode => toLex (v.depth, v.id)) fun _ _ => by rw [Prod.Lex.toLex_le_toLex]; rfl

section Advance

variable {order : ScanOrder} {g : Graph} {start : String} {state next : ResumeState}
  {rows : List WalkRow} {budget cut : Nat}

theorem mem_visitedIds_of_perm {kept : List ReachedNode}
    (hv : next.visited.Perm (state.visited ++ kept.map ReachedNode.visited)) {x : String} :
    x ∈ next.visitedIds ↔ x ∈ state.visitedIds ∨ ∃ r ∈ kept, r.id = x := by
  rw [ResumeState.visitedIds, (hv.map VisitedNode.id).mem_iff, map_append, mem_append, map_map]
  refine or_congr Iff.rfl ?_
  rw [mem_map]
  exact Iff.rfl

theorem visitedIds_nodup (hi : TokenInv g start state)
    (hv : next.visited.Perm (state.visited ++
      ((newNodes order g state budget).take cut).map ReachedNode.visited)) : next.visitedIds.Nodup := by
  rw [ResumeState.visitedIds, (hv.map VisitedNode.id).nodup_iff, map_append, nodup_append]
  refine ⟨hi.nodup, ?_, ?_⟩
  · rw [map_map]
    exact (List.Sublist.map _ (take_sublist _ _)).nodup (newNodes_nodup order g state budget)
  · intro a ha b hb hab
    rw [map_map] at hb
    obtain ⟨r, hr, rfl⟩ := mem_map.mp hb
    have hr' : a = r.id := hab
    exact newNodes_not_visited (mem_of_mem_take hr) (hr' ▸ ha)

/-- A state that takes in some of the new nodes and their edges keeps the token's invariant. -/
theorem TokenInv.advance (hi : TokenInv g start state) (hd : g.NoDangling)
    (hs : g.nodes.contains start) (hw : WholeRows order g start state rows)
    (hshape : next.toWalkShape = state.toWalkShape)
    (hv : next.visited.Perm (state.visited ++ ((newNodes order g state budget).take cut).map ReachedNode.visited))
    (hsorted : next.visited.Pairwise (fun a b => a.depth ≤ b.depth))
    (hwalked : ∀ id ∈ next.walked, id ∈ state.walked ∨
      ∃ e ∈ newEdges order g state budget, e.id = id ∧ e.otherEnd state.direction ∈ next.visitedIds) :
    TokenInv g start next := by
  have hmem : ∀ v ∈ next.visited, v ∈ state.visited ∨
      ∃ r ∈ (newNodes order g state budget).take cut, r.visited = v := by
    intro v h
    rcases mem_append.mp (hv.mem_iff.mp h) with h | h
    · exact .inl h
    · exact .inr (mem_map.mp h)
  have hids := fun x => mem_visitedIds_of_perm (x := x) hv
  refine ⟨?_, ?_, ?_, visitedIds_nodup hi hv, hsorted, ?_, ?_⟩
  · exact hv.mem_iff.mpr (mem_append_left _ hi.startVisited)
  · intro v h
    rw [hshape]
    rcases hmem v h with h | ⟨r, hr, rfl⟩
    · exact hi.dist v h
    · exact (newNodes_dist hd hs hw (mem_of_mem_take hr)).1
  · intro v h
    rw [hshape]
    rcases hmem v h with h | ⟨r, hr, rfl⟩
    · exact hi.within v h
    · exact (newNodes_dist hd hs hw (mem_of_mem_take hr)).2
  · intro v h k x hx hk
    rw [hshape] at hx
    rw [hids]
    by_cases hnew : x ∈ state.visitedIds
    · exact .inl hnew
    · rcases hmem v h with h | ⟨r, hr, rfl⟩
      · exact .inl (hi.level v h k x hx hk)
      · have hn := mem_of_mem_take hr
        obtain ⟨r', hr', rfl, _⟩ := newNodes_level hd hs hw hn hx hk (newNodes_dist hd hs hw hn).2 hnew
        have hdep : r'.depth = k := (newNodes_dist hd hs hw hr').1.unique hx
        have hsort : (newNodes order g state budget).Pairwise (fun a b => a.depth ≤ b.depth) :=
          (newNodes_sorted order g state budget).imp (fun h => h.elim le_of_lt (fun h => h.1.le))
        exact .inr ⟨r', mem_take_of_shallower hsort hr hr' (hdep ▸ hk), rfl⟩
  · intro e he hid
    rw [hshape]
    rcases hwalked e.id hid with hid | ⟨f, hf, hfid, hend⟩
    · exact (hids _).mpr (.inl (hi.walked e he hid))
    · obtain ⟨e₀, he₀, rfl, _⟩ := newEdges_row hf
      have : e₀ = e := g.edges.key_injective he₀ he hfid
      subst this
      rwa [otherEnd_record] at hend

theorem newEdges_child_visited
    (hv : next.visited.Perm (state.visited ++ (newNodes order g state budget).map ReachedNode.visited))
    {e : EdgeRow} (he : e ∈ newEdges order g state budget) :
    e.otherEnd state.direction ∈ next.visitedIds := by
  obtain ⟨e₀, _, rfl, w, hmem, _, hend, hstored⟩ := newEdges_row he
  rw [otherEnd_record, hend, mem_visitedIds_of_perm hv]
  by_cases hnew : w.nodeId ∈ state.visitedIds
  · exact .inl hnew
  · obtain ⟨r, hr, hrid, _⟩ := exists_newNode hmem (KeyedTable.contains_iff.mp hstored) hnew
    exact .inr ⟨r, hr, hrid⟩

end Advance

section Measure

def walkLeft (g : Graph) (state : ResumeState) : Nat :=
  (g.nodes.rows.filter (fun n => n.id ∉ state.visitedIds)).length +
    (g.edges.rows.filter (fun e => e.id ∉ state.walked)).length

variable {g : Graph} {state next : ResumeState}

theorem walkLeft_lt (hv : ∀ x ∈ state.visitedIds, x ∈ next.visitedIds)
    (hw : ∀ id ∈ state.walked, id ∈ next.walked)
    (h : (∃ n ∈ g.nodes, n.id ∉ state.visitedIds ∧ n.id ∈ next.visitedIds) ∨
      ∃ e ∈ g.edges, e.id ∉ state.walked ∧ e.id ∈ next.walked) :
    walkLeft g next < walkLeft g state := by
  have hn : ∀ n ∈ g.nodes.rows, decide (n.id ∉ next.visitedIds) →
      decide (n.id ∉ state.visitedIds) := by
    intro n _ hn
    simp only [decide_eq_true_eq] at hn ⊢
    exact fun hm => hn (hv _ hm)
  have he : ∀ e ∈ g.edges.rows, decide (e.id ∉ next.walked) →
      decide (e.id ∉ state.walked) := by
    intro e _ he
    simp only [decide_eq_true_eq] at he ⊢
    exact fun hm => he (hw _ hm)
  simp only [walkLeft, ← countP_eq_length_filter]
  rcases h with ⟨n, hmem, hold, hnew⟩ | ⟨e, hmem, hold, hnew⟩
  · exact Nat.add_lt_add_of_lt_of_le (countP_lt hn hmem (by simpa using hold) (by simpa using hnew)) (countP_mono_left he)
  · exact Nat.add_lt_add_of_le_of_lt (countP_mono_left hn) (countP_lt he hmem (by simpa using hold) (by simpa using hnew))

end Measure

section Outcome

variable {τ : Type} {codec : TokenCodec ResumeState τ} {order : ScanOrder} {g : Graph} {start : String}
  {state next : ResumeState} {rows : List WalkRow} {budget : Nat}

structure CallState (order : ScanOrder) (g : Graph) (state : ResumeState) (budget : Nat)
    (next : ResumeState) : Prop where
  shape : next.toWalkShape = state.toWalkShape
  visited : next.visited.Perm (state.visited ++ (newNodes order g state budget).map ReachedNode.visited)
  sorted : next.visited.Pairwise VisitedNode.SortsBefore
  walked : ∀ id, id ∈ next.walked ↔ id ∈ state.walked ∨ ∃ e ∈ newEdges order g state budget, e.id = id

section

variable (h : CallState order g state budget next)

include h

theorem CallState.inv (hi : TokenInv g start state) (hd : g.NoDangling) (hs : g.nodes.contains start)
    (hw : WholeRows order g start state rows) : TokenInv g start next := by
  have hv : next.visited.Perm (state.visited ++ ((newNodes order g state budget).take
      (newNodes order g state budget).length).map ReachedNode.visited) := by
    rw [take_length]
    exact h.visited
  refine hi.advance hd hs hw h.shape hv ?_ ?_
  · exact h.sorted.imp (fun h => h.elim le_of_lt (fun h => h.1.le))
  · intro id hid
    rcases (h.walked id).mp hid with hid | ⟨e, he, rfl⟩
    · exact .inl hid
    · exact .inr ⟨e, he, rfl, newEdges_child_visited h.visited he⟩

theorem CallState.left_lt (hd : g.NoDangling) (hw : WholeRows order g start state rows)
    (hne : rows.take budget ≠ []) : walkLeft g next < walkLeft g state := by
  obtain ⟨e, he, hnew, e₀, he₀, hid⟩ := exists_unwalked_newEdge hd hw hne
  refine walkLeft_lt ?_ ?_ (.inr ⟨e₀, he₀, hid ▸ hnew, ?_⟩)
  · intro x hx
    exact (mem_visitedIds_of_perm h.visited).mpr (.inl hx)
  · intro id hid
    exact (h.walked id).mpr (.inl hid)
  · exact (h.walked _).mpr (.inr ⟨e, he, hid.symm⟩)

theorem CallState.complete (hi : TokenInv g start state) (hd : g.NoDangling) (hs : g.nodes.contains start)
    (hw : WholeRows order g start state rows) (hall : rows.length ≤ budget) :
    CompleteVisit g state.toWalkShape start next.visited := by
  have hinv := h.inv hi hd hs hw
  refine ⟨hinv.nodup, ?_⟩
  intro v
  rw [← h.shape]
  refine ⟨fun hv => ⟨hinv.dist v hv, hinv.within v hv⟩, ?_⟩
  rintro ⟨hdist, hle⟩
  have hid : v.id ∈ next.visitedIds := by
    rw [mem_visitedIds_of_perm h.visited]
    by_cases hnew : v.id ∈ state.visitedIds
    · exact .inl hnew
    · rw [h.shape] at hdist hle
      exact .inr (newNodes_complete hd hs hw hall hdist hle hnew)
  obtain ⟨u, hu, huid⟩ := mem_map.mp hid
  have hdep : u.depth = v.depth := (huid ▸ hinv.dist u hu).unique hdist
  have : u = v := by cases u; cases v; simp_all
  exact this ▸ hu

end

structure ReportsCall (codec : TokenCodec ResumeState τ) (order : ScanOrder) (g : Graph)
    (state : ResumeState) (budget : Nat) (next : ResumeState) (result : TraversalResult τ) : Prop where
  moved : CallState order g state budget next
  truncatedBy : result.truncatedBy =
    if budget ≤ (reportedRows g (resumeCte order g state (state.visited.length + budget))).length then
      some .explorationBudget
    else analyzeCuts g state.toWalkShape (resumeCte order g state (state.visited.length + budget))
  edges : result.edges = newEdges order g state budget
  truncated : result.truncated = result.truncatedBy.isSome
  frontier : result.frontierNodes = frontierNodes result.truncatedBy next.visited next.maxDepth
  token : result.resumeToken = continuation codec result.truncatedBy next

theorem resumeState_reports (order : ScanOrder) (codec : TokenCodec ResumeState τ) (g : Graph)
    (state : ResumeState) (budget : Nat) : ∃ next,
      ReportsCall codec order g state budget next (resumeState order codec g state budget) ∧
      (resumeState order codec g state budget).nodes = newNodes order g state budget := by
  refine ⟨{ state with
    visited := (state.visited ++ (newNodes order g state budget).map ReachedNode.visited).insertionSort
      VisitedNode.SortsBefore
    walked := (state.walked ++ (newEdges order g state budget).map EdgeRow.id).insertionSort (· ≤ ·) },
    ⟨⟨rfl, ?_, ?_, ?_⟩, rfl, rfl, rfl, rfl, rfl⟩, rfl⟩
  · exact perm_insertionSort _ _
  · exact pairwise_insertionSort _ _
  · intro id
    refine (perm_insertionSort _ _).mem_iff.trans ?_
    rw [mem_append, mem_map]

theorem runWalk_cons {w : WalkRow} {r : JoinedRow} {rest : List WalkRow} (hr : joinRow g w = some r)
    (hdeep : ∀ x ∈ rest, w.depth < x.depth) : runWalk g (w :: rest) = r :: runWalk g rest := by
  rw [runWalk, filterMap_cons_some hr]
  refine insertionSort_cons_of_forall_rel (r := JoinedRow.SortsBefore) ?_
  intro s hs
  obtain ⟨x, hx, hs⟩ := mem_filterMap.mp hs
  have := hdeep x hx
  exact .inl (by rw [(joinRow_eq_some.mp hr).2.1, (joinRow_eq_some.mp hs).2.1]; exact this)

theorem newRows_deep {shape : WalkShape} : ∀ w ∈ newRows order g (freshState shape start) budget, 0 < w.depth := by
  refine fifo_forall ?_ ?_ budget
  · intro w hw
    obtain ⟨v, _, hw⟩ := mem_seedChildren.mp hw
    rw [recursiveTerm_depth hw]
    omega
  · intro w _ x hx
    rw [recursiveTerm_depth hx]
    omega

theorem filterMap_edge_reported (l : List JoinedRow) :
    (l.filter (fun r => r.edge.isSome)).filterMap JoinedRow.edge = l.filterMap JoinedRow.edge := by
  rw [filterMap_filter]
  refine filterMap_congr ?_
  intro r _
  cases r.edge <;> rfl

end Outcome

section Fresh

variable {order : ScanOrder} {g : Graph} {shape : WalkShape} {start : String} {n : NodeRow} {budget : Nat}

theorem freshCte_eq (order : ScanOrder) (g : Graph) (shape : WalkShape) (start : String) (budget : Nat) :
    walkCte order g shape start (budget + 1) = resumeCte order g (freshState shape start)
      ((freshState shape start).visited.length + budget) := by
  rw [walkCte_eq_resumeCte, Nat.add_comm budget 1]
  rfl

theorem freshCte_split (order : ScanOrder) (g : Graph) (shape : WalkShape) (start : String) (budget : Nat) :
    walkCte order g shape start (budget + 1) =
      seedRow ⟨start, 0⟩ :: newRows order g (freshState shape start) budget := by
  rw [freshCte_eq, resumeCte_eq]
  rfl

section

variable (hn : g.nodes.find? start = some n)

include hn

theorem runWalk_fresh :
    runWalk g (walkCte order g shape start (budget + 1)) =
      ⟨n, 0, none⟩ :: runWalk g (newRows order g (freshState shape start) budget) := by
  rw [freshCte_split]
  exact runWalk_cons (by simp [joinRow, seedRow, hn]) newRows_deep

omit hn in
theorem runWalk_newRows_edges (order : ScanOrder) (g : Graph) (state : ResumeState) (budget : Nat) :
    (runWalk g (newRows order g state budget)).filter (fun r => r.edge.isSome) =
      runWalk g (newRows order g state budget) := by
  rw [filter_eq_self]
  intro r hr
  obtain ⟨w, hw, hr⟩ := mem_filterMap.mp ((runWalk_perm g _).mem_iff.mp hr)
  obtain ⟨e, _, _, he, _⟩ := (newRows_rowEdge order g _ budget w hw).joined hr
  simp [he]

theorem reportedRows_fresh :
    reportedRows g (walkCte order g shape start (budget + 1)) =
      runWalk g (newRows order g (freshState shape start) budget) := by
  rw [reportedRows, runWalk_fresh hn, filter_cons_of_neg (by simp), runWalk_newRows_edges]

theorem newNodes_fresh :
    newNodes order g (freshState shape start) budget = keepFirst ReachedNode.id [start]
      ((runWalk g (newRows order g (freshState shape start) budget)).map JoinedRow.reached) := by
  rw [newNodes, ← freshCte_eq, reportedRows_fresh hn]
  rfl

theorem newNodes_fresh_deep {r : ReachedNode} (h : r ∈ newNodes order g (freshState shape start) budget) :
    0 < r.depth := by
  rw [newNodes_fresh hn] at h
  obtain ⟨j, hj, rfl⟩ := mem_map.mp (mem_of_mem_keepFirst h)
  obtain ⟨w, hw, hj⟩ := mem_filterMap.mp ((runWalk_perm g _).mem_iff.mp hj)
  have := newRows_deep w hw
  rwa [← (joinRow_eq_some.mp hj).2.1] at this

end

theorem traverse_reports {τ : Type} (order : ScanOrder) (codec : TokenCodec ResumeState τ)
    (shape : WalkShape) (hn : g.nodes.find? start = some n) (budget : Nat) : ∃ next,
      let result := traverse order codec g ⟨shape, start, budget + 1⟩
      ReportsCall codec order g (freshState shape start) budget next result ∧
      result.nodes = ⟨n, 0⟩ :: newNodes order g (freshState shape start) budget ∧
      next.visited = result.nodes.map ReachedNode.visited := by
  have hid : n.id = start := (KeyedTable.find?_eq_some_iff.mp hn).2
  have hnodes : keepFirst ReachedNode.id []
      ((runWalk g (walkCte order g shape start (budget + 1))).map JoinedRow.reached) =
      ⟨n, 0⟩ :: newNodes order g (freshState shape start) budget := by
    rw [runWalk_fresh hn, map_cons, keepFirst, if_neg (by simp), newNodes_fresh hn]
    simp [ReachedNode.id, JoinedRow.reached, hid]
  have hedges : keepFirst EdgeRow.id []
      ((runWalk g (walkCte order g shape start (budget + 1))).filterMap JoinedRow.edge) =
      newEdges order g (freshState shape start) budget := by
    rw [newEdges, reportedRows, ← freshCte_eq, filterMap_edge_reported]
  have hrows : (runWalk g (walkCte order g shape start (budget + 1))).length =
      (reportedRows g (walkCte order g shape start (budget + 1))).length + 1 := by
    rw [runWalk_fresh hn, reportedRows_fresh hn, length_cons]
  refine ⟨{ shape with
    visited := (⟨n, 0⟩ :: newNodes order g (freshState shape start) budget).map ReachedNode.visited
    walked := (newEdges order g (freshState shape start) budget).map EdgeRow.id }, ?_⟩
  simp only [traverse, hnodes, hedges, hrows, Nat.add_le_add_iff_right]
  refine ⟨⟨⟨rfl, ?_, ?_, ?_⟩, ?_, rfl, rfl, rfl, rfl⟩, rfl, rfl⟩
  · simp [freshState, ReachedNode.visited, hid]
  · rw [pairwise_map, pairwise_cons]
    exact ⟨fun r hr => .inl (newNodes_fresh_deep hn hr), newNodes_sorted order g _ budget⟩
  · intro id
    simp [freshState]
  · rw [← freshCte_eq]
    rfl

end Fresh

end GMesh
