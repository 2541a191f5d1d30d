import GMesh.WalkChain

namespace GMesh

open List

inductive StoredReach (g : Graph) (shape : WalkShape) (start : String) : String → Prop
  | start : g.nodes.contains start = true → StoredReach g shape start start
  | step {u : String} {e : EdgeRow} : StoredReach g shape start u → e ∈ matchingFrom g shape u →
      g.nodes.contains (e.otherEnd shape.direction) = true →
      StoredReach g shape start (e.otherEnd shape.direction)

def Graph.EndpointsFree (g : Graph) : Prop :=
  ∀ e ∈ g.edges, '|' ∉ e.fromId.toList ∧ '|' ∉ e.toId.toList

variable {e : EdgeRow}

theorem Graph.EndpointsFree.otherEnd {g : Graph} (h : g.EndpointsFree) (he : e ∈ g.edges)
    (d : Direction) : '|' ∉ (e.otherEnd d).toList := by
  cases d with
  | outgoing => exact (h e he).2
  | incoming => exact (h e he).1

section Finished

variable {τ : Type} {g : Graph} {shape : WalkShape} {start : String} {cte : List WalkRow}
  {seen : List VisitedNode} {final : TraversalResult τ}

/-- The last call of a chain whose nodes are `seen`, when its rows were not cut. -/
structure FinishedCall (g : Graph) (shape : WalkShape) (cte : List WalkRow) (seen : List VisitedNode)
    (final : TraversalResult τ) : Prop where
  within : ∀ v ∈ seen, v.depth ≤ shape.maxDepth
  row : ∀ v ∈ seen, ∃ w ∈ cte, w.nodeId = v.id ∧ w.depth = v.depth
  met : ∀ w ∈ cte, g.nodes.contains w.nodeId = true → w.nodeId ∈ seen.map VisitedNode.id
  expanded : ∀ v ∈ seen, v.depth < shape.maxDepth → ∀ e ∈ childEdges g shape v.id,
    g.nodes.contains (e.otherEnd shape.direction) = true →
      e.otherEnd shape.direction ∈ seen.map VisitedNode.id
  truncatedBy : final.truncatedBy = analyzeCuts g shape cte
  truncated : final.truncated = final.truncatedBy.isSome
  frontier : final.truncatedBy = some .maxDepth → ∀ v ∈ seen, v.depth = shape.maxDepth →
    v.id ∈ final.frontierNodes

variable (h : FinishedCall g shape cte seen final) {v : VisitedNode}

include h

theorem FinishedCall.child_seen (hf : fanoutCut g shape cte = false) (hv : v ∈ seen)
    (hlt : v.depth < shape.maxDepth) (he : e ∈ matchingFrom g shape v.id)
    (hs : g.nodes.contains (e.otherEnd shape.direction)) :
    e.otherEnd shape.direction ∈ seen.map VisitedNode.id := by
  refine h.expanded v hv hlt e (mem_childEdges_of_fits ?_ he) hs
  obtain ⟨w, hw, hid, hd⟩ := h.row v hv
  by_contra hcut
  have : fanoutCut g shape cte := by
    simp only [fanoutCut, any_eq_true, Bool.and_eq_true, decide_eq_true_eq]
    exact ⟨w, hw, by omega, by rw [hid]; omega⟩
  rw [this] at hf
  simp at hf

omit h in
theorem analyzeCuts_eq_none (h : analyzeCuts g shape cte = none) :
    fanoutCut g shape cte = false ∧ depthCut g shape cte = false := by
  unfold analyzeCuts at h
  split at h
  next => simp at h
  next hf =>
    split at h
    next => simp at h
    next hd => exact ⟨Bool.eq_false_iff.mpr hf, Bool.eq_false_iff.mpr hd⟩

omit h in
theorem fanoutCut_of_maxDepth (h : analyzeCuts g shape cte = some .maxDepth) : fanoutCut g shape cte = false := by
  unfold analyzeCuts at h
  split at h
  next => simp at h
  next hf => exact Bool.eq_false_iff.mpr hf

theorem FinishedCall.covers (ht : final.truncated = false)
    (hstart : g.nodes.contains start → start ∈ seen.map VisitedNode.id) {x : String}
    (hx : StoredReach g shape start x) : x ∈ seen.map VisitedNode.id := by
  rw [h.truncated, h.truncatedBy] at ht
  obtain ⟨hf, hd⟩ := analyzeCuts_eq_none (by simpa using ht)
  induction hx with
  | start hs => exact hstart hs
  | @step u e _ he hs ih =>
    obtain ⟨v, hv, rfl⟩ := mem_map.mp ih
    rcases Nat.lt_or_eq_of_le (h.within v hv) with hlt | heq
    · exact h.child_seen hf hv hlt he hs
    · obtain ⟨w, hw, hid, hdep⟩ := h.row v hv
      by_contra hnew
      have : depthCut g shape cte := by
        simp only [depthCut, any_eq_true, Bool.and_eq_true, decide_eq_true_eq, Bool.not_eq_true',
          contains_eq_mem, decide_eq_false_iff_not]
        refine ⟨w, hw, hdep.trans heq, e, hid ▸ he, ?_⟩
        intro hm
        obtain ⟨w', hw', hid'⟩ := mem_map.mp hm
        exact hnew (hid' ▸ h.met w' hw' (hid' ▸ hs))
      rw [this] at hd
      simp at hd

theorem FinishedCall.frontier_starts (ht : final.truncatedBy = some .maxDepth) (hv : v ∈ seen)
    (he : e ∈ matchingFrom g shape v.id) (hs : g.nodes.contains (e.otherEnd shape.direction))
    (hout : e.otherEnd shape.direction ∉ seen.map VisitedNode.id) : v.id ∈ final.frontierNodes := by
  have hf := fanoutCut_of_maxDepth (h.truncatedBy ▸ ht)
  rcases Nat.lt_or_eq_of_le (h.within v hv) with hlt | heq
  · exact absurd (h.child_seen hf hv hlt he hs) hout
  · exact h.frontier ht v hv heq

end Finished

variable {w : WalkRow}

section Closed

variable {order : ScanOrder} {g : Graph} {state : ResumeState} {budget : Nat}

structure RowsClosed (order : ScanOrder) (g : Graph) (state : ResumeState) (budget : Nat) : Prop where
  seeds : ∀ w ∈ seedChildren order g state, w ∈ newRows order g state budget
  rows : ∀ w ∈ newRows order g state budget, ∀ x ∈ resumeTerm order g state w,
    x ∈ newRows order g state budget

def TrailIn (cte : List WalkRow) (w : WalkRow) : Prop :=
  w ∈ cte ∧ ∃ ids : List String, w.path = delimit '|' (ids.map String.toList) ∧
    ∀ y ∈ ids, '|' ∉ y.toList ∧ y ∈ cte.map WalkRow.nodeId

theorem TrailIn.mem_of_onPath {cte : List WalkRow} (h : TrailIn cte w) {y : String}
    (hy : '|' ∉ y.toList) (hp : w.onPath y) : y ∈ cte.map WalkRow.nodeId := by
  obtain ⟨_, ids, hpath, hids⟩ := h
  exact (hids y (GMesh.mem_of_onPath hpath hy (fun z hz => (hids z hz).1) hp)).2

theorem TrailIn.child {cte : List WalkRow} {x : WalkRow} (hfree : g.EndpointsFree)
    (h : TrailIn cte w) (hx : x ∈ resumeTerm order g state w) (hcte : x ∈ cte) : TrailIn cte x := by
  obtain ⟨_, ids, hpath, hids⟩ := h
  refine ⟨hcte, ids ++ [x.nodeId], ?_, ?_⟩
  · obtain ⟨_, e, _, _, _, rfl⟩ := mem_recursiveTerm.mp hx
    exact child_path hpath _ e
  · intro y hy
    rcases mem_append.mp hy with hy | hy
    · exact hids y hy
    · rw [mem_singleton.mp hy]
      obtain ⟨e, he, _, hend⟩ := resumeTerm_rowEdge hx
      exact ⟨hend ▸ hfree.otherEnd he _, mem_map_of_mem hcte⟩

theorem RowsClosed.trail (hc : RowsClosed order g state budget) (hfree : g.EndpointsFree)
    (hv : ∀ v ∈ state.visited, '|' ∉ v.id.toList) :
    ∀ w ∈ state.visited.map seedRow ++ newRows order g state budget,
      TrailIn (state.visited.map seedRow ++ newRows order g state budget) w := by
  have hseed : ∀ v ∈ state.visited,
      TrailIn (state.visited.map seedRow ++ newRows order g state budget) (seedRow v) := by
    intro v hmem
    have hcte := mem_append_left (newRows order g state budget) (mem_map_of_mem (f := seedRow) hmem)
    refine ⟨hcte, [v.id], rfl, ?_⟩
    intro y hy
    rw [mem_singleton.mp hy]
    exact ⟨hv v hmem, mem_map_of_mem (f := WalkRow.nodeId) hcte⟩
  intro w hw
  rcases mem_append.mp hw with hw | hw
  · obtain ⟨v, hmem, rfl⟩ := mem_map.mp hw
    exact hseed v hmem
  · have hall : ∀ x ∈ newRows order g state budget, x ∈ newRows order g state budget ∧
        TrailIn (state.visited.map seedRow ++ newRows order g state budget) x := by
      refine fifo_forall ?_ ?_ budget
      · intro x hx
        obtain ⟨v, hmem, hstep⟩ := mem_seedChildren.mp hx
        have hnew := hc.seeds x hx
        exact ⟨hnew, (hseed v hmem).child hfree hstep (mem_append_right _ hnew)⟩
      · rintro u ⟨hu, htrail⟩ x hx
        have hnew := hc.rows u hu x hx
        exact ⟨hnew, htrail.child hfree hx (mem_append_right _ hnew)⟩
    exact (hall w hw).2

end Closed

section Call

variable {τ : Type} {codec : TokenCodec ResumeState τ} {order : ScanOrder} {g : Graph}
  {state next : ResumeState} {budget : Nat} {kept : List VisitedNode} {final : TraversalResult τ}

/-- What a call relies on of its state; `kept` are the visited nodes that are stored. -/
structure SeenState (g : Graph) (state : ResumeState) (kept : List VisitedNode) : Prop where
  free : ∀ v ∈ state.visited, '|' ∉ v.id.toList
  within : ∀ v ∈ state.visited, v.depth ≤ state.maxDepth
  visited : ∀ v ∈ kept, v ∈ state.visited
  stored : ∀ v ∈ state.visited, g.nodes.contains v.id = true → v ∈ kept
  walked : ∀ e ∈ g.edges, e.id ∈ state.walked → g.nodes.contains (e.otherEnd state.direction) = true →
    e.otherEnd state.direction ∈ kept.map VisitedNode.id

theorem newRows_within (order : ScanOrder) (g : Graph) (state : ResumeState) (budget : Nat) :
    ∀ w ∈ newRows order g state budget, w.depth ≤ state.maxDepth := by
  have hstep : ∀ u, ∀ x ∈ resumeTerm order g state u, x.depth ≤ state.maxDepth := by
    intro u x hx
    rw [recursiveTerm_depth hx]
    exact (mem_recursiveTerm.mp hx).1
  refine fifo_forall ?_ (fun u _ => hstep u) budget
  intro w hw
  obtain ⟨v, _, hw⟩ := mem_seedChildren.mp hw
  exact hstep _ w hw

theorem SeenState.met (hs : SeenState g state kept)
    (hw : w ∈ state.visited.map seedRow ++ newRows order g state budget)
    (hn : g.nodes.contains w.nodeId) : w.nodeId ∈
      (kept ++ (newNodes order g state budget).map ReachedNode.visited).map VisitedNode.id := by
  have hvisited : ∀ v ∈ state.visited, g.nodes.contains v.id → v.id ∈
      (kept ++ (newNodes order g state budget).map ReachedNode.visited).map VisitedNode.id := by
    intro v hv hstored
    exact mem_map_of_mem (mem_append_left _ (hs.stored v hv hstored))
  rcases mem_append.mp hw with hw | hw
  · obtain ⟨v, hv, rfl⟩ := mem_map.mp hw
    exact hvisited v hv hn
  · by_cases hnew : w.nodeId ∈ state.visitedIds
    · obtain ⟨v, hv, hid⟩ := mem_map.mp hnew
      exact hid ▸ hvisited v hv (hid ▸ hn)
    · obtain ⟨r, hr, hrid, _⟩ := exists_newNode hw (KeyedTable.contains_iff.mp hn) hnew
      exact hrid ▸ mem_map_of_mem (f := VisitedNode.id)
        (mem_append_right kept (mem_map_of_mem (f := ReachedNode.visited) hr))

/-- A call whose rows hold all they expand to is a finished one. -/
theorem finishedCall_of_closed (hs : SeenState g state kept) (hc : RowsClosed order g state budget)
    (hfree : g.EndpointsFree)
    (hby : final.truncatedBy = analyzeCuts g state.toWalkShape
      (state.visited.map seedRow ++ newRows order g state budget))
    (htr : final.truncated = final.truncatedBy.isSome)
    (hfront : final.truncatedBy = some .maxDepth → ∀ v ∈ kept ++ (newNodes order g state budget).map
      ReachedNode.visited, v.depth = state.maxDepth → v.id ∈ final.frontierNodes) :
    FinishedCall g state.toWalkShape (state.visited.map seedRow ++ newRows order g state budget)
      (kept ++ (newNodes order g state budget).map ReachedNode.visited) final := by
  have hrow : ∀ v ∈ kept ++ (newNodes order g state budget).map ReachedNode.visited,
      ∃ w ∈ state.visited.map seedRow ++ newRows order g state budget, w.nodeId = v.id ∧
        w.depth = v.depth ∧ (w.edgeId = none ∨ w.nodeId ∉ state.visitedIds ∧ w.edgeId ≠ none) := by
    intro v hv
    rcases mem_append.mp hv with hv | hv
    · exact ⟨seedRow v, mem_append_left _ (mem_map_of_mem (hs.visited v hv)), rfl, rfl, Or.inl rfl⟩
    · obtain ⟨r, hr, rfl⟩ := mem_map.mp hv
      obtain ⟨_, w, hw, hid, hd⟩ := newNodes_row hr
      obtain ⟨e, _, hedge, _⟩ := newRows_rowEdge order g state budget w hw
      exact ⟨w, mem_append_right _ hw, hid, hd, Or.inr ⟨hid ▸ newNodes_not_visited hr, by simp [hedge]⟩⟩
  refine ⟨?_, ?_, fun w hw hn => hs.met hw hn, ?_, hby, htr, hfront⟩
  · intro v hv
    rcases mem_append.mp hv with hv | hv
    · exact hs.within v (hs.visited v hv)
    · obtain ⟨r, hr, rfl⟩ := mem_map.mp hv
      obtain ⟨_, w, hw, _, hd⟩ := newNodes_row hr
      exact hd.symm.le.trans (newRows_within order g state budget w hw)
  · intro v hv
    obtain ⟨w, hw, hid, hd, _⟩ := hrow v hv
    exact ⟨w, hw, hid, hd⟩
  · intro v hv hlt e he hn
    obtain ⟨w, hw, hid, hd, hkind⟩ := hrow v hv
    have hmet : ∀ x ∈ (state.visited.map seedRow ++ newRows order g state budget).map WalkRow.nodeId,
        g.nodes.contains x → x ∈
          (kept ++ (newNodes order g state budget).map ReachedNode.visited).map VisitedNode.id := by
      intro x hx hxn
      obtain ⟨u, hu, rfl⟩ := mem_map.mp hx
      exact hs.met hu hxn
    cases hp : w.onPath (e.otherEnd state.direction) with
    | true =>
      refine hmet _ ?_ hn
      exact (hc.trail hfree hs.free w hw).mem_of_onPath (hfree.otherEnd (childEdges_stored he) _) hp
    | false =>
      have hchild : resumeFilter state w e → e.otherEnd state.direction ∈
            (kept ++ (newNodes order g state budget).map ReachedNode.visited).map VisitedNode.id := by
        intro hf
        have hx : w.child state.toWalkShape e ∈ resumeTerm order g state w :=
          mem_recursiveTerm.mpr ⟨by omega, e, hid ▸ he, hp, hf, rfl⟩
        refine hmet _ (mem_map.mpr ⟨w.child state.toWalkShape e, mem_append_right _ ?_, rfl⟩) hn
        rcases mem_append.mp hw with hw | hw
        · obtain ⟨u, hu, rfl⟩ := mem_map.mp hw
          exact hc.seeds _ (mem_seedChildren.mpr ⟨u, hu, hx⟩)
        · exact hc.rows w hw _ hx
      rcases hkind with hseed | ⟨hnew, hedge⟩
      · by_cases hwalked : e.id ∈ state.walked
        · have := hs.walked e (childEdges_stored he) hwalked hn
          rw [map_append]
          exact mem_append_left _ this
        · exact hchild (by simp [resumeFilter, hseed, hwalked])
      · obtain ⟨id, hsome⟩ := Option.ne_none_iff_exists'.mp hedge
        exact hchild (by simp [resumeFilter, hsome, hnew])

/-- The query has at most `limit` rows, or none of those read is of a missing node. -/
def RowsStored (g : Graph) (cte : Nat → List WalkRow) (limit : Nat) : Prop :=
  (cte (limit + 1)).length ≤ limit ∨ ∀ w ∈ cte limit, g.nodes.contains w.nodeId = true

theorem rowsClosed_of_lt (limit : Nat) (hle : (newRows order g state limit).length < limit)
    (heq : newRows order g state limit = newRows order g state budget) : RowsClosed order g state budget := by
  obtain ⟨hseeds, hrows⟩ := fifo_closed hle
  exact ⟨heq ▸ hseeds, heq ▸ hrows⟩

theorem rowsClosed_of_short
    (h : (resumeCte order g state (state.visited.length + budget + 1)).length ≤ state.visited.length + budget) :
    RowsClosed order g state budget := by
  rw [Nat.add_assoc, resumeCte_eq, length_append, length_map] at h
  have hle : (newRows order g state (budget + 1)).length ≤ budget := by omega
  have htake : newRows order g state budget = (newRows order g state (budget + 1)).take budget :=
    fifo_take (Nat.le_succ budget) _
  rw [take_of_length_le hle] at htake
  exact rowsClosed_of_lt (budget + 1) (by omega) htake.symm

theorem rowsClosed_of_rowsStored (h : RowsStored g (resumeCte order g state) (state.visited.length + budget))
    (hlt : (reportedRows g (resumeCte order g state (state.visited.length + budget))).length < budget) :
    RowsClosed order g state budget := by
  rcases h with h | h
  · exact rowsClosed_of_short h
  · rw [resumeCte_eq] at h hlt
    rw [reportedRows_length (newRows_rowEdge order g state budget) (fun w hw => h w (mem_append_right _ hw))] at hlt
    exact rowsClosed_of_lt budget hlt rfl

/-- A call hands on what the next one relies on. -/
theorem SeenState.advance (hs : SeenState g state state.visited) (hfree : g.EndpointsFree)
    (hstored : ∀ v ∈ state.visited, g.nodes.contains v.id)
    (h : CallState order g state budget next) :
    SeenState g next next.visited ∧ ∀ v ∈ next.visited, g.nodes.contains v.id := by
  have hmem : ∀ v ∈ next.visited, v ∈ state.visited ∨ ∃ r ∈ newNodes order g state budget, r.visited = v := by
    intro v hv
    rcases mem_append.mp (h.visited.mem_iff.mp hv) with hv | hv
    · exact .inl hv
    · exact .inr (mem_map.mp hv)
  refine ⟨⟨?_, ?_, fun _ hv => hv, fun _ hv _ => hv, ?_⟩, ?_⟩
  · intro v hv
    rcases hmem v hv with hv | ⟨r, hr, rfl⟩
    · exact hs.free v hv
    · obtain ⟨_, w, hw, hid, _⟩ := newNodes_row hr
      obtain ⟨e, he, _, hend⟩ := newRows_rowEdge order g state budget w hw
      have := hfree.otherEnd he state.direction
      rwa [hend, hid] at this
  · intro v hv
    rw [h.shape]
    rcases hmem v hv with hv | ⟨r, hr, rfl⟩
    · exact hs.within v hv
    · obtain ⟨_, w, hw, _, hd⟩ := newNodes_row hr
      exact hd.symm.le.trans (newRows_within order g state budget w hw)
  · intro e he hid hn
    rw [h.shape] at hn ⊢
    rcases (h.walked e.id).mp hid with hid | ⟨f, hf, hfid⟩
    · exact (mem_visitedIds_of_perm h.visited).mpr (.inl (hs.walked e he hid hn))
    · have hchild := newEdges_child_visited h.visited hf
      obtain ⟨e₀, he₀, rfl, _⟩ := newEdges_row hf
      have : e₀ = e := g.edges.key_injective he₀ he hfid
      subst this
      rwa [otherEnd_record] at hchild
  · intro v hv
    rcases hmem v hv with hv | ⟨r, hr, rfl⟩
    · exact hstored v hv
    · exact KeyedTable.contains_iff.mpr ⟨r.node, (newNodes_row hr).1, rfl⟩

theorem ReportsCall.finishedCall (h : ReportsCall codec order g state budget next final)
    (hs : SeenState g state state.visited) (hfree : g.EndpointsFree)
    (hrows : RowsStored g (resumeCte order g state) (state.visited.length + budget))
    (ht : final.resumeToken = none) :
    ∃ cte, FinishedCall g state.toWalkShape cte
      (state.visited ++ (newNodes order g state budget).map ReachedNode.visited) final := by
  have hby := h.truncatedBy
  split at hby
  next =>
    rw [h.token, hby] at ht
    simp [continuation] at ht
  next hlt =>
    rw [resumeCte_eq] at hby
    refine ⟨_, finishedCall_of_closed hs (rowsClosed_of_rowsStored hrows (by omega)) hfree hby h.truncated ?_⟩
    intro hmax v hv hd
    rw [h.frontier, hmax, h.moved.shape]
    refine mem_map.mpr ⟨v, List.mem_filter.mpr ⟨h.moved.visited.mem_iff.mpr hv, ?_⟩, rfl⟩
    simpa using hd

theorem FinishedCall.congr {shape : WalkShape} {cte : List WalkRow} {seen seen' : List VisitedNode}
    (h : FinishedCall g shape cte seen final) (hp : seen.Perm seen') : FinishedCall g shape cte seen' final := by
  have hids : ∀ x, x ∈ seen'.map VisitedNode.id ↔ x ∈ seen.map VisitedNode.id :=
    fun x => (hp.map VisitedNode.id).mem_iff.symm
  refine ⟨fun v hv => h.within v (hp.mem_iff.mpr hv), fun v hv => h.row v (hp.mem_iff.mpr hv), ?_, ?_,
    h.truncatedBy, h.truncated, fun ht v hv => h.frontier ht v (hp.mem_iff.mpr hv)⟩
  · intro w hw hn
    exact (hids _).mpr (h.met w hw hn)
  · intro v hv hlt e he hn
    exact (hids _).mpr (h.expanded v (hp.mem_iff.mpr hv) hlt e he hn)

end Call

open KeyedTable

section Chain

variable {τ : Type} {codec : TokenCodec ResumeState τ} {g : Graph} {shape : WalkShape} {start : String}
  {calls : Nat → WalkCall}

theorem walkCall_reports {token : τ} {state : ResumeState} {i : Nat} {result : TraversalResult τ}
    (ht : codec.decode token = .ok state) (h : walkCall codec g shape start calls i (some token) = .ok result) :
    ∃ next, ReportsCall codec (calls i).order g state (calls i).explorationBudget next result ∧
      result.nodes = newNodes (calls i).order g state (calls i).explorationBudget := by
  simp only [walkCall, resume, ht] at h
  cases h
  exact resumeState_reports _ codec g state _

/-- The call explores at all, and its limit does not cut behind a row of a missing node. -/
def CallMeets (codec : TokenCodec ResumeState τ) (g : Graph) (shape : WalkShape) (start : String)
    (calls : Nat → WalkCall) (i : Nat) : Option τ → Prop
  | none => 1 ≤ (calls i).explorationBudget ∧
      RowsStored g (walkCte (calls i).order g shape start) (calls i).explorationBudget
  | some token => ∀ state, codec.decode token = .ok state →
      RowsStored g (resumeCte (calls i).order g state) (state.visited.length + (calls i).explorationBudget)

variable {results : List (TraversalResult τ)}

section

variable (hmeets : ∀ i t, CallMade (walkCall codec g shape start calls) TraversalResult.resumeToken i t →
  CallMeets codec g shape start calls i t)

include hmeets

theorem resumed_chain_finished (hfree : g.EndpointsFree) {i : Nat} {t : Option τ}
    (h : CallChain (walkCall codec g shape start calls) TraversalResult.resumeToken i t results)
    (hmade : CallMade (walkCall codec g shape start calls) TraversalResult.resumeToken i t) {token : τ}
    {state : ResumeState} (ht : t = some token) (hdec : codec.decode token = .ok state)
    (hshape : state.toWalkShape = shape) (hs : SeenState g state state.visited)
    (hstored : ∀ v ∈ state.visited, g.nodes.contains v.id) :
    ∃ final cte, results.getLast? = some final ∧ FinishedCall g shape cte
      (state.visited ++ (results.flatMap TraversalResult.nodes).map ReachedNode.visited) final := by
  induction h generalizing token state with
  | @last i _ _ hcall hnone =>
    subst ht hshape
    obtain ⟨next, hrep, hnodes⟩ := walkCall_reports hdec hcall
    obtain ⟨cte, hfin⟩ := hrep.finishedCall hs hfree (hmeets i _ hmade state hdec) hnone
    refine ⟨_, cte, rfl, ?_⟩
    rwa [flatMap_singleton, hnodes]
  | @next _ _ _ _ _ hcall htok _ ih =>
    have hmade' := CallMade.next hmade hcall htok
    subst ht
    obtain ⟨next, hrep, hnodes⟩ := walkCall_reports hdec hcall
    rw [hrep.token] at htok
    obtain ⟨_, rfl⟩ := continuation_eq_some.mp htok
    obtain ⟨hs', hstored'⟩ := hs.advance hfree hstored hrep.moved
    obtain ⟨final, cte, hlast, hfin⟩ := ih hmade' rfl (codec.decode_encode next)
      (hrep.moved.shape.trans hshape) hs' hstored'
    refine ⟨final, cte, ?_, hfin.congr ?_⟩
    · rw [getLast?_cons, hlast]
      rfl
    · rw [flatMap_cons, map_append, ← append_assoc, hnodes]
      exact hrep.moved.visited.append_right _

omit hmeets in
theorem freshState_seen (hstart : '|' ∉ start.toList) {kept : List VisitedNode}
    (hkept : ∀ v ∈ kept, v = ⟨start, 0⟩) (hs : g.nodes.contains start → ⟨start, 0⟩ ∈ kept) :
    SeenState g (freshState shape start) kept where
  free := by
    intro v hv
    rw [mem_singleton.mp hv]
    exact hstart
  within := by
    intro v hv
    rw [mem_singleton.mp hv]
    exact Nat.zero_le _
  visited := fun v hv => mem_singleton.mpr (hkept v hv)
  stored := by
    intro v hv hn
    rw [mem_singleton.mp hv] at hn ⊢
    exact hs hn
  walked := by simp [freshState]

omit hmeets in
theorem rowsStored_fresh {order : ScanOrder} {budget : Nat}
    (h : RowsStored g (walkCte order g shape start) (budget + 1)) :
    RowsStored g (resumeCte order g (freshState shape start)) ((freshState shape start).visited.length + budget) := by
  have hlen : (freshState shape start).visited.length + budget = budget + 1 := Nat.add_comm 1 budget
  rw [hlen]
  simpa only [RowsStored, walkCte_eq_resumeCte] using h

/-- A chain from a stored node ends with a finished call. -/
theorem stored_chain_finished (hfree : g.EndpointsFree) (hstart : '|' ∉ start.toList) {n : NodeRow}
    (hn : g.nodes.find? start = some n)
    (h : CallChain (walkCall codec g shape start calls) TraversalResult.resumeToken 0 none results) :
    start ∈ (results.flatMap TraversalResult.nodes).map ReachedNode.id ∧
    ∃ final cte, results.getLast? = some final ∧ FinishedCall g shape cte
      ((results.flatMap TraversalResult.nodes).map ReachedNode.visited) final := by
  obtain ⟨hb, hrows⟩ := hmeets 0 none .first
  obtain ⟨budget, hbudget⟩ := Nat.exists_eq_add_of_le' hb
  rw [hbudget] at hrows
  obtain ⟨hmem, hid⟩ := find?_eq_some_iff.mp hn
  have hcontains : g.nodes.contains start := contains_iff.mpr ⟨n, hmem, hid⟩
  have hs : SeenState g (freshState shape start) (freshState shape start).visited :=
    freshState_seen hstart (fun v hv => mem_singleton.mp hv) (fun _ => mem_cons_self)
  have hstored : ∀ v ∈ (freshState shape start).visited, g.nodes.contains v.id := by
    intro v hv
    rw [mem_singleton.mp hv]
    exact hcontains
  obtain ⟨next, hrep, hnodes, hvis⟩ := traverse_reports (calls 0).order codec shape hn budget
  rw [← hbudget] at hrep hnodes hvis
  have hfirst : start ∈ (traverse (calls 0).order codec g
      ⟨shape, start, (calls 0).explorationBudget⟩).nodes.map ReachedNode.id := by
    rw [hnodes, map_cons]
    exact mem_cons.mpr (.inl hid.symm)
  cases h with
  | last hcall hnone =>
    cases hcall
    obtain ⟨cte, hfin⟩ := hrep.finishedCall hs hfree (rowsStored_fresh hrows) hnone
    rw [flatMap_singleton]
    refine ⟨hfirst, _, cte, rfl, hfin.congr ?_⟩
    rw [← hvis]
    exact hrep.moved.visited.symm
  | next hcall htok hrest =>
    have hmade := CallMade.next .first hcall htok
    cases hcall
    rw [hrep.token] at htok
    obtain ⟨_, rfl⟩ := continuation_eq_some.mp htok
    obtain ⟨hs', hstored'⟩ := hs.advance hfree hstored hrep.moved
    obtain ⟨final, cte, hlast, hfin⟩ := resumed_chain_finished hmeets hfree hrest hmade rfl
      (codec.decode_encode next) hrep.moved.shape hs' hstored'
    rw [flatMap_cons, map_append, map_append, ← hvis]
    refine ⟨mem_append_left _ hfirst, final, cte, ?_, hfin⟩
    rw [getLast?_cons, hlast]
    rfl

end

variable (hn : g.nodes.find? start = none) (order : ScanOrder)

include hn

theorem runWalk_missing (shape : WalkShape) (budget : Nat) :
    runWalk g (walkCte order g shape start (budget + 1)) =
      runWalk g (newRows order g (freshState shape start) budget) := by
  have hjoin : joinRow g (seedRow ⟨start, 0⟩) = none := by simp [joinRow, seedRow, hn]
  rw [freshCte_split, runWalk, filterMap_cons_none hjoin, runWalk]

theorem newNodes_missing (shape : WalkShape) (budget : Nat) :
    keepFirst ReachedNode.id [] ((runWalk g (walkCte order g shape start (budget + 1))).map JoinedRow.reached) =
      newNodes order g (freshState shape start) budget := by
  rw [newNodes, ← freshCte_eq, reportedRows, runWalk_missing hn order shape, runWalk_newRows_edges]
  refine keepFirst_congr ?_
  intro r hr
  obtain ⟨j, hj, rfl⟩ := mem_map.mp hr
  obtain ⟨w, _, hj⟩ := mem_filterMap.mp ((runWalk_perm g _).mem_iff.mp hj)
  have hstored := (joinRow_eq_some.mp hj).1.1
  simp only [not_mem_nil, ResumeState.visitedIds, freshState, map_cons, map_nil, mem_singleton, false_iff]
  intro hid
  exact find?_eq_none_iff.mp hn j.node hstored hid

theorem missing_chain_finished (hfree : g.EndpointsFree) (hstart : '|' ∉ start.toList)
    (hmeets : CallMeets codec g shape start calls 0 none) :
    (traverse (calls 0).order codec g ⟨shape, start, (calls 0).explorationBudget⟩).resumeToken = none ∧
    ∃ cte, FinishedCall g shape cte
      ((traverse (calls 0).order codec g ⟨shape, start, (calls 0).explorationBudget⟩).nodes.map ReachedNode.visited)
      (traverse (calls 0).order codec g ⟨shape, start, (calls 0).explorationBudget⟩) := by
  obtain ⟨hb, hrows⟩ := hmeets
  obtain ⟨budget, hbudget⟩ := Nat.exists_eq_add_of_le' hb
  rw [hbudget] at hrows ⊢
  have hlen : (runWalk g (walkCte (calls 0).order g shape start (budget + 1))).length < budget + 1 := by
    rw [runWalk_missing hn _ _, (runWalk_perm g _).length_eq]
    exact Nat.lt_succ_of_le ((length_filterMap_le _ _).trans (fifo_length_le budget _))
  have hclosed : RowsClosed (calls 0).order g (freshState shape start) budget := by
    rcases rowsStored_fresh hrows with hshort | hall
    · exact rowsClosed_of_short hshort
    · have hseed := hall (seedRow ⟨start, 0⟩) (by
        rw [resumeCte_eq]
        exact mem_append_left _ mem_cons_self)
      rw [KeyedTable.contains, show (seedRow ⟨start, 0⟩).nodeId = start from rfl, hn] at hseed
      simp at hseed
  have hseen : SeenState g (freshState shape start) [] :=
    freshState_seen hstart (by simp) (by simp [KeyedTable.contains, hn])
  have hby : (traverse (calls 0).order codec g ⟨shape, start, budget + 1⟩).truncatedBy =
      analyzeCuts g shape (walkCte (calls 0).order g shape start (budget + 1)) :=
    if_neg (Nat.not_le.mpr hlen)
  have hnodes : (traverse (calls 0).order codec g ⟨shape, start, budget + 1⟩).nodes =
      newNodes (calls 0).order g (freshState shape start) budget :=
    newNodes_missing hn (calls 0).order shape budget
  constructor
  · rw [Option.eq_none_iff_forall_ne_some]
    intro token ht
    have hbudget := (continuation_eq_some.mp ht).1
    exact analyzeCuts_ne_budget g shape _ (hby.symm.trans hbudget)
  · rw [hnodes]
    rw [freshCte_split] at hby
    refine ⟨_, finishedCall_of_closed hseen hclosed hfree hby rfl ?_⟩
    intro hmax v hv hd
    rw [nil_append, ← hnodes] at hv
    have hfront : (traverse (calls 0).order codec g ⟨shape, start, budget + 1⟩).frontierNodes =
        frontierNodes (traverse (calls 0).order codec g ⟨shape, start, budget + 1⟩).truncatedBy
          ((traverse (calls 0).order codec g ⟨shape, start, budget + 1⟩).nodes.map ReachedNode.visited)
          shape.maxDepth := rfl
    rw [hfront, hmax]
    exact mem_map.mpr ⟨v, mem_filter.mpr ⟨hv, beq_iff_eq.mpr hd⟩, rfl⟩

end Chain

/-- In a chain whose calls meet the condition, the last call is complete only when every stored node within reach was
reported, and when depth alone cut it names the source of every edge that leads out. -/
theorem uncut_chain_never_hides {τ : Type} (codec : TokenCodec ResumeState τ) (g : Graph)
    (shape : WalkShape) (start : String) (calls : Nat → WalkCall) (hfree : g.EndpointsFree)
    (hstart : '|' ∉ start.toList)
    (hmeets : ∀ i t, CallMade (walkCall codec g shape start calls) TraversalResult.resumeToken i t →
      CallMeets codec g shape start calls i t)
    {results : List (TraversalResult τ)}
    (h : CallChain (walkCall codec g shape start calls) TraversalResult.resumeToken 0 none results)
    {final : TraversalResult τ} (hlast : results.getLast? = some final) :
    (final.truncated = false → ∀ x, StoredReach g shape start x →
      x ∈ (results.flatMap TraversalResult.nodes).map ReachedNode.id) ∧
    (final.truncatedBy = some .maxDepth → ∀ r ∈ results.flatMap TraversalResult.nodes,
      ∀ e ∈ matchingFrom g shape r.id, g.nodes.contains (e.otherEnd shape.direction) = true →
      e.otherEnd shape.direction ∉ (results.flatMap TraversalResult.nodes).map ReachedNode.id →
      r.id ∈ final.frontierNodes) := by
  have hids : ∀ nodes : List ReachedNode,
      (nodes.map ReachedNode.visited).map VisitedNode.id = nodes.map ReachedNode.id := fun _ => map_map
  obtain ⟨cte, hfin, hfirst⟩ : ∃ cte, FinishedCall g shape cte
      ((results.flatMap TraversalResult.nodes).map ReachedNode.visited) final ∧
      (g.nodes.contains start = true → start ∈ (results.flatMap TraversalResult.nodes).map ReachedNode.id) := by
    cases hn : g.nodes.find? start with
    | some n =>
      obtain ⟨hmem, last, cte, hl, hfin⟩ := stored_chain_finished hmeets hfree hstart hn h
      cases (hlast.symm.trans hl)
      exact ⟨cte, hfin, fun _ => hmem⟩
    | none =>
      obtain ⟨htok, cte, hfin⟩ := missing_chain_finished hn hfree hstart (hmeets 0 none .first)
      refine ⟨cte, ?_, by simp [KeyedTable.contains, hn]⟩
      cases h with
      | last hcall _ =>
        cases hcall
        cases hlast
        rwa [flatMap_singleton]
      | next hcall hsome =>
        cases hcall
        rw [htok] at hsome
        simp at hsome
  constructor
  · intro ht x hx
    have := hfin.covers ht (fun hs => hids _ ▸ hfirst hs) hx
    rwa [hids] at this
  · intro ht r hr e he hs hout
    exact hfin.frontier_starts ht (mem_map_of_mem hr) he hs (by rwa [hids])

/-- `a` calls a function that is no longer stored, and `b`, which calls `c`. -/
def staleCall : Graph where
  nodes := ⟨[{ id := "a" }, { id := "b" }, { id := "c" }], by decide⟩
  edges := ⟨[{ id := "ax", fromId := "a", toId := "x" }, { id := "ab", fromId := "a", toId := "b" },
    { id := "bc", fromId := "b", toId := "c" }], by decide⟩

def callShape : WalkShape := { direction := .outgoing, maxDepth := 5, maxFanout := 50 }

/-- Four rows of budget are enough for the walk's four rows. -/
theorem uncut_chain_staleCall :
    ∃ results : List (TraversalResult ResumeState), results.getLast?.map TraversalResult.truncated = some false ∧
      ∀ x, StoredReach staleCall callShape "a" x →
        x ∈ (results.flatMap TraversalResult.nodes).map ReachedNode.id := by
  let first := traverse ScanOrder.asListed (TokenCodec.verbatim ResumeState) staleCall ⟨callShape, "a", 4⟩
  have htok : first.resumeToken = none := by decide
  have honly : ∀ i t, CallMade (walkCall (TokenCodec.verbatim ResumeState) staleCall callShape "a"
      (fun _ => ⟨ScanOrder.asListed, 4⟩)) TraversalResult.resumeToken i t → i = 0 ∧ t = none := by
    intro i t hm
    induction hm with
    | first => exact ⟨rfl, rfl⟩
    | next _ hcall hsome ih =>
      obtain ⟨rfl, rfl⟩ := ih
      cases hcall
      exact absurd (htok.symm.trans hsome) (by simp)
  have hmain := uncut_chain_never_hides (TokenCodec.verbatim ResumeState) staleCall callShape "a"
    (fun _ => ⟨ScanOrder.asListed, 4⟩) (by unfold Graph.EndpointsFree; decide) (by decide)
    (by
      intro i t hm
      obtain ⟨rfl, rfl⟩ := honly i t hm
      exact ⟨by decide, Or.inl (by decide)⟩)
    (.last rfl htok) rfl
  exact ⟨[first], rfl, hmain.1 rfl⟩

/-- With three, the dropped row hides that the budget was spent. -/
theorem budget_hidden_staleCall :
    StoredReach staleCall callShape "a" "c" ∧
    CallChain (walkCall (TokenCodec.verbatim ResumeState) staleCall callShape "a"
      (fun _ => ⟨ScanOrder.asListed, 3⟩)) TraversalResult.resumeToken 0 none
      [traverse ScanOrder.asListed (TokenCodec.verbatim ResumeState) staleCall ⟨callShape, "a", 3⟩] ∧
    (traverse ScanOrder.asListed (TokenCodec.verbatim ResumeState) staleCall
      ⟨callShape, "a", 3⟩).truncated = false ∧
    (traverse ScanOrder.asListed (TokenCodec.verbatim ResumeState) staleCall
      ⟨callShape, "a", 3⟩).nodes.map ReachedNode.id = ["a", "b"] := by
  refine ⟨?_, .last rfl (by decide), by decide, by decide⟩
  have ha : StoredReach staleCall callShape "a" "a" := .start (by decide)
  have hb : StoredReach staleCall callShape "a" "b" :=
    .step (e := { id := "ab", fromId := "a", toId := "b" }) ha (by decide) (by decide)
  exact .step (e := { id := "bc", fromId := "b", toId := "c" }) hb (by decide) (by decide)

end GMesh
