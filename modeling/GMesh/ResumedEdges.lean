import GMesh.WalkChain
import GMesh.ResumedWalk

namespace GMesh

open List

/-- A route from `start` that meets no node twice, the node met last in front. -/
inductive Trail {ν : Type} (hop : ν → ν → Prop) (start : ν) : List ν → Prop
  | start : Trail hop start [start]
  | step {u v : ν} {ids : List ν} : Trail hop start (u :: ids) → hop u v → v ∉ u :: ids →
      Trail hop start (v :: u :: ids)

theorem Trail.reach {ν : Type} {hop : ν → ν → Prop} {start u : ν} {ids : List ν}
    (h : Trail hop start (u :: ids)) : ReachIn hop start ids.length u := by
  generalize hl : u :: ids = l at h
  induction h generalizing u ids with
  | start =>
    cases hl
    exact .start
  | step _ huv _ ih =>
    cases hl
    exact .step (ih rfl) huv

/-- The edges a walk selects, those of a node to itself apart. -/
def OfferedEdge (g : Graph) (shape : WalkShape) (start : String) (e : EdgeRow) : Prop :=
  ∃ u k, WalkDist g shape start k u ∧ k < shape.maxDepth ∧ e ∈ childEdges g shape u ∧
    e.otherEnd shape.direction ≠ u

/-- Some route to the near end of `e` within the depth limit does not meet its far end. -/
def OpenEdge (g : Graph) (shape : WalkShape) (start : String) (e : EdgeRow) : Prop :=
  ∃ u ids, Trail (WalkHop g shape) start (u :: ids) ∧ ids.length < shape.maxDepth ∧
    e ∈ childEdges g shape u ∧ e.otherEnd shape.direction ∉ u :: ids

theorem OpenEdge.offered {g : Graph} {shape : WalkShape} {start : String} {e : EdgeRow}
    (h : OpenEdge g shape start e) : OfferedEdge g shape start e := by
  obtain ⟨u, ids, htrail, hlt, he, hout⟩ := h
  obtain ⟨k, hk, hdist⟩ := htrail.reach.exists_isDist
  refine ⟨u, k, hdist, by omega, he, ?_⟩
  intro heq
  exact hout (heq ▸ mem_cons_self)

def PathEnds (w : WalkRow) : Prop :=
  ∃ ids : List String, w.path = delimit '|' ((ids ++ [w.nodeId]).map String.toList)

variable {w : WalkRow}

theorem PathEnds.onPath_self (h : PathEnds w) : w.onPath w.nodeId := by
  obtain ⟨ids, hpath⟩ := h
  rw [WalkRow.onPath, decide_eq_true_iff, hpath]
  exact delimit_infix_of_mem (mem_map_of_mem (by simp))

theorem PathEnds.child (h : PathEnds w) (shape : WalkShape) (e : EdgeRow) : PathEnds (w.child shape e) := by
  obtain ⟨ids, hpath⟩ := h
  exact ⟨ids ++ [w.nodeId], child_path hpath shape e⟩

theorem seedRow_pathEnds (v : VisitedNode) : PathEnds (seedRow v) :=
  ⟨[], rfl⟩

def TrailRow (g : Graph) (shape : WalkShape) (start : String) (w : WalkRow) : Prop :=
  ∃ ids, Trail (WalkHop g shape) start (w.nodeId :: ids) ∧ w.depth = ids.length ∧
    w.path = delimit '|' ((w.nodeId :: ids).reverse.map String.toList)

theorem TrailRow.child {g : Graph} {shape : WalkShape} {start : String} {e : EdgeRow} (h : TrailRow g shape start w)
    (he : e ∈ childEdges g shape w.nodeId) (hp : w.onPath (e.otherEnd shape.direction) = false) :
    TrailRow g shape start (w.child shape e) := by
  obtain ⟨ids, htrail, hdepth, hpath⟩ := h
  have hout : e.otherEnd shape.direction ∉ w.nodeId :: ids := by
    have := not_mem_of_not_onPath hpath hp
    rwa [mem_reverse] at this
  refine ⟨w.nodeId :: ids, .step htrail ⟨e, he, rfl⟩ hout, ?_, ?_⟩
  · simp only [WalkRow.child, length_cons]
    omega
  · rw [reverse_cons]
    exact child_path hpath shape e

theorem seedRow_trailRow (g : Graph) (shape : WalkShape) (start : String) :
    TrailRow g shape start (seedRow ⟨start, 0⟩) :=
  ⟨[], .start, rfl, rfl⟩

theorem newRows_trailRow (order : ScanOrder) (g : Graph) (shape : WalkShape) (start : String) (budget : Nat) :
    ∀ w ∈ newRows order g (freshState shape start) budget, TrailRow g shape start w := by
  refine fifo_forall ?_ ?_ budget
  · intro w hw
    obtain ⟨v, hv, hw⟩ := mem_seedChildren.mp hw
    rw [mem_singleton.mp hv] at hw
    obtain ⟨_, e, he, hp, _, rfl⟩ := mem_recursiveTerm.mp hw
    exact (seedRow_trailRow g shape start).child he hp
  · intro w hw x hx
    obtain ⟨_, e, he, hp, _, rfl⟩ := mem_recursiveTerm.mp hx
    exact hw.child he hp

section Rows

variable {order : ScanOrder} {g : Graph} {start : String} {state : ResumeState} {budget : Nat}

theorem newRows_parent {x : WalkRow} (h : x ∈ newRows order g state budget) :
    ∃ p, (p ∈ state.visited.map seedRow ∨ p ∈ newRows order g state budget) ∧ x ∈ resumeTerm order g state p := by
  rcases fifo_origin h with hq | ⟨p, hp, hx⟩
  · obtain ⟨v, hv, hx⟩ := mem_seedChildren.mp hq
    exact ⟨seedRow v, .inl (mem_map_of_mem hv), hx⟩
  · exact ⟨p, .inr hp, hx⟩

theorem newRows_pathEnds (order : ScanOrder) (g : Graph) (state : ResumeState) (budget : Nat) :
    ∀ w ∈ newRows order g state budget, PathEnds w := by
  refine fifo_forall ?_ ?_ budget
  · intro w hw
    obtain ⟨v, _, hw⟩ := mem_seedChildren.mp hw
    obtain ⟨_, e, _, _, _, rfl⟩ := mem_recursiveTerm.mp hw
    exact (seedRow_pathEnds v).child _ e
  · intro w hw x hx
    obtain ⟨_, e, _, _, _, rfl⟩ := mem_recursiveTerm.mp hx
    exact hw.child _ e

/-- A row no deeper than a trail is long, on a path that does not leave it. -/
def StaysOn (w : WalkRow) (trail : List String) : Prop :=
  w.depth < trail.length ∧
    ∃ met : List String, w.path = delimit '|' (met.map String.toList) ∧ ∀ y ∈ met, y ∈ trail

variable {trail : List String}

theorem StaysOn.child {w : WalkRow} (h : StaysOn w trail) (shape : WalkShape) (e : EdgeRow) :
    StaysOn (w.child shape e) (e.otherEnd shape.direction :: trail) := by
  obtain ⟨hdepth, met, hpath, hmet⟩ := h
  refine ⟨by simpa [WalkRow.child] using hdepth, _, child_path hpath shape e, fun y hy => ?_⟩
  rcases mem_append.mp hy with hy | hy
  · exact mem_cons_of_mem _ (hmet y hy)
  · rw [mem_singleton.mp hy]
    exact mem_cons_self

theorem StaysOn.expands {w : WalkRow} (h : StaysOn w trail) (hfree : ∀ y ∈ trail, '|' ∉ y.toList) {e : EdgeRow}
    (he : e ∈ childEdges g state.toWalkShape w.nodeId) (hv : '|' ∉ (e.otherEnd state.direction).toList)
    (hout : e.otherEnd state.direction ∉ trail) (hk : trail.length ≤ state.maxDepth)
    (hf : resumeFilter state w e) : w.child state.toWalkShape e ∈ resumeTerm order g state w := by
  obtain ⟨hdepth, met, hpath, hmet⟩ := h
  refine mem_recursiveTerm.mpr ⟨by omega, e, he, ?_, hf, rfl⟩
  exact Bool.eq_false_iff.mpr fun hp => hout (hmet _ (mem_of_onPath hpath hv (fun y hy => hfree y (hmet y hy)) hp))

variable {ids : List String}

theorem seedRow_staysOn (hi : TokenInv g start state) {v : VisitedNode} (hv : v ∈ state.visited)
    (h : Trail (WalkHop g state.toWalkShape) start (v.id :: ids)) : StaysOn (seedRow v) (v.id :: ids) := by
  have hle : v.depth ≤ ids.length := (hi.dist v hv).least _ h.reach
  refine ⟨by simp only [seedRow, length_cons]; omega, [v.id], rfl, ?_⟩
  intro y hy
  rw [mem_singleton.mp hy]
  exact mem_cons_self

structure ClosedRows (order : ScanOrder) (g : Graph) (state : ResumeState) (rows : List WalkRow) : Prop where
  seeds : ∀ w ∈ seedChildren order g state, w ∈ rows
  edge : ∀ w ∈ rows, RowEdge g state w
  closed : ∀ w ∈ rows, ∀ x ∈ resumeTerm order g state w, x ∈ rows

/-- The last node of a trail is visited, or a row along the trail has come to it. -/
def ComesTo (state : ResumeState) (rows : List WalkRow) (x : String) (ids : List String) : Prop :=
  x ∈ state.visitedIds ∨ ∃ w ∈ rows, w.nodeId = x ∧ StaysOn w (x :: ids)

theorem ComesTo.expands {rows : List WalkRow} {u : String} {e : EdgeRow} (hc : ComesTo state rows u ids)
    (hi : TokenInv g start state) (hr : ClosedRows order g state rows) (hfree : ∀ y ∈ u :: ids, '|' ∉ y.toList)
    (h : Trail (WalkHop g state.toWalkShape) start (u :: ids)) (he : e ∈ childEdges g state.toWalkShape u)
    (hv : '|' ∉ (e.otherEnd state.direction).toList) (hout : e.otherEnd state.direction ∉ u :: ids)
    (hk : ids.length < state.maxDepth) :
    e.id ∈ state.walked ∨ ∃ w ∈ rows, w.nodeId = e.otherEnd state.direction ∧ w.edgeId = some e.id ∧
      StaysOn w (e.otherEnd state.direction :: u :: ids) := by
  by_cases hwalked : e.id ∈ state.walked
  · exact .inl hwalked
  refine .inr ?_
  by_cases hvis : u ∈ state.visitedIds
  · obtain ⟨v, hmem, rfl⟩ := mem_map.mp hvis
    have hseed := seedRow_staysOn hi hmem h
    refine ⟨(seedRow v).child state.toWalkShape e, ?_, rfl, rfl, hseed.child _ e⟩
    refine hr.seeds _ (mem_seedChildren.mpr ⟨v, hmem, hseed.expands hfree he hv hout hk ?_⟩)
    simp [resumeFilter, seedRow, hwalked]
  · obtain ⟨w, hw, rfl, hon⟩ := hc.resolve_left hvis
    refine ⟨w.child state.toWalkShape e, ?_, rfl, rfl, hon.child _ e⟩
    refine hr.closed w hw _ (hon.expands hfree he hv hout hk ?_)
    obtain ⟨_, _, hid, _⟩ := hr.edge w hw
    simp [resumeFilter, hid, hvis]

theorem Trail.comesTo {rows : List WalkRow} (h : Trail (WalkHop g state.toWalkShape) start trail)
    (hi : TokenInv g start state) (hr : ClosedRows order g state rows) (hfree : ∀ y ∈ trail, '|' ∉ y.toList)
    (hk : trail.length ≤ state.maxDepth + 1) {x : String} (hx : trail = x :: ids) : ComesTo state rows x ids := by
  induction h generalizing x ids with
  | start =>
    cases hx
    exact .inl (mem_map_of_mem hi.startVisited)
  | @step u v ids' htrail hop hout ih =>
    cases hx
    obtain ⟨e, he, rfl⟩ := hop
    by_cases hvis : e.otherEnd state.direction ∈ state.visitedIds
    · exact .inl hvis
    have hfree' : ∀ y ∈ u :: ids', '|' ∉ y.toList := (forall_mem_cons.mp hfree).2
    simp only [length_cons] at hk
    have hprev := ih hfree' (by simp only [length_cons]; omega) rfl
    rcases hprev.expands hi hr hfree' htrail he (hfree _ mem_cons_self) hout (by omega) with hw | hw
    · exact absurd (hi.walked e (childEdges_stored he) hw) hvis
    · obtain ⟨w, hw, hid, _, hon⟩ := hw
      exact .inr ⟨w, hw, hid, hon⟩

end Rows

section NewEdges

variable {order : ScanOrder} {g : Graph} {start : String} {state next : ResumeState} {rows : List WalkRow}
  {budget : Nat} {e : EdgeRow}

theorem exists_newEdge (hd : g.NoDangling) {w : WalkRow} (hw : w ∈ newRows order g state budget) (he : e ∈ g.edges)
    (hid : w.edgeId = some e.id) : e.record ∈ newEdges order g state budget := by
  obtain ⟨e', _, hid', f, hf, hfid⟩ := exists_newEdge_of_row hd hw
  obtain ⟨f₀, hf₀, rfl, _⟩ := newEdges_row hf
  have : f₀ = e := g.edges.key_injective hf₀ he (hfid.trans (Option.some.inj (hid'.symm.trans hid)))
  rwa [← this]

variable {f : EdgeRow}

theorem newEdges_parent (h : f ∈ newEdges order g state budget) :
    ∃ e ∈ g.edges, f = e.record ∧ ∃ p, (p ∈ state.visited.map seedRow ∨ p ∈ newRows order g state budget) ∧
      p.depth < state.maxDepth ∧ e ∈ childEdges g state.toWalkShape p.nodeId ∧
      p.onPath (e.otherEnd state.direction) = false ∧ resumeFilter state p e := by
  obtain ⟨e, he, rfl, w, hmem, hid, _⟩ := newEdges_row h
  obtain ⟨p, hp, hx⟩ := newRows_parent hmem
  obtain ⟨hlt, e', he', hout, hfilter, rfl⟩ := mem_recursiveTerm.mp hx
  have heq : e' = e := g.edges.key_injective (childEdges_stored he') he (Option.some.inj hid)
  subst heq
  exact ⟨e', he, rfl, p, hp, hlt, he', hout, hfilter⟩

theorem newEdges_nodup (order : ScanOrder) (g : Graph) (state : ResumeState) (budget : Nat) :
    ((newEdges order g state budget).map EdgeRow.id).Nodup :=
  keepFirst_keys_nodup _ _

section

variable {p : WalkRow} (hp : p ∈ state.visited.map seedRow ∨ p ∈ newRows order g state budget)

include hp

theorem parent_reached (hi : TokenInv g start state) : RowReached g start state p := by
  rcases hp with hp | hp
  · obtain ⟨v, hv, rfl⟩ := mem_map.mp hp
    exact seedRow_reached hi hv
  · exact fifo_forall (seedChildren_reached hi) (fun _ hw _ hx => resumeTerm_reached hw hx) _ p hp

theorem parent_pathEnds : PathEnds p := by
  rcases hp with hp | hp
  · obtain ⟨v, _, rfl⟩ := mem_map.mp hp
    exact seedRow_pathEnds v
  · exact newRows_pathEnds order g state budget p hp

end

theorem newEdges_offered (hi : TokenInv g start state) (h : f ∈ newEdges order g state budget) :
    ∃ e ∈ g.edges, f = e.record ∧ OfferedEdge g state.toWalkShape start e := by
  obtain ⟨e, he, rfl, p, hp, hlt, hchild, hout, _⟩ := newEdges_parent h
  obtain ⟨k, hk, hdist⟩ := (parent_reached hp hi).1.exists_isDist
  refine ⟨e, he, rfl, p.nodeId, k, hdist, by omega, hchild, ?_⟩
  intro heq
  rw [heq, (parent_pathEnds hp).onPath_self] at hout
  exact Bool.noConfusion hout

def WalkedFromVisited (g : Graph) (state : ResumeState) : Prop :=
  ∀ e ∈ g.edges, e.id ∈ state.walked → e.thisEnd state.direction ∈ state.visitedIds

variable {shape : WalkShape}

theorem childEdges_thisEnd {u : String} (h : e ∈ childEdges g shape u) : e.thisEnd shape.direction = u :=
  (mem_matchingFrom.mp (matchingFrom_of_mem_childEdges h)).2.1

theorem newEdges_not_walked (hv : WalkedFromVisited g state) (h : f ∈ newEdges order g state budget) :
    f.id ∉ state.walked := by
  obtain ⟨e, he, rfl, p, hp, _, hchild, _, hfilter⟩ := newEdges_parent h
  intro hwalked
  rcases hp with hp | hp
  · obtain ⟨v, _, rfl⟩ := mem_map.mp hp
    have hnot : e.id ∉ state.walked := by simpa [resumeFilter, seedRow] using hfilter
    exact hnot hwalked
  · obtain ⟨_, _, hid, _⟩ := newRows_rowEdge order g state budget p hp
    have hnot : p.nodeId ∉ state.visitedIds := by simpa [resumeFilter, hid] using hfilter
    have hend := hv e he hwalked
    rw [childEdges_thisEnd hchild] at hend
    exact hnot hend

theorem CallState.walkedFromVisited (h : CallState order g state budget next) (hi : TokenInv g start state)
    (hd : g.NoDangling) (hs : g.nodes.contains start) (hv : WalkedFromVisited g state) :
    WalkedFromVisited g next := by
  intro e he hwalked
  have hdir : next.direction = state.direction := congrArg WalkShape.direction h.shape
  rw [hdir, mem_visitedIds_of_perm h.visited]
  rcases (h.walked e.id).mp hwalked with hold | ⟨f, hf, hid⟩
  · exact .inl (hv e he hold)
  · obtain ⟨e', he', rfl, p, hp, _, hchild, _, _⟩ := newEdges_parent hf
    have heq : e' = e := g.edges.key_injective he' he hid
    subst heq
    rw [childEdges_thisEnd hchild]
    by_cases hvis : p.nodeId ∈ state.visitedIds
    · exact .inl hvis
    rcases hp with hp | hp
    · obtain ⟨v, hmem, rfl⟩ := mem_map.mp hp
      exact .inl (mem_map_of_mem hmem)
    · obtain ⟨r, hr, hrid, _⟩ := exists_newNode hp ((parent_reached (.inr hp) hi).1.stored hd hs) hvis
      exact .inr ⟨r, hr, hrid⟩

theorem WholeRows.closedRows (hw : WholeRows order g start state rows) : ClosedRows order g state rows := by
  obtain ⟨hseeds, hclosed⟩ := fifo_whole_closed hw.take
  exact ⟨hseeds, hw.edge, hclosed⟩

theorem Trail.stored {trail : List String} (hd : g.NoDangling) (hs : g.nodes.contains start)
    (h : Trail (WalkHop g shape) start trail) : ∀ y ∈ trail, ∃ n ∈ g.nodes, n.id = y := by
  induction h with
  | start =>
    intro y hy
    rw [mem_singleton.mp hy]
    exact KeyedTable.contains_iff.mp hs
  | step _ hop _ ih =>
    intro y hy
    rcases mem_cons.mp hy with rfl | hy
    · exact hop.stored hd
    · exact ih y hy

theorem newEdges_of_open (hi : TokenInv g start state) (hd : g.NoDangling) (hf : g.DelimiterFree)
    (hs : g.nodes.contains start) (hw : WholeRows order g start state rows) (hall : rows.length ≤ budget)
    (h : OpenEdge g state.toWalkShape start e) : e.id ∈ state.walked ∨ e.record ∈ newEdges order g state budget := by
  obtain ⟨u, ids, htrail, hlt, he, hout⟩ := h
  have hfree : ∀ y ∈ u :: ids, '|' ∉ y.toList := by
    intro y hy
    obtain ⟨n, hn, rfl⟩ := htrail.stored hd hs y hy
    exact hf n hn
  have hv : '|' ∉ (e.otherEnd state.direction).toList := by
    obtain ⟨n, hn, hid⟩ := hd.otherEnd (childEdges_stored he) state.direction
    exact hid ▸ hf n hn
  have hlen : (u :: ids).length ≤ state.maxDepth + 1 := by
    simp only [length_cons]
    omega
  have hcomes := htrail.comesTo hi hw.closedRows hfree hlen rfl
  rcases hcomes.expands hi hw.closedRows hfree htrail he hv hout hlt with hwalked | ⟨w, hmem, _, hid, _⟩
  · exact .inl hwalked
  · rw [← take_of_length_le hall, ← hw.take] at hmem
    exact .inr (exists_newEdge hd hmem (childEdges_stored he) hid)

theorem open_of_newEdges_fresh (h : f ∈ newEdges order g (freshState shape start) budget) :
    ∃ e ∈ g.edges, f = e.record ∧ OpenEdge g shape start e := by
  obtain ⟨e, he, rfl, p, hp, hlt, hchild, hout, _⟩ := newEdges_parent h
  have hrow : TrailRow g shape start p := by
    rcases hp with hp | hp
    · obtain ⟨v, hv, rfl⟩ := mem_map.mp hp
      rw [mem_singleton.mp hv]
      exact seedRow_trailRow g shape start
    · exact newRows_trailRow order g shape start budget p hp
  obtain ⟨ids, htrail, hdepth, hpath⟩ := hrow
  have hnot := not_mem_of_not_onPath hpath hout
  rw [mem_reverse] at hnot
  exact ⟨e, he, rfl, p.nodeId, ids, htrail, hdepth ▸ hlt, hchild, hnot⟩

end NewEdges

variable {edges : List EdgeRow}

section Calls

variable {τ : Type} {codec : TokenCodec ResumeState τ} {order : ScanOrder} {g : Graph} {shape : WalkShape}
  {start : String} {state next : ResumeState} {rows : List WalkRow} {budget : Nat} {result : TraversalResult τ}

structure EdgesDone (g : Graph) (shape : WalkShape) (start : String) (walked : List String)
    (edges : List EdgeRow) : Prop where
  nodup : (edges.map EdgeRow.id).Nodup
  fresh : ∀ e ∈ edges, e.id ∉ walked
  offered : ∀ f ∈ edges, ∃ e ∈ g.edges, f = e.record ∧ OfferedEdge g shape start e
  complete : ∀ e, OpenEdge g shape start e → e.id ∈ walked ∨ e.record ∈ edges

theorem EdgesDone.last (hi : TokenInv g start state) (hv : WalkedFromVisited g state) (hd : g.NoDangling)
    (hf : g.DelimiterFree) (hs : g.nodes.contains start) (hw : WholeRows order g start state rows)
    (hall : rows.length ≤ budget) :
    EdgesDone g state.toWalkShape start state.walked (newEdges order g state budget) where
  nodup := newEdges_nodup order g state budget
  fresh := fun _ he => newEdges_not_walked hv he
  offered := fun _ he => newEdges_offered hi he
  complete := fun _ he => newEdges_of_open hi hd hf hs hw hall he

variable {e : EdgeRow}

theorem CallState.walked_or_reported (hc : CallState order g state budget next)
    (he : e ∈ g.edges) (h : e.id ∈ next.walked ∨ e.record ∈ edges) :
    e.id ∈ state.walked ∨ e.record ∈ newEdges order g state budget ++ edges := by
  rcases h with hwalked | hmem
  · rcases (hc.walked e.id).mp hwalked with hwalked | ⟨f, hf, hid⟩
    · exact .inl hwalked
    · obtain ⟨f₀, hf₀, rfl, _⟩ := newEdges_row hf
      have : f₀ = e := g.edges.key_injective hf₀ he hid
      exact .inr (mem_append_left _ (this ▸ hf))
  · exact .inr (mem_append_right _ hmem)

theorem OfferedEdge.stored (h : OfferedEdge g shape start e) : e ∈ g.edges := by
  obtain ⟨_, _, _, _, hchild, _⟩ := h
  exact childEdges_stored hchild

theorem EdgesDone.cons (h : EdgesDone g state.toWalkShape start next.walked edges)
    (hc : CallState order g state budget next) (hi : TokenInv g start state)
    (hv : WalkedFromVisited g state) :
    EdgesDone g state.toWalkShape start state.walked (newEdges order g state budget ++ edges) where
  nodup := by
    rw [map_append, nodup_append]
    refine ⟨newEdges_nodup order g state budget, h.nodup, ?_⟩
    intro a ha b hb heq
    obtain ⟨e, he, rfl⟩ := mem_map.mp ha
    obtain ⟨f, hf, rfl⟩ := mem_map.mp hb
    exact h.fresh f hf ((hc.walked f.id).mpr (.inr ⟨e, he, heq⟩))
  fresh := by
    intro e he hwalked
    rcases mem_append.mp he with he | he
    · exact newEdges_not_walked hv he hwalked
    · exact h.fresh e he ((hc.walked e.id).mpr (.inl hwalked))
  offered := by
    intro f hf
    rcases mem_append.mp hf with hf | hf
    · exact newEdges_offered hi hf
    · exact h.offered f hf
  complete := fun e he => hc.walked_or_reported he.offered.stored (h.complete e he)

/-- Where no row is left every edge on offer was walked. -/
theorem walked_of_offered (hi : TokenInv g start state) (hd : g.NoDangling) (hf : g.DelimiterFree)
    (hs : g.nodes.contains start) (hw : WholeRows order g start state [])
    (h : OfferedEdge g state.toWalkShape start e) : e.id ∈ state.walked := by
  obtain ⟨u, k, hdist, hk, he, hne⟩ := h
  have hvis : u ∈ state.visitedIds := by
    by_contra hnew
    obtain ⟨w, hmem, _⟩ := hw.complete k u hdist (by omega) hnew
    simp at hmem
  obtain ⟨v, hv, rfl⟩ := mem_map.mp hvis
  by_contra hwalked
  have hdepth : v.depth = k := (hi.dist v hv).unique hdist
  have hfree : '|' ∉ v.id.toList := by
    obtain ⟨n, hn, hid⟩ := hdist.reach.stored hd hs
    exact hid ▸ hf n hn
  have hend : '|' ∉ (e.otherEnd state.direction).toList := by
    obtain ⟨n, hn, hid⟩ := hd.otherEnd (childEdges_stored he) state.direction
    exact hid ▸ hf n hn
  have hout : (seedRow v).onPath (e.otherEnd state.direction) = false :=
    Bool.eq_false_iff.mpr fun hp => hne (mem_singleton.mp (mem_of_onPath
      (show (seedRow v).path = delimit '|' ([v.id].map String.toList) from rfl) hend (by simpa using hfree) hp))
  have hrow : (seedRow v).child state.toWalkShape e ∈ resumeTerm order g state (seedRow v) := by
    refine mem_recursiveTerm.mpr ⟨?_, e, he, hout, ?_, rfl⟩
    · simp only [seedRow]
      omega
    · simp [resumeFilter, seedRow, hwalked]
  have hmem := hw.closedRows.seeds _ (mem_seedChildren.mpr ⟨v, hv, hrow⟩)
  simp at hmem

end Calls

section Chain

variable {τ : Type} {codec : TokenCodec ResumeState τ} {g : Graph} {shape : WalkShape} {start : String}
  {calls : Nat → WalkCall}

def ChainEdges (g : Graph) (shape : WalkShape) (start : String) (calls : Nat → WalkCall)
    (walked : List String) (edges : List EdgeRow) : Prop :=
  EdgesDone g shape start walked edges ∧
    ((∀ i, (calls i).explorationBudget = 1) → ∀ e, OfferedEdge g shape start e →
      e.id ∈ walked ∨ e.record ∈ edges)

theorem ChainEdges.cons {order : ScanOrder} {state next : ResumeState} {budget : Nat}
    (h : ChainEdges g state.toWalkShape start calls next.walked edges)
    (hc : CallState order g state budget next) (hi : TokenInv g start state)
    (hv : WalkedFromVisited g state) :
    ChainEdges g state.toWalkShape start calls state.walked (newEdges order g state budget ++ edges) := by
  refine ⟨h.1.cons hc hi hv, ?_⟩
  intro hone e he
  exact hc.walked_or_reported he.stored (h.2 hone e he)

variable {results : List (TraversalResult τ)} (hs : g.nodes.contains start)

include hs

/-- The calls of a chain report an edge once, and every one that can be come to. -/
theorem chain_edges (hd : g.NoDangling) (hf : g.DelimiterFree) (hb : 1 ≤ (calls 0).explorationBudget)
    (h : CallChain (walkCall codec g shape start calls) TraversalResult.resumeToken 0 none results) :
    ChainEdges g shape start calls [] (results.flatMap TraversalResult.edges) := by
  have hstart : ToolState codec g shape start none (freshState shape start) := rfl
  refine chain_rec (motive := fun _ _ state results => WalkedFromVisited g state →
    ChainEdges g shape start calls state.walked (results.flatMap TraversalResult.edges)) hs hd hf ?_ ?_ h
    hstart (fun _ => hb) (fun e _ hw => by simp [freshState] at hw)
  · intro i t state next budget result rows hstep hw hnone hv
    obtain ⟨hlt, _⟩ := hstep.reports.finished hd hs hw hnone
    rw [flatMap_singleton, hstep.reports.edges, ← hstep.shape]
    refine ⟨.last hstep.inv hv hd hf hs hw (by omega), ?_⟩
    intro hone e he
    have hle : budget ≤ 1 := hone i ▸ hstep.reads ▸ Nat.sub_le _ _
    have hnil : rows = [] := eq_nil_of_length_eq_zero (by omega)
    exact .inl (walked_of_offered hstep.inv hd hf hs (hnil ▸ hw) he)
  · intro i t state next budget result token results hstep ih hv
    rw [flatMap_cons, hstep.reports.edges]
    have hdone := ih (hstep.reports.moved.walkedFromVisited hstep.inv hd hs hv)
    rw [← hstep.shape] at hdone ⊢
    exact hdone.cons hstep.reports.moved hstep.inv hv

theorem mem_traverse_edges (codec : TokenCodec ResumeState τ) (order : ScanOrder) (hd : g.NoDangling)
    (hf : g.DelimiterFree) {budget : Nat} (hb : (walkCte order g shape start budget).length < budget) {f : EdgeRow} :
    f ∈ (traverse order codec g ⟨shape, start, budget⟩).edges ↔
      ∃ e ∈ g.edges, f = e.record ∧ OpenEdge g shape start e := by
  obtain ⟨n, hn⟩ := Option.isSome_iff_exists.mp hs
  obtain ⟨rest, rfl⟩ := Nat.exists_eq_add_of_le' (show 1 ≤ budget by omega)
  have hi := freshState_inv g shape start
  obtain ⟨rows, hw⟩ := exists_wholeRows order hi hd hf hs
  obtain ⟨next, hrep, _, _⟩ := traverse_reports order codec shape hn rest
  rw [freshCte_split, hw.take, length_cons, length_take] at hb
  rw [hrep.edges]
  constructor
  · exact open_of_newEdges_fresh
  · rintro ⟨e, _, rfl, hopen⟩
    have hlen : rows.length ≤ rest := by omega
    have hnew := newEdges_of_open hi hd hf hs hw hlen hopen
    exact hnew.resolve_left (by simp [freshState])

end Chain

/-- A chain of resumed walks reports each edge of one walk once, and no other, whatever its budgets, exactly when
every edge within the depth limit can be come to without meeting its far end first. -/
theorem resumed_edges_eq_unbudgeted_iff {τ : Type} (codec : TokenCodec ResumeState τ) (g : Graph)
    (shape : WalkShape) (start : String) (hd : g.NoDangling) (hf : g.DelimiterFree)
    (hs : g.nodes.contains start = true) :
    (∀ calls : Nat → WalkCall, (∀ i, 1 ≤ (calls i).explorationBudget) →
      ∃ results, CallChain (walkCall codec g shape start calls) TraversalResult.resumeToken 0 none results ∧
        ((results.flatMap TraversalResult.edges).map EdgeRow.id).Nodup ∧
        ∀ order, ∃ total, (∀ limit, (walkCte order g shape start limit).length = min limit total) ∧
          ∀ budget, total < budget → ∀ e, e ∈ results.flatMap TraversalResult.edges ↔
            e ∈ (traverse order codec g ⟨shape, start, budget⟩).edges) ↔
      ∀ e, OfferedEdge g shape start e → OpenEdge g shape start e := by
  constructor
  · intro h e he
    obtain ⟨results, hchain, _, hwhole⟩ := h (fun _ => ⟨ScanOrder.asListed, 1⟩) (fun _ => le_rfl)
    obtain ⟨total, htotal, hwhole⟩ := hwhole ScanOrder.asListed
    have hrows : (walkCte ScanOrder.asListed g shape start (total + 1)).length < total + 1 := by
      rw [htotal]
      omega
    have hdone := chain_edges hs hd hf le_rfl hchain
    have hmem := (hdone.2 (fun _ => rfl) e he).resolve_left (by simp)
    rw [hwhole (total + 1) (by omega), mem_traverse_edges hs codec _ hd hf hrows] at hmem
    obtain ⟨e', he', hrec, hopen⟩ := hmem
    have hid : e'.id = e.id := (congrArg EdgeRow.id hrec).symm
    exact g.edges.key_injective he' he.stored hid ▸ hopen
  · intro h calls hb
    obtain ⟨results, hchain⟩ := chain_ends hs hd hf codec shape hb
    obtain ⟨hdone, _⟩ := chain_edges hs hd hf (hb 0) hchain
    refine ⟨results, hchain, hdone.nodup, ?_⟩
    intro order
    obtain ⟨total, htotal⟩ := walkCte_rows order g shape start
    refine ⟨total, htotal, ?_⟩
    intro budget hlt f
    have hrows : (walkCte order g shape start budget).length < budget := by
      rw [htotal]
      omega
    rw [mem_traverse_edges hs codec order hd hf hrows]
    constructor
    · intro hf
      obtain ⟨e, he, rfl, hoffered⟩ := hdone.offered f hf
      exact ⟨e, he, rfl, h e hoffered⟩
    · rintro ⟨e, _, rfl, hopen⟩
      exact (hdone.complete e hopen).resolve_left (by simp)

theorem fork_ids : ([{ id := "a" }, { id := "b" }, { id := "c" }].map NodeRow.id).Nodup := by decide

/-- `b` and `c` lead to each other, and `a` to both. -/
def fork : Graph where
  nodes := ⟨[{ id := "a" }, { id := "b" }, { id := "c" }], fork_ids⟩
  edges := ⟨[{ id := "ab", fromId := "a", toId := "b" }, { id := "ac", fromId := "a", toId := "c" },
    { id := "bc", fromId := "b", toId := "c" }, { id := "cb", fromId := "c", toId := "b" }], by decide⟩

def outgoingWalk : WalkShape := { direction := .outgoing, maxDepth := 5, maxFanout := 50 }

theorem fork_open (e : EdgeRow) (h : OfferedEdge fork outgoingWalk "a" e) : OpenEdge fork outgoingWalk "a" e := by
  have hrows : e ∈ fork.edges.rows := h.stored
  simp only [fork, mem_cons, not_mem_nil, or_false] at hrows
  rcases hrows with rfl | rfl | rfl | rfl
  · exact ⟨"a", [], .start, by decide, by decide, by decide⟩
  · exact ⟨"a", [], .start, by decide, by decide, by decide⟩
  · have hab : Trail (WalkHop fork outgoingWalk) "a" ["b", "a"] :=
      .step .start ⟨{ id := "ab", fromId := "a", toId := "b" }, by decide, rfl⟩ (by decide)
    exact ⟨"b", ["a"], hab, by decide, by decide, by decide⟩
  · have hac : Trail (WalkHop fork outgoingWalk) "a" ["c", "a"] :=
      .step .start ⟨{ id := "ac", fromId := "a", toId := "c" }, by decide, rfl⟩ (by decide)
    exact ⟨"c", ["a"], hac, by decide, by decide, by decide⟩

theorem resumed_edges_fork :
    ∃ results, CallChain (walkCall (TokenCodec.verbatim ResumeState) fork outgoingWalk "a"
        (fun _ => ⟨ScanOrder.asListed, 1⟩)) TraversalResult.resumeToken 0 none results ∧
      ((results.flatMap TraversalResult.edges).map EdgeRow.id).Perm ["ab", "ac", "cb", "bc"] := by
  have hall := (resumed_edges_eq_unbudgeted_iff (TokenCodec.verbatim ResumeState) fork outgoingWalk "a"
    (by decide) (by decide) (by decide)).mpr fork_open
  obtain ⟨results, hchain, hnodup, hwhole⟩ := hall (fun _ => ⟨ScanOrder.asListed, 1⟩) (fun _ => le_rfl)
  obtain ⟨total, htotal, hwhole⟩ := hwhole ScanOrder.asListed
  have h9 := htotal 9
  have hrows : (walkCte ScanOrder.asListed fork outgoingWalk "a" 9).length = 5 := by decide +kernel
  have hone : (traverse ScanOrder.asListed (TokenCodec.verbatim ResumeState) fork
      ⟨outgoingWalk, "a", 9⟩).edges.map EdgeRow.id = ["ab", "ac", "cb", "bc"] := by
    decide +kernel
  refine ⟨results, hchain, (perm_ext_iff_of_nodup hnodup (by decide)).mpr ?_⟩
  intro id
  rw [← hone]
  simp only [mem_map, hwhole 9 (by omega)]

def loop : Graph where
  nodes := ⟨[{ id := "a" }, { id := "b" }], by decide⟩
  edges := ⟨[{ id := "ab", fromId := "a", toId := "b" }, { id := "ba", fromId := "b", toId := "a" }],
    by decide⟩

/-- A walk resumed at `b` starts on an empty path and reports the way back. -/
theorem resumed_edges_loop :
    loop.NoDangling ∧ loop.DelimiterFree ∧ loop.nodes.contains "a" = true ∧
    (walkCte ScanOrder.asListed loop outgoingWalk "a" 9).length < 9 ∧
    (traverse ScanOrder.asListed (TokenCodec.verbatim ResumeState) loop ⟨outgoingWalk, "a", 9⟩).edges.map
      EdgeRow.id = ["ab"] ∧
    ∃ results, CallChain (walkCall (TokenCodec.verbatim ResumeState) loop outgoingWalk "a"
        (fun _ => ⟨ScanOrder.asListed, 1⟩)) TraversalResult.resumeToken 0 none results ∧
      (results.flatMap TraversalResult.edges).map EdgeRow.id = ["ab", "ba"] := by
  refine ⟨by decide, by decide, by decide, by decide,
    by decide, ?_⟩
  have hrun : (runCalls (walkCall (TokenCodec.verbatim ResumeState) loop outgoingWalk "a"
      (fun _ => ⟨ScanOrder.asListed, 1⟩)) TraversalResult.resumeToken 5 0 none).map
        (fun results => (results.flatMap TraversalResult.edges).map EdgeRow.id) = some ["ab", "ba"] := by
    decide +kernel
  obtain ⟨results, hresults, hids⟩ := Option.map_eq_some_iff.mp hrun
  exact ⟨results, callChain_of_runCalls hresults, hids⟩

end GMesh
