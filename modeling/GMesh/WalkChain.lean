import GMesh.WalkCalls
import GMesh.CallChain

namespace GMesh

open List

structure WalkCall where
  order : ScanOrder
  explorationBudget : Nat

def walkCall {τ : Type} (codec : TokenCodec ResumeState τ) (g : Graph) (shape : WalkShape) (start : String)
    (calls : Nat → WalkCall) (i : Nat) : Option τ → Except String (TraversalResult τ)
  | none => .ok (traverse (calls i).order codec g ⟨shape, start, (calls i).explorationBudget⟩)
  | some token => resume (calls i).order codec g token (calls i).explorationBudget

section Done

variable {τ : Type} {codec : TokenCodec ResumeState τ} {order : ScanOrder} {g : Graph} {shape : WalkShape}
  {start : String} {state next : ResumeState} {rows : List WalkRow} {budget : Nat} {result : TraversalResult τ}

theorem analyzeCuts_ne_budget (g : Graph) (shape : WalkShape) (cte : List WalkRow) :
    analyzeCuts g shape cte ≠ some .explorationBudget := by
  unfold analyzeCuts
  split
  next => simp
  next =>
    split
    next => simp
    next => simp

theorem continuation_eq_some {truncatedBy : Option TruncatedBy} {token : τ} :
    continuation codec truncatedBy state = some token ↔
      truncatedBy = some .explorationBudget ∧ codec.encode state = token := by
  unfold continuation
  split
  next => simp
  next h =>
    constructor
    · intro hn
      simp at hn
    · rintro ⟨hb, _⟩
      exact absurd hb h

section

variable (hd : g.NoDangling) (hs : g.nodes.contains start) (hw : WholeRows order g start state rows)

include hd hs hw

theorem WholeRows.reported_length (budget : Nat) :
    (reportedRows g (resumeCte order g state (state.visited.length + budget))).length = (rows.take budget).length := by
  rw [resumeCte_eq, reportedRows_length (newRows_rowEdge order g state budget) ?_, hw.take]
  intro w h
  rw [hw.take] at h
  exact KeyedTable.contains_iff.mpr ((hw.reached w (mem_of_mem_take h)).1.stored hd hs)

variable (h : ReportsCall codec order g state budget next result)

include h

theorem ReportsCall.resumable {token : τ} (ht : result.resumeToken = some token) :
    codec.decode token = .ok next ∧ budget ≤ (rows.take budget).length := by
  rw [h.token] at ht
  obtain ⟨hb, rfl⟩ := continuation_eq_some.mp ht
  refine ⟨codec.decode_encode next, ?_⟩
  rw [h.truncatedBy, hw.reported_length hd hs] at hb
  split at hb
  next hle => exact hle
  next => exact absurd hb (analyzeCuts_ne_budget _ _ _)

theorem ReportsCall.finished (ht : result.resumeToken = none) :
    rows.length < budget ∧ result.truncatedBy =
      analyzeCuts g state.toWalkShape (resumeCte order g state (state.visited.length + budget)) := by
  have hb := h.truncatedBy
  rw [hw.reported_length hd hs] at hb
  split at hb
  next =>
    rw [h.token, hb] at ht
    simp [continuation] at ht
  next hlt =>
    rw [length_take] at hlt
    exact ⟨by omega, hb⟩

end

structure WalkDone (g : Graph) (shape : WalkShape) (start : String) (visited : List VisitedNode)
    (nodes : List ReachedNode) (final : TraversalResult τ) : Prop where
  complete : CompleteVisit g shape start (visited ++ nodes.map ReachedNode.visited)
  stored : ∀ r ∈ nodes, r.node ∈ g.nodes
  cuts : ∃ cte, CoversWalk g shape start cte ∧ final.truncatedBy = analyzeCuts g shape cte
  frontier : ∃ vs, CompleteVisit g shape start vs ∧ vs.Pairwise VisitedNode.SortsBefore ∧
    final.frontierNodes = frontierNodes final.truncatedBy vs shape.maxDepth

theorem CompleteVisit.of_perm {vs us : List VisitedNode} (h : CompleteVisit g shape start vs)
    (hp : us.Perm vs) : CompleteVisit g shape start us :=
  ⟨(hp.map VisitedNode.id).nodup_iff.mpr h.nodup, fun v => hp.mem_iff.trans (h.mem v)⟩

variable {visited : List VisitedNode} {nodes : List ReachedNode}

theorem ReportsCall.done (h : ReportsCall codec order g state budget next result) (hi : TokenInv g start state)
    (hd : g.NoDangling) (hs : g.nodes.contains start) (hw : WholeRows order g start state rows)
    (ht : result.resumeToken = none) (hv : next.visited.Perm (visited ++ nodes.map ReachedNode.visited))
    (hstored : ∀ r ∈ nodes, r.node ∈ g.nodes) : WalkDone g state.toWalkShape start visited nodes result := by
  obtain ⟨hall, hcut⟩ := h.finished hd hs hw ht
  have hcomplete := h.moved.complete hi hd hs hw hall.le
  refine ⟨hcomplete.of_perm hv.symm, hstored, ⟨_, resumeCte_covers hi hw hall.le, hcut⟩,
    next.visited, hcomplete, h.moved.sorted, ?_⟩
  rw [h.frontier, h.moved.shape]

theorem WalkDone.cons (h : WalkDone g shape start next.visited nodes result) {added : List ReachedNode}
    (hv : next.visited.Perm (visited ++ added.map ReachedNode.visited)) (hstored : ∀ r ∈ added, r.node ∈ g.nodes) :
    WalkDone g shape start visited (added ++ nodes) result where
  complete := by
    refine h.complete.of_perm ?_
    rw [map_append, ← append_assoc]
    exact hv.symm.append_right _
  stored := by
    intro r hr
    rcases mem_append.mp hr with hr | hr
    · exact hstored r hr
    · exact h.stored r hr
  cuts := h.cuts
  frontier := h.frontier

variable {nodes' : List ReachedNode} {final final' : TraversalResult τ}

theorem WalkDone.mem_iff (h : WalkDone g shape start [] nodes final) {r : ReachedNode} :
    r ∈ nodes ↔ r.node ∈ g.nodes ∧ WalkDist g shape start r.depth r.id ∧ r.depth ≤ shape.maxDepth := by
  have hmem := h.complete.mem r.visited
  constructor
  · exact fun hr => ⟨h.stored r hr, hmem.mp (mem_map_of_mem hr)⟩
  · rintro ⟨hn, hr⟩
    obtain ⟨r', hr', hv⟩ := mem_map.mp (hmem.mpr hr)
    have hnode : r'.node = r.node := g.nodes.key_injective (h.stored r' hr') hn (congrArg VisitedNode.id hv)
    have hdepth : r'.depth = r.depth := congrArg VisitedNode.depth hv
    have : r' = r := by
      cases r'
      simp_all
    exact this ▸ hr'

theorem WalkDone.nodup (h : WalkDone g shape start [] nodes result) : (nodes.map ReachedNode.id).Nodup := by
  have := h.complete.nodup
  rwa [nil_append, map_map] at this

theorem WalkDone.agree (h : WalkDone g shape start [] nodes final) (h' : WalkDone g shape start [] nodes' final') :
    nodes.Perm nodes' ∧ final.truncatedBy = final'.truncatedBy ∧ final.frontierNodes = final'.frontierNodes := by
  obtain ⟨cte, hcte, hcut⟩ := h.cuts
  obtain ⟨cte', hcte', hcut'⟩ := h'.cuts
  obtain ⟨vs, hvs, hsorted, hfront⟩ := h.frontier
  obtain ⟨vs', hvs', hsorted', hfront'⟩ := h'.frontier
  have htrunc : final.truncatedBy = final'.truncatedBy := by
    rw [hcut, hcut', analyzeCuts_eq hcte hcte']
  refine ⟨?_, htrunc, ?_⟩
  · rw [perm_ext_iff_of_nodup (h.nodup.of_map _) (h'.nodup.of_map _)]
    exact fun r => h.mem_iff.trans h'.mem_iff.symm
  · rw [hfront, hfront', htrunc, (hvs.perm hvs').eq_of_pairwise' hsorted hsorted']

end Done

section Chain

variable {τ : Type} {codec : TokenCodec ResumeState τ} {g : Graph} {shape : WalkShape} {start : String}
  {calls : Nat → WalkCall}

def TokenOf (codec : TokenCodec ResumeState τ) (g : Graph) (shape : WalkShape) (start : String)
    (token : τ) (state : ResumeState) : Prop :=
  codec.decode token = .ok state ∧ state.toWalkShape = shape ∧ TokenInv g start state

def ToolState (codec : TokenCodec ResumeState τ) (g : Graph) (shape : WalkShape) (root : String)
    (t : Option τ) (state : ResumeState) : Prop :=
  match t with
  | none => state = freshState shape root
  | some token => TokenOf codec g shape root token state

def seenBefore : Option τ → ResumeState → List VisitedNode
  | none, _ => []
  | some _, state => state.visited

/-- One call of a chain. The first one spends a row of its budget on the start. -/
structure WalkStep (codec : TokenCodec ResumeState τ) (g : Graph) (shape : WalkShape) (start : String)
    (call : WalkCall) (t : Option τ) (state next : ResumeState) (budget : Nat) (result : TraversalResult τ) : Prop where
  inv : TokenInv g start state
  shape : state.toWalkShape = shape
  reports : ReportsCall codec call.order g state budget next result
  reads : budget = call.explorationBudget - if t.isNone then 1 else 0
  visited : next.visited.Perm (seenBefore t state ++ result.nodes.map ReachedNode.visited)
  stored : ∀ r ∈ result.nodes, r.node ∈ g.nodes

variable {i : Nat} {t : Option τ} {state : ResumeState} (hs : g.nodes.contains start)

include hs

theorem walkCall_step (ht : ToolState codec g shape start t state) (hb : t = none → 1 ≤ (calls i).explorationBudget) :
    ∃ result next budget, walkCall codec g shape start calls i t = .ok result ∧
      WalkStep codec g shape start (calls i) t state next budget result := by
  cases t with
  | none =>
    cases ht
    obtain ⟨n, hn⟩ := Option.isSome_iff_exists.mp hs
    obtain ⟨budget, hbudget⟩ := Nat.exists_eq_add_of_le' (hb rfl)
    obtain ⟨next, hrep, hnodes, hvis⟩ := traverse_reports (calls i).order codec shape hn budget
    rw [← hbudget] at hrep hnodes hvis
    refine ⟨_, next, budget, rfl, freshState_inv g shape start, rfl, hrep, by simp [hbudget], .of_eq hvis, ?_⟩
    intro r hr
    rw [hnodes] at hr
    rcases mem_cons.mp hr with rfl | hr
    · exact (KeyedTable.find?_eq_some_iff.mp hn).1
    · exact (newNodes_row hr).1
  | some token =>
    obtain ⟨hdec, hshape, hi⟩ := ht
    obtain ⟨next, hrep, hnodes⟩ := resumeState_reports (calls i).order codec g state (calls i).explorationBudget
    refine ⟨_, next, _, ?_, hi, hshape, hrep, rfl, hnodes ▸ hrep.moved.visited,
      fun r hr => (newNodes_row (hnodes ▸ hr)).1⟩
    simp only [walkCall, resume, hdec]
    rfl

variable (hd : g.NoDangling)

include hd

theorem WalkStep.resumed {next : ResumeState} {budget : Nat} {result : TraversalResult τ} {rows : List WalkRow}
    (h : WalkStep codec g shape start (calls i) t state next budget result)
    (hw : WholeRows (calls i).order g start state rows) {token : τ} (htok : result.resumeToken = some token) :
    ToolState codec g shape start (some token) next :=
  ⟨(h.reports.resumable hd hs hw htok).1, h.reports.moved.shape.trans h.shape, h.reports.moved.inv h.inv hd hs hw⟩

variable (hf : g.DelimiterFree) {results : List (TraversalResult τ)}

include hf

/-- To show of every chain from a state what `motive` says, show it of a last call and carry it over one more call. -/
theorem chain_rec {motive : Nat → Option τ → ResumeState → List (TraversalResult τ) → Prop}
    (last : ∀ {i t state next budget result rows}, WalkStep codec g shape start (calls i) t state next budget result →
      WholeRows (calls i).order g start state rows → result.resumeToken = none → motive i t state [result])
    (next : ∀ {i t state next budget result token results},
      WalkStep codec g shape start (calls i) t state next budget result →
        motive (i + 1) (some token) next results → motive i t state (result :: results))
    (h : CallChain (walkCall codec g shape start calls) TraversalResult.resumeToken i t results)
    (ht : ToolState codec g shape start t state) (hb : t = none → 1 ≤ (calls i).explorationBudget) :
    motive i t state results := by
  induction h generalizing state with
  | last hcall hnone =>
    obtain ⟨result, _, _, hok, hstep⟩ := walkCall_step hs ht hb
    cases hcall.symm.trans hok
    obtain ⟨rows, hw⟩ := exists_wholeRows (calls _).order hstep.inv hd hf hs
    exact last hstep hw hnone
  | next hcall htok _ ih =>
    obtain ⟨result, _, _, hok, hstep⟩ := walkCall_step hs ht hb
    cases hcall.symm.trans hok
    obtain ⟨rows, hw⟩ := exists_wholeRows (calls _).order hstep.inv hd hf hs
    exact next hstep (ih (hstep.resumed hs hd hw htok) nofun)

/-- The calls of a chain together visit what one whole walk visits. -/
theorem chain_done (h : CallChain (walkCall codec g shape start calls) TraversalResult.resumeToken i t results)
    (ht : ToolState codec g shape start t state) (hb : t = none → 1 ≤ (calls i).explorationBudget) :
    ∃ final, results.getLast? = some final ∧
      WalkDone g shape start (seenBefore t state) (results.flatMap TraversalResult.nodes) final := by
  refine chain_rec (motive := fun _ t state results => ∃ final, results.getLast? = some final ∧
    WalkDone g shape start (seenBefore t state) (results.flatMap TraversalResult.nodes) final) hs hd hf ?_ ?_ h ht hb
  · intro i t state next budget result rows hstep hw hnone
    refine ⟨_, rfl, ?_⟩
    rw [flatMap_singleton, ← hstep.shape]
    exact hstep.reports.done hstep.inv hd hs hw hnone hstep.visited hstep.stored
  · rintro i t state next budget result token results hstep ⟨final, hlast, hdone⟩
    refine ⟨final, ?_, ?_⟩
    · rw [getLast?_cons, hlast]
      rfl
    · rw [flatMap_cons]
      exact hdone.cons hstep.visited hstep.stored

def tokenLeft (codec : TokenCodec ResumeState τ) (g : Graph) : Option τ → Nat
  | none => g.nodes.rows.length + g.edges.rows.length + 1
  | some token =>
    match codec.decode token with
    | .ok state => walkLeft g state
    | .error _ => 0

theorem chain_ends (codec : TokenCodec ResumeState τ) (shape : WalkShape)
    (hb : ∀ i, 1 ≤ (calls i).explorationBudget) :
    ∃ results, CallChain (walkCall codec g shape start calls) TraversalResult.resumeToken 0 none results := by
  have hstart : ToolState codec g shape start none (freshState shape start) := rfl
  refine callChain_ends (fun t => ∃ state, ToolState codec g shape start t state) (tokenLeft codec g) ?_ ⟨_, hstart⟩ 0
  rintro i t ⟨state, ht⟩
  obtain ⟨result, next, budget, hok, hstep⟩ := walkCall_step hs ht fun _ => hb i
  obtain ⟨rows, hw⟩ := exists_wholeRows (calls i).order hstep.inv hd hf hs
  refine ⟨result, hok, fun token htok => ⟨⟨next, hstep.resumed hs hd hw htok⟩, ?_⟩⟩
  obtain ⟨hdec, hread⟩ := hstep.reports.resumable hd hs hw htok
  cases t with
  | none =>
    have : walkLeft g next ≤ g.nodes.rows.length + g.edges.rows.length :=
      Nat.add_le_add (length_filter_le _ _) (length_filter_le _ _)
    simp only [tokenLeft, hdec]
    omega
  | some token =>
    simp only [tokenLeft, ht.1, hdec]
    refine hstep.reports.moved.left_lt hd hw (ne_nil_of_length_pos ?_)
    have hpos : 1 ≤ budget := hstep.reads.symm ▸ hb i
    omega

end Chain

end GMesh
