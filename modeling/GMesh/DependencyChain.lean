import GMesh.PageQuery
import GMesh.ResumedWalk

namespace GMesh

structure DependencyNode where
  id : String
  kind : NodeKind
  qualifiedName : Option String
  filePath : Option String
  depth : Nat
  deriving DecidableEq, Repr

def ReachedNode.dependency (r : ReachedNode) : DependencyNode where
  id := r.node.id
  kind := r.node.kind
  qualifiedName := if r.node.kind = .file then none else some r.node.qualifiedName
  filePath := if r.node.kind = .module then none else some r.node.filePath
  depth := r.depth

structure DependencyWalk (τ : Type) where
  results : List DependencyNode
  truncated : Bool
  truncatedBy : Option String
  frontierNodes : List String
  resumeToken : Option τ

def TruncatedBy.wireName : TruncatedBy → String
  | .maxDepth => "maxDepth"
  | .maxFanout => "maxFanout"
  | .explorationBudget => "explorationBudget"

/-- Cuts a walk's result to `ceiling` bytes of rows, with a token of its own. -/
def boundWalk {τ : Type} (codec : TokenCodec ResumeState τ) (wireLen : List DependencyNode → Nat)
    (ceiling : Nat) (result : TraversalResult τ) (shape : WalkShape) (priorVisited : List VisitedNode)
    (priorWalked : List String) : DependencyWalk τ :=
  let anchorId := (result.nodes.head?.filter (fun n => n.depth == 0)).map ReachedNode.id
  let dtos := (result.nodes.filter (fun n => decide (0 < n.depth))).map ReachedNode.dependency
  match longestPrefixFitting wireLen dtos ceiling with
  | none => {
      results := dtos
      truncated := result.truncated
      truncatedBy := result.truncatedBy.map TruncatedBy.wireName
      frontierNodes := result.frontierNodes
      resumeToken := result.resumeToken }
  | some cut =>
    let keptIds := (dtos.take cut).map DependencyNode.id
    let state := { shape with
      visited := priorVisited ++ (anchorId.map fun id => VisitedNode.mk id 0).toList ++
        (dtos.take cut).map (fun d => VisitedNode.mk d.id d.depth)
      walked := priorWalked ++
        (result.edges.filter (fun e => keptIds.contains (e.otherEnd shape.direction))).map EdgeRow.id }
    { results := dtos.take cut
      truncated := true
      truncatedBy := some "responseSize"
      frontierNodes := []
      resumeToken := some (codec.encode state) }

def defaultExplorationBudget : Nat := 5000

def fromRoot {τ : Type} (order : ScanOrder) (codec : TokenCodec ResumeState τ)
    (wireLen : List DependencyNode → Nat) (ceiling : Nat) (g : Graph) (shape : WalkShape) (root : String) :
    DependencyWalk τ :=
  boundWalk codec wireLen ceiling (traverse order codec g ⟨shape, root, defaultExplorationBudget⟩) shape [] []

def continued {τ : Type} (order : ScanOrder) (codec : TokenCodec ResumeState τ)
    (wireLen : List DependencyNode → Nat) (ceiling : Nat) (g : Graph) (token : τ) :
    Except String (DependencyWalk τ) := do
  let state ← codec.decode token
  let result ← resume order codec g token defaultExplorationBudget
  return boundWalk codec wireLen ceiling result state.toWalkShape state.visited state.walked

structure ToolCall where
  order : ScanOrder
  ceiling : Nat

def toolCall {τ : Type} (codec : TokenCodec ResumeState τ) (wireLen : List DependencyNode → Nat) (g : Graph)
    (shape : WalkShape) (root : String) (calls : Nat → ToolCall) (i : Nat) :
    Option τ → Except String (DependencyWalk τ)
  | none => .ok (fromRoot (calls i).order codec wireLen (calls i).ceiling g shape root)
  | some token => continued (calls i).order codec wireLen (calls i).ceiling g token

open List

section Step

variable {τ : Type} {codec : TokenCodec ResumeState τ} {order : ScanOrder} {g : Graph} {root : String}
  {state next : ResumeState} {rows : List WalkRow} {budget : Nat} {result : TraversalResult τ}

structure ToolStep (codec : TokenCodec ResumeState τ) (g : Graph) (root : String) (state : ResumeState)
    (walk : DependencyWalk τ) (nodes : List ReachedNode) : Prop where
  results : walk.results = nodes.map ReachedNode.dependency
  stored : ∀ r ∈ nodes, r.node ∈ g.nodes
  next : ∀ token, walk.resumeToken = some token → ∃ next, codec.decode token = .ok next ∧
    next.toWalkShape = state.toWalkShape ∧ TokenInv g root next ∧
    next.visited.Perm (state.visited ++ nodes.map ReachedNode.visited) ∧ walkLeft g next < walkLeft g state
  done : walk.resumeToken = none → ∃ final : TraversalResult τ,
    WalkDone g state.toWalkShape root state.visited nodes final ∧
    walk.truncated = final.truncatedBy.isSome ∧
    walk.truncatedBy = final.truncatedBy.map TruncatedBy.wireName

variable (h : ReportsCall codec order g state budget next result) (hi : TokenInv g root state) (hd : g.NoDangling)
  (hs : g.nodes.contains root) (hw : WholeRows order g root state rows)

include h hi hd hs hw

variable {walk : DependencyWalk τ}

theorem toolStep_of_fits (hb : 1 ≤ budget)
    (hres : walk.results = (newNodes order g state budget).map ReachedNode.dependency)
    (htr : walk.truncated = result.truncated) (hby : walk.truncatedBy = result.truncatedBy.map TruncatedBy.wireName)
    (htok : walk.resumeToken = result.resumeToken) :
    ToolStep codec g root state walk (newNodes order g state budget) where
  results := hres
  stored := fun r hr => (newNodes_row hr).1
  next := by
    intro token ht
    obtain ⟨hdec, hread⟩ := h.resumable hd hs hw (htok.symm.trans ht)
    refine ⟨next, hdec, h.moved.shape, h.moved.inv hi hd hs hw, h.moved.visited, ?_⟩
    exact h.moved.left_lt hd hw (ne_nil_of_length_pos (by omega))
  done := by
    intro ht
    refine ⟨result, ?_, htr.trans h.truncated, hby⟩
    exact h.done hi hd hs hw (htok.symm.trans ht) h.moved.visited (fun r hr => (newNodes_row hr).1)

omit h in
theorem visited_append_sorted (cut : Nat) :
    (state.visited ++ ((newNodes order g state budget).take cut).map ReachedNode.visited).Pairwise
      (fun a b => a.depth ≤ b.depth) := by
  rw [pairwise_append]
  refine ⟨hi.sorted, ?_, ?_⟩
  · refine pairwise_map.mpr ((newNodes_sorted order g state budget).take.imp ?_)
    exact fun h => h.elim le_of_lt (fun h => h.1.le)
  · intro v hv u hu
    obtain ⟨r, hr, rfl⟩ := mem_map.mp hu
    have hnew := mem_of_mem_take hr
    by_contra hlt
    exact newNodes_not_visited hnew (hi.level v hv r.depth r.id (newNodes_dist hd hs hw hnew).1 (not_le.mp hlt))

omit h in
/-- A response that is cut hands on a state that has visited just its rows. -/
theorem toolStep_of_cut (next : ResumeState) {cut : Nat} (hc : 1 ≤ cut)
    (hcl : cut ≤ (newNodes order g state budget).length)
    (hres : walk.results = ((newNodes order g state budget).take cut).map ReachedNode.dependency)
    (hshape : next.toWalkShape = state.toWalkShape)
    (hvis : next.visited = state.visited ++ ((newNodes order g state budget).take cut).map ReachedNode.visited)
    (hwalked : ∀ id, id ∈ next.walked ↔ id ∈ state.walked ∨ ∃ e ∈ newEdges order g state budget, e.id = id ∧
      ∃ r ∈ (newNodes order g state budget).take cut, r.id = e.otherEnd state.direction)
    (htok : walk.resumeToken = some (codec.encode next)) :
    ToolStep codec g root state walk ((newNodes order g state budget).take cut) where
  results := hres
  stored := fun r hr => (newNodes_row (mem_of_mem_take hr)).1
  next := by
    intro token ht
    cases (htok.symm.trans ht)
    have hperm := List.Perm.of_eq hvis
    have hids := fun x => mem_visitedIds_of_perm (x := x) hperm
    refine ⟨next, codec.decode_encode next, hshape, ?_, hperm, ?_⟩
    · refine hi.advance hd hs hw hshape hperm (hvis ▸ visited_append_sorted hi hd hs hw cut) ?_
      intro id hid
      rcases (hwalked id).mp hid with hid | ⟨e, he, hid, r, hr, hend⟩
      · exact .inl hid
      · exact .inr ⟨e, he, hid, (hids _).mpr (.inr ⟨r, hr, hend⟩)⟩
    · have hfirst : (newNodes order g state budget)[0] ∈ (newNodes order g state budget).take cut :=
        mem_take_iff_getElem.mpr ⟨0, by omega, rfl⟩
      have hmem := mem_of_mem_take hfirst
      refine walkLeft_lt (fun x hx => (hids x).mpr (.inl hx)) (fun id hid => (hwalked id).mpr (.inl hid))
        (.inl ⟨_, (newNodes_row hmem).1, newNodes_not_visited hmem, ?_⟩)
      exact (hids _).mpr (.inr ⟨_, hfirst, rfl⟩)
  done := by
    intro ht
    exact absurd (htok.symm.trans ht) (by simp)

/-- The anchor as `boundWalk` finds it on a fresh walk. -/
def anchorOf (nodes : List ReachedNode) : List VisitedNode :=
  (((nodes.head?.filter (fun n => n.depth == 0)).map ReachedNode.id).map fun id => VisitedNode.mk id 0).toList

/-- A walk cut to the response limit, or left whole, is a step of the chain. -/
theorem boundWalk_step (hb : 1 ≤ budget) {wireLen : List DependencyNode → Nat} {ceiling : Nat}
    (hnil : wireLen [] ≤ ceiling)
    (hnodes : result.nodes.filter (fun n => decide (0 < n.depth)) = newNodes order g state budget)
    (priorVisited : List VisitedNode) (hprior : priorVisited ++ anchorOf result.nodes = state.visited) :
    ∃ nodes, ToolStep codec g root state
      (boundWalk codec wireLen ceiling result state.toWalkShape priorVisited state.walked) nodes := by
  cases hfit : longestPrefixFitting wireLen ((newNodes order g state budget).map ReachedNode.dependency) ceiling with
  | none =>
    refine ⟨_, toolStep_of_fits h hi hd hs hw hb ?_ ?_ ?_ ?_⟩ <;> simp only [boundWalk, hnodes, hfit]
  | some cut =>
    have hne : (newNodes order g state budget).map ReachedNode.dependency ≠ [] := by
      intro he
      rw [he, longestPrefixFitting, if_pos hnil] at hfit
      simp at hfit
    obtain ⟨hc, hcl⟩ := longestPrefixFitting_bounds hne hfit
    rw [length_map] at hcl
    have hkept : (((newNodes order g state budget).map ReachedNode.dependency).take cut) =
        ((newNodes order g state budget).take cut).map ReachedNode.dependency := map_take.symm
    refine ⟨_, toolStep_of_cut hi hd hs hw { state with
      visited := state.visited ++ ((newNodes order g state budget).take cut).map ReachedNode.visited
      walked := state.walked ++ (result.edges.filter (fun e =>
        (((newNodes order g state budget).take cut).map ReachedNode.id).contains
          (e.otherEnd state.direction))).map EdgeRow.id } hc hcl ?_ rfl rfl ?_ ?_⟩
    · simp only [boundWalk, hnodes, hfit, hkept]
    · intro id
      rw [mem_append, mem_map]
      refine or_congr Iff.rfl ?_
      simp only [mem_filter, h.edges, contains_eq_mem, decide_eq_true_eq, mem_map]
      constructor
      · rintro ⟨e, ⟨he, r, hr, hend⟩, rfl⟩
        exact ⟨e, he, rfl, r, hr, hend⟩
      · rintro ⟨e, he, rfl, r, hr, hend⟩
        exact ⟨e, ⟨he, r, hr, hend⟩, rfl⟩
    · simp only [boundWalk, hnodes, hfit, hkept, ← hprior, map_map]
      rfl

end Step

section Chain

variable {τ : Type} {codec : TokenCodec ResumeState τ} {wireLen : List DependencyNode → Nat} {g : Graph}
  {shape : WalkShape} {root : String} {calls : Nat → ToolCall}

variable {t : Option τ} {state : ResumeState}

section

variable (ht : ToolState codec g shape root t state)

include ht

theorem toolState_shape : state.toWalkShape = shape := by
  cases t with
  | none => rw [show state = _ from ht]; rfl
  | some token => exact ht.2.1

/-- Every call of the tool, fresh or continued, is a step of the chain. -/
theorem toolCall_step (hd : g.NoDangling) (hf : g.DelimiterFree) (hs : g.nodes.contains root)
    (hnil : ∀ i, wireLen [] ≤ (calls i).ceiling) (i : Nat) :
    ∃ walk nodes,
      toolCall codec wireLen g shape root calls i t = .ok walk ∧ ToolStep codec g root state walk nodes := by
  cases t with
  | none =>
    cases ht
    obtain ⟨n, hn⟩ := Option.isSome_iff_exists.mp hs
    have hid : n.id = root := (KeyedTable.find?_eq_some_iff.mp hn).2
    have hi := freshState_inv g shape root
    obtain ⟨rows, hw⟩ := exists_wholeRows (calls i).order hi hd hf hs
    obtain ⟨next, hrep, hnodes, _⟩ := traverse_reports (calls i).order codec shape hn 4999
    have hdeep : ∀ r ∈ newNodes (calls i).order g (freshState shape root) 4999, decide (0 < r.depth) := by
      intro r hr
      simpa using newNodes_fresh_deep hn hr
    obtain ⟨nodes, hstep⟩ := boundWalk_step hrep hi hd hs hw (by omega) (hnil i)
      (by rw [hnodes, filter_cons_of_neg (by simp), filter_eq_self.mpr hdeep])
      [] (by rw [hnodes]; simp [anchorOf, freshState, ReachedNode.id, hid, Option.filter])
    exact ⟨_, nodes, rfl, hstep⟩
  | some token =>
    obtain ⟨hdec, rfl, hi⟩ := ht
    obtain ⟨rows, hw⟩ := exists_wholeRows (calls i).order hi hd hf hs
    obtain ⟨next, hrep, hnodes⟩ := resumeState_reports (calls i).order codec g state defaultExplorationBudget
    have hdeep : ∀ r ∈ newNodes (calls i).order g state defaultExplorationBudget, 0 < r.depth := by
      intro r hr
      by_contra hz
      have hdist := (newNodes_dist hd hs hw hr).1
      rw [show r.depth = 0 by omega] at hdist
      exact newNodes_not_visited hr (hdist.eq_start ▸ mem_map_of_mem hi.startVisited)
    obtain ⟨nodes, hstep⟩ := boundWalk_step hrep hi hd hs hw (by decide) (hnil i)
      (by rw [hnodes]; exact filter_eq_self.mpr (fun r hr => by simpa using hdeep r hr))
      state.visited (by
        rw [hnodes, anchorOf]
        cases hh : (newNodes (calls i).order g state defaultExplorationBudget).head? with
        | none => simp
        | some r =>
          have := hdeep r (mem_of_head? hh)
          simp [Option.filter, show ¬ r.depth = 0 by omega])
    refine ⟨_, nodes, ?_, hstep⟩
    simp only [toolCall, continued, resume, hdec]
    rfl

/-- The calls of the tool together visit what one whole walk visits. -/
theorem tool_chain_done (hd : g.NoDangling) (hf : g.DelimiterFree) (hs : g.nodes.contains root)
    (hnil : ∀ i, wireLen [] ≤ (calls i).ceiling) {i : Nat} {walks : List (DependencyWalk τ)}
    (h : CallChain (toolCall codec wireLen g shape root calls) DependencyWalk.resumeToken i t walks) :
    ∃ (nodes : List ReachedNode) (last : DependencyWalk τ) (final : TraversalResult τ),
      walks.flatMap DependencyWalk.results = nodes.map ReachedNode.dependency ∧
      walks.getLast? = some last ∧ WalkDone g shape root state.visited nodes final ∧
      last.truncated = final.truncatedBy.isSome ∧
      last.truncatedBy = final.truncatedBy.map TruncatedBy.wireName := by
  induction h generalizing state with
  | last hcall hnone =>
    obtain ⟨walk, nodes, hok, hstep⟩ := toolCall_step ht hd hf hs hnil _
    cases (hcall.symm.trans hok)
    obtain ⟨final, hdone, htr, hby⟩ := hstep.done hnone
    refine ⟨nodes, _, final, ?_, rfl, toolState_shape ht ▸ hdone, htr, hby⟩
    rw [flatMap_singleton, hstep.results]
  | next hcall htok _ ih =>
    obtain ⟨walk, nodes, hok, hstep⟩ := toolCall_step ht hd hf hs hnil _
    cases (hcall.symm.trans hok)
    obtain ⟨next, hdec, hns, hinv, hvis, _⟩ := hstep.next _ htok
    obtain ⟨more, last, final, hres, hlast, hdone, htr, hby⟩ :=
      ih ⟨hdec, hns.trans (toolState_shape ht), hinv⟩
    refine ⟨nodes ++ more, last, final, ?_, ?_, hdone.cons hvis hstep.stored, htr, hby⟩
    · rw [flatMap_cons, hstep.results, hres, map_append]
    · rw [getLast?_cons, hlast]
      rfl

def toolLeft (codec : TokenCodec ResumeState τ) (g : Graph) (shape : WalkShape) (root : String) :
    Option τ → Nat
  | none => walkLeft g (freshState shape root)
  | some token =>
    match codec.decode token with
    | .ok state => walkLeft g state
    | .error _ => 0

theorem toolLeft_eq : toolLeft codec g shape root t = walkLeft g state := by
  cases t with
  | none => rw [show state = _ from ht]; rfl
  | some token => simp only [toolLeft, ht.1]

end

theorem tool_chain_ends (codec : TokenCodec ResumeState τ) (shape : WalkShape) (hd : g.NoDangling)
    (hf : g.DelimiterFree) (hs : g.nodes.contains root)
    (hnil : ∀ i, wireLen [] ≤ (calls i).ceiling) :
    ∃ walks, CallChain (toolCall codec wireLen g shape root calls) DependencyWalk.resumeToken 0 none walks := by
  have hstart : ToolState codec g shape root none (freshState shape root) := rfl
  refine callChain_ends (fun t => ∃ state, ToolState codec g shape root t state)
    (toolLeft codec g shape root) ?_ ⟨_, hstart⟩ 0
  rintro i t ⟨state, ht⟩
  obtain ⟨walk, nodes, hok, hstep⟩ := toolCall_step ht hd hf hs hnil i
  refine ⟨walk, hok, ?_⟩
  intro token htok
  obtain ⟨next, hdec, hns, hinv, _, hlt⟩ := hstep.next token htok
  have hnext : ToolState codec g shape root (some token) next := ⟨hdec, hns.trans (toolState_shape ht), hinv⟩
  exact ⟨⟨next, hnext⟩, by rwa [toolLeft_eq hnext, toolLeft_eq ht]⟩

end Chain

/-- The calls of the tool end and report every node of the walk but its anchor once, at its depth, and the last one is
truncated as the whole walk is. -/
theorem dependency_chain_eq_walk {τ : Type} (codec : TokenCodec ResumeState τ)
    (wireLen : List DependencyNode → Nat) (g : Graph) (shape : WalkShape) (root : String)
    (calls : Nat → ToolCall) (hd : g.NoDangling) (hf : g.DelimiterFree)
    (hs : g.nodes.contains root = true) (hnil : ∀ i, wireLen [] ≤ (calls i).ceiling) :
    ∃ walks, CallChain (toolCall codec wireLen g shape root calls) DependencyWalk.resumeToken 0 none walks ∧
      ((walks.flatMap DependencyWalk.results).map DependencyNode.id).Nodup ∧
      ∀ order, ∃ total, (∀ limit, (walkCte order g shape root limit).length = min limit total) ∧
        ∀ budget, total < budget →
          let whole := traverse order codec g ⟨shape, root, budget⟩
          (walks.flatMap DependencyWalk.results).Perm
            ((whole.nodes.filter (fun r => r.id ≠ root)).map ReachedNode.dependency) ∧
          ∀ last, walks.getLast? = some last → last.truncated = whole.truncated ∧
            last.truncatedBy = whole.truncatedBy.map TruncatedBy.wireName := by
  obtain ⟨walks, hchain⟩ := tool_chain_ends codec shape hd hf hs hnil
  have hstart : ToolState codec g shape root none (freshState shape root) := rfl
  obtain ⟨nodes, last, final, hres, hlast, hdone, htr, hby⟩ := tool_chain_done hstart hd hf hs hnil hchain
  obtain ⟨n, hn⟩ := Option.isSome_iff_exists.mp hs
  obtain ⟨hmem, hid⟩ := KeyedTable.find?_eq_some_iff.mp hn
  have hfresh : (freshState shape root).visited.Perm ([] ++ [ReachedNode.mk n 0].map ReachedNode.visited) := by
    simp [freshState, ReachedNode.visited, hid]
  have hanchor : WalkDone g shape root [] (⟨n, 0⟩ :: nodes) final := by
    refine hdone.cons hfresh ?_
    intro r hr
    rw [mem_singleton.mp hr]
    exact hmem
  have hnodup := nodup_cons.mp hanchor.nodup
  refine ⟨walks, hchain, ?_, ?_⟩
  · rw [hres, map_map]
    exact hnodup.2
  intro order
  obtain ⟨total, htotal⟩ := walkCte_rows order g shape root
  refine ⟨total, htotal, ?_⟩
  intro budget hlt whole
  have hrows : (walkCte order g shape root budget).length < budget := by
    rw [htotal]
    omega
  obtain ⟨hperm, htrunc, _⟩ := hanchor.agree (traverse_whole codec order hd hf hs hrows)
  refine ⟨?_, ?_⟩
  · have hfilter : (⟨n, 0⟩ :: nodes).filter (fun r => decide (r.id ≠ root)) = nodes := by
      rw [filter_cons_of_neg (by simp [ReachedNode.id, hid]), filter_eq_self]
      intro r hr
      refine decide_eq_true ?_
      intro he
      exact hnodup.1 (mem_map.mpr ⟨r, hr, he.trans hid.symm⟩)
    have := hperm.filter (fun r => decide (r.id ≠ root))
    rw [hfilter] at this
    rw [hres]
    exact this.map _
  · intro last' hl
    cases (hl.symm.trans hlast)
    exact ⟨htr.trans (congrArg Option.isSome htrunc), hby.trans (congrArg _ htrunc)⟩

/-- Under a ceiling no row fits, the tool reports the diamond a row a call. -/
theorem dependency_chain_diamond :
    ∃ walks, CallChain (toolCall (TokenCodec.verbatim ResumeState) (fun ds => 2 + 40 * ds.length) diamond
        { direction := .outgoing, maxDepth := 5, maxFanout := 50 } "a"
        (fun _ => ⟨ScanOrder.asListed, 2⟩)) DependencyWalk.resumeToken 0 none walks ∧
      ((walks.flatMap DependencyWalk.results).map (fun d => (d.id, d.depth))).Perm
        [("b", 1), ("c", 1), ("d", 2)] := by
  obtain ⟨walks, hchain, _, hwhole⟩ :=
    dependency_chain_eq_walk (TokenCodec.verbatim ResumeState) (fun ds => 2 + 40 * ds.length) diamond
      { direction := .outgoing, maxDepth := 5, maxFanout := 50 } "a"
      (fun _ => ⟨ScanOrder.asListed, 2⟩) (by decide)
      (by decide) (by decide) (fun _ => le_rfl)
  obtain ⟨total, htotal, hwhole⟩ := hwhole ScanOrder.asListed
  have h9 := htotal 9
  have hrows : (walkCte ScanOrder.asListed diamond
      { direction := .outgoing, maxDepth := 5, maxFanout := 50 } "a" 9).length = 5 := by decide
  refine ⟨walks, hchain, ((hwhole 9 (by omega)).1.map (fun d => (d.id, d.depth))).trans ?_⟩
  decide

/-- The id of the start spells the id of a node two hops on. -/
def delimiterIds : Graph where
  nodes := ⟨[{ id := "p|a" }, { id := "m" }, { id := "a" }], by decide⟩
  edges := ⟨[{ id := "e1", fromId := "p|a", toId := "m" }, { id := "e2", fromId := "m", toId := "a" }],
    by decide⟩

/-- With a `|` in an id one walk takes `a` for visited, and a resumed one does not. Under the length of an empty list a
cut is past the list's end. -/
theorem dependency_chain_delimiterIds : longestPrefixFitting (fun ds : List DependencyNode => 2 + 40 * ds.length) [] 1 =
      some 1 ∧ delimiterIds.NoDangling ∧ (walkCte ScanOrder.asListed delimiterIds
      { direction := .outgoing, maxDepth := 5, maxFanout := 50 } "p|a" 9).length < 9 ∧
    (traverse ScanOrder.asListed (TokenCodec.verbatim ResumeState) delimiterIds
      ⟨{ direction := .outgoing, maxDepth := 5, maxFanout := 50 }, "p|a", 9⟩).nodes.map ReachedNode.id =
        ["p|a", "m"] ∧
    ∃ walks, CallChain (toolCall (TokenCodec.verbatim ResumeState) (fun ds => 2 + 40 * ds.length) delimiterIds
        { direction := .outgoing, maxDepth := 5, maxFanout := 50 } "p|a"
        (fun _ => ⟨ScanOrder.asListed, 2⟩)) DependencyWalk.resumeToken 0 none walks ∧
      (walks.flatMap DependencyWalk.results).map DependencyNode.id = ["m", "a"] := by
  refine ⟨by decide +kernel, by decide, by decide, by decide, ?_⟩
  have hrun : (runCalls (toolCall (TokenCodec.verbatim ResumeState) (fun ds => 2 + 40 * ds.length) delimiterIds
      { direction := .outgoing, maxDepth := 5, maxFanout := 50 } "p|a"
      (fun _ => ⟨ScanOrder.asListed, 2⟩)) DependencyWalk.resumeToken 3 0 none).map
        (fun walks => (walks.flatMap DependencyWalk.results).map DependencyNode.id) = some ["m", "a"] := by
    decide +kernel
  obtain ⟨walks, hwalks, hids⟩ := Option.map_eq_some_iff.mp hrun
  exact ⟨walks, callChain_of_runCalls hwalks, hids⟩

end GMesh
