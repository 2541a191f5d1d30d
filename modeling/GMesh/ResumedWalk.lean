import GMesh.WalkChain

namespace GMesh

section Unbudgeted

variable {τ : Type} {g : Graph} {shape : WalkShape} {start : String}

theorem walkCte_rows (order : ScanOrder) (g : Graph) (shape : WalkShape) (start : String) :
    ∃ total, ∀ limit, (walkCte order g shape start limit).length = min limit total := by
  obtain ⟨rows, hrows⟩ := recursiveTerm_ends order g shape (fun _ _ => true) [seedRow ⟨start, 0⟩]
  refine ⟨rows.length, ?_⟩
  intro limit
  rw [walkCte, hrows, List.length_take]

theorem traverse_whole (codec : TokenCodec ResumeState τ) (order : ScanOrder) (hd : g.NoDangling) (hf : g.DelimiterFree)
    (hs : g.nodes.contains start) {budget : Nat}
    (hb : (walkCte order g shape start budget).length < budget) :
    WalkDone g shape start [] (traverse order codec g ⟨shape, start, budget⟩).nodes
      (traverse order codec g ⟨shape, start, budget⟩) := by
  have hchain : CallChain (walkCall codec g shape start (fun _ => ⟨order, budget⟩))
      TraversalResult.resumeToken 0 none [traverse order codec g ⟨shape, start, budget⟩] := by
    refine .last rfl ?_
    obtain ⟨n, hn⟩ := Option.isSome_iff_exists.mp hs
    obtain ⟨rest, rfl⟩ := Nat.exists_eq_add_of_le' (show 1 ≤ budget by omega)
    obtain ⟨rows, hw⟩ := exists_wholeRows order (freshState_inv g shape start) hd hf hs
    obtain ⟨next, hrep, _, _⟩ := traverse_reports order codec shape hn rest
    by_contra htok
    obtain ⟨token, htok⟩ := Option.ne_none_iff_exists'.mp htok
    have hread := (hrep.resumable hd hs hw htok).2
    rw [freshCte_split, hw.take, List.length_cons] at hb
    omega
  obtain ⟨final, hlast, hdone⟩ := chain_done hs hd hf hchain rfl (by simp; omega)
  cases hlast
  rwa [List.flatMap_singleton] at hdone

end Unbudgeted

/-- A chain of resumed walks reports what one walk does: each node once, at its distance, and the same truncation. -/
theorem resumed_walk_eq_unbudgeted {τ : Type} (codec : TokenCodec ResumeState τ) (g : Graph)
    (shape : WalkShape) (start : String) (calls : Nat → WalkCall) (hd : g.NoDangling)
    (hf : g.DelimiterFree) (hs : g.nodes.contains start = true)
    (hb : ∀ i, 1 ≤ (calls i).explorationBudget) :
    ∃ results, CallChain (walkCall codec g shape start calls) TraversalResult.resumeToken 0 none results ∧
      (∀ r ∈ results.flatMap TraversalResult.nodes, WalkDist g shape start r.depth r.id) ∧
      ((results.flatMap TraversalResult.nodes).map ReachedNode.id).Nodup ∧
      ∀ order, ∃ total, (∀ limit, (walkCte order g shape start limit).length = min limit total) ∧
        ∀ budget, total < budget →
          let whole := traverse order codec g ⟨shape, start, budget⟩
          (results.flatMap TraversalResult.nodes).Perm whole.nodes ∧
          ∀ final, results.getLast? = some final →
            final.truncatedBy = whole.truncatedBy ∧ final.frontierNodes = whole.frontierNodes := by
  obtain ⟨results, hchain⟩ := chain_ends hs hd hf codec shape hb
  obtain ⟨final, hlast, hdone⟩ := chain_done hs hd hf hchain rfl fun _ => hb 0
  refine ⟨results, hchain, ?_, hdone.nodup, ?_⟩
  · intro r hr
    exact ((hdone.complete.mem r.visited).mp (List.mem_map_of_mem hr)).1
  intro order
  obtain ⟨total, htotal⟩ := walkCte_rows order g shape start
  refine ⟨total, htotal, ?_⟩
  intro budget hlt whole
  have hrows : (walkCte order g shape start budget).length < budget := by
    rw [htotal]
    omega
  obtain ⟨hperm, htrunc, hfront⟩ := hdone.agree (traverse_whole codec order hd hf hs hrows)
  refine ⟨hperm, ?_⟩
  intro last hl
  cases (hl.symm.trans hlast)
  exact ⟨htrunc, hfront⟩

def diamond : Graph where
  nodes := ⟨[{ id := "a" }, { id := "b" }, { id := "c" }, { id := "d" }], by decide⟩
  edges := ⟨[{ id := "ab", fromId := "a", toId := "b", resolved := true },
    { id := "ac", fromId := "a", toId := "c" }, { id := "bd", fromId := "b", toId := "d" },
    { id := "cd", fromId := "c", toId := "d" }], by decide⟩

theorem resumed_walk_diamond :
    ∃ results, CallChain (walkCall (TokenCodec.verbatim ResumeState) diamond
        { direction := .outgoing, maxDepth := 5, maxFanout := 50 } "a"
        (fun _ => ⟨ScanOrder.asListed, 1⟩)) TraversalResult.resumeToken 0 none results ∧
      ((results.flatMap TraversalResult.nodes).map ReachedNode.visited).Perm
        [⟨"a", 0⟩, ⟨"b", 1⟩, ⟨"c", 1⟩, ⟨"d", 2⟩] := by
  obtain ⟨results, hchain, _, _, hwhole⟩ :=
    resumed_walk_eq_unbudgeted (TokenCodec.verbatim ResumeState) diamond
      { direction := .outgoing, maxDepth := 5, maxFanout := 50 } "a"
      (fun _ => ⟨ScanOrder.asListed, 1⟩) (by decide)
      (by decide) (by decide) (fun _ => le_rfl)
  obtain ⟨total, htotal, hwhole⟩ := hwhole ScanOrder.asListed
  have h9 := htotal 9
  have hrows : (walkCte ScanOrder.asListed diamond
      { direction := .outgoing, maxDepth := 5, maxFanout := 50 } "a" 9).length = 5 := by decide
  refine ⟨results, hchain, ((hwhole 9 (by omega)).1.map ReachedNode.visited).trans ?_⟩
  decide

section Depth

variable {τ : Type} (codec : TokenCodec ResumeState τ) (order : ScanOrder) {g : Graph} (hd : g.NoDangling)
  (hf : g.DelimiterFree) {start : String} (hs : g.nodes.contains start = true) {shape : WalkShape} {budget : Nat}
  (hb : (walkCte order g shape start budget).length < budget)

include hd hf hs hb

/-- A walk with budget to spare lists the nodes within its depth limit, each once and at its distance. -/
theorem walk_lists_within_depth :
    ((traverse order codec g ⟨shape, start, budget⟩).nodes.map ReachedNode.id).Nodup ∧
      ∀ r, r ∈ (traverse order codec g ⟨shape, start, budget⟩).nodes ↔
        r.node ∈ g.nodes ∧ WalkDist g shape start r.depth r.id ∧ r.depth ≤ shape.maxDepth := by
  have h := traverse_whole codec order hd hf hs hb
  exact ⟨h.nodup, fun _ => h.mem_iff⟩

/-- A walk to a greater depth lists what a shallower one does, at the same depths, and beyond that only what is further
away, in whatever orders the two read the edges. -/
theorem deeper_walk_extends (order' : ScanOrder) {deeper budget' : Nat} (hle : shape.maxDepth ≤ deeper)
    (hb' : (walkCte order' g { shape with maxDepth := deeper } start budget').length < budget') :
    (traverse order codec g ⟨shape, start, budget⟩).nodes.Perm
      ((traverse order' codec g ⟨{ shape with maxDepth := deeper }, start, budget'⟩).nodes.filter
        (·.depth ≤ shape.maxDepth)) := by
  have h := traverse_whole codec order hd hf hs hb
  have h' := traverse_whole codec order' hd hf hs hb'
  rw [List.perm_ext_iff_of_nodup (h.nodup.of_map _) ((h'.nodup.of_map _).filter _)]
  intro r
  rw [List.mem_filter, h.mem_iff, h'.mem_iff, decide_eq_true_iff]
  constructor
  · rintro ⟨hn, hdist, hk⟩
    exact ⟨⟨hn, hdist, hk.trans hle⟩, hk⟩
  · rintro ⟨⟨hn, hdist, _⟩, hk⟩
    exact ⟨hn, hdist, hk⟩

end Depth

theorem walk_lists_diamond : WalkDist diamond ⟨.outgoing, none, 5, 50⟩ "a" 2 "d" :=
  (((walk_lists_within_depth (.verbatim _) .asListed (by decide) (by decide) (by decide)
    (show (walkCte .asListed diamond _ "a" 9).length < 9 by decide)).2 ⟨{ id := "d" }, 2⟩).mp (by decide)).2.1

theorem deeper_walk_diamond :
    (traverse .asListed (.verbatim _) diamond ⟨⟨.outgoing, none, 1, 50⟩, "a", 9⟩).nodes.Perm
      ((traverse .asListed (.verbatim _) diamond ⟨⟨.outgoing, none, 5, 50⟩, "a", 9⟩).nodes.filter (·.depth ≤ 1)) :=
  deeper_walk_extends (.verbatim _) _ (by decide) (by decide) (by decide) (by decide) _ (by decide) (by decide)

end GMesh
