import GMesh.FileSteps

namespace GMesh

open KeyedTable Store List Option

variable {ids : IndexIds} {rules : LinkRules} {s : Store} {graphs : String → Option FileGraph} {d : Diff}
  {path : String} {before after : FileGraph} {ps : List ImportPlaceholder} {scope : Scope}

namespace Store

theorem mem_targetedAt {ofKind : NodeRow → Bool} {n : NodeRow} {t : TargetRow} :
    (n, t) ∈ s.targetedAt ofKind scope ↔ s.targets.find? n.id = some t ∧ n ∈ s.nodes ∧ ofKind n ∧
      Scope.fromRow t.scopeKind t.scope n.language = scope := by
  unfold targetedAt
  rw [mem_filterMap]
  simp only [map_eq_some_iff, filter_eq_some_iff, Prod.mk.injEq, Bool.and_eq_true, decide_eq_true_eq]
  constructor
  · rintro ⟨t', ht, m, ⟨hm, hk, hs⟩, rfl, rfl⟩
    obtain ⟨hmem, hid⟩ := find?_eq_some_iff.mp hm
    exact ⟨find?_eq_some_iff.mpr ⟨ht, hid.symm⟩, hmem, hk, hs⟩
  · rintro ⟨ht, hn, hk, hs⟩
    obtain ⟨htm, hid⟩ := find?_eq_some_iff.mp ht
    exact ⟨t, htm, n, ⟨find?_eq_some_iff.mpr ⟨hn, hid.symm⟩, hk, hs⟩, rfl, rfl⟩

def wokenCandidates (s : Store) (d : Diff) : List ImportPlaceholder :=
  d.importPlaceholders ++ d.joinedScopes.flatMap s.importsWaitingAt

variable {p : ImportPlaceholder}

theorem mem_of_mem_wokenImports (h : p ∈ s.wokenImports d) : p ∈ s.wokenCandidates d := by
  have hm := mem_of_mem_keepFirst h
  rwa [mem_insertionSort] at hm

theorem exists_mem_wokenImports (h : p ∈ s.wokenCandidates d) : ∃ q ∈ s.wokenImports d, q.id = p.id := by
  refine exists_mem_keepFirst ?_ not_mem_nil
  rw [mem_insertionSort]
  exact h

theorem mem_importPlaceholders :
    p ∈ d.importPlaceholders ↔ ∃ n ∈ d.upsertNodes,
    isResolvedModule n.toNodeRow ∧ ∃ t, n.target = some t ∧ importPlaceholderOf n.toNodeRow (targetRow n t) = p := by
  unfold Diff.importPlaceholders
  rw [mem_filterMap]
  simp only [List.mem_filter, map_eq_some_iff, and_assoc]

end Store

/-- A placeholder that stands for a stored resolved import at its own address. -/
structure Addresses (s : Store) (p : ImportPlaceholder) (r : NodeRow) (t : TargetRow) : Prop where
  row : s.nodes.find? p.id = some r
  resolved : isResolvedModule r = true
  target : s.targets.find? p.id = some t
  eq : p = importPlaceholderOf r t

theorem importsWaitingAt_addresses {p : ImportPlaceholder} (h : p ∈ s.importsWaitingAt scope) :
    ∃ r t, Addresses s p r t ∧ Scope.fromRow t.scopeKind t.scope r.language = scope := by
  obtain ⟨⟨r, t⟩, hrt, rfl⟩ := mem_map.mp h
  obtain ⟨ht, hr, hk, hs⟩ := mem_targetedAt.mp hrt
  exact ⟨r, t, ⟨find?_key hr, hk, ht, rfl⟩, hs⟩

theorem wokenImports_addresses (h : NodesTracked ids s graphs) (hp : path ≠ "") (ha : after.Extracted ids path)
    (hd : Brings ids s path ((graphs path).getD {}) after d) {p : ImportPlaceholder}
    (hw : p ∈ (s.applyDiff ids.toContainerIds d).wokenImports d) :
    ∃ r t, Addresses (s.applyDiff ids.toContainerIds d) p r t := by
  rcases mem_append.mp (mem_of_mem_wokenImports hw) with hw | hw
  · obtain ⟨n, hn, hres, t, ht, rfl⟩ := mem_importPlaceholders.mp hw
    obtain ⟨m, hm, rfl⟩ := hd.sent n hn
    have hx : ∀ k, m.id ≠ ids.containerId k := ids.file_ne hp (by rw [(ha.node m hm).2])
    refine ⟨_, _, applyDiff_node_of_graph h hp ha hd hm (.inl hn), hres, ?_, rfl⟩
    show (s.applyDiff ids.toContainerIds d).targets.find? m.id = _
    rw [applyDiff_targets hx, writtenTarget, hd.lastRecord_sent (n := m.toNodeRecord) hn]
    show m.target.map _ = _
    rw [ht]
    rfl
  · obtain ⟨scope, _, hw⟩ := mem_flatMap.mp hw
    obtain ⟨r, t, hrt, _⟩ := importsWaitingAt_addresses hw
    exact ⟨r, t, hrt⟩

def ImportsOf (ids : IndexIds) (s : Store) (ps : List ImportPlaceholder) : Prop :=
  ∀ p ∈ ps, ∃ r, s.nodes.find? p.id = some r ∧ isResolvedModule r = true ∧ ids.IsImport p.id

theorem wokenImports_importsOf (h : NodesTracked ids s graphs) (hp : path ≠ "") {u : Option FileGraph}
    (ha : (u.getD {}).Extracted ids path)
    (hd : Brings ids s path ((graphs path).getD {}) (u.getD {}) d) :
    ImportsOf ids (s.applyDiff ids.toContainerIds d) ((s.applyDiff ids.toContainerIds d).wokenImports d) := by
  intro p hw
  obtain ⟨r, t, hrt⟩ := wokenImports_addresses h hp ha hd hw
  obtain ⟨hr, hid⟩ := find?_eq_some_iff.mp hrt.row
  exact ⟨r, hrt.row, hrt.resolved, hid ▸ (applyDiff_nodesTracked h hp ha hd).resolved_isImport hr hrt.resolved⟩

namespace ImportsOf

theorem resolvesModules (h : ImportsOf ids s ps) : s.ResolvesModules ps := by
  intro p hp n hn
  obtain ⟨r, hr, hres, _⟩ := h p hp
  rw [hr] at hn
  cases hn
  exact hres

theorem target_ne (ht : NodesTracked ids s graphs) (h : ImportsOf ids s ps) {q : ImportPlaceholder} {x : String}
    (hx : s.importTarget q = some x) (p : ImportPlaceholder) (hp : p ∈ ps) : x ≠ p.id := by
  rintro rfl
  obtain ⟨r, _, _, hi⟩ := h p hp
  exact (ht.importTarget_of_some hx).2 hi

end ImportsOf

/-- Linking imports keeps the nodes tracked. -/
theorem linkImports_nodesTracked (h : NodesTracked ids s graphs) (hps : ImportsOf ids s ps) :
    NodesTracked ids (s.linkImports ps) graphs where
  ledger := by
    obtain ⟨L, hL⟩ := h.ledger
    have hc : ∀ p ∈ ps, ∀ k, p.id ≠ ids.containerId k := by
      intro p hp
      obtain ⟨r, hr, hres, _⟩ := hps p hp
      obtain ⟨hmem, hid⟩ := find?_eq_some_iff.mp hr
      exact hid ▸ h.resolved_plain hmem hres
    obtain ⟨L', hL', _⟩ := linkImports_shows hL hps.resolvesModules hc
    exact ⟨L', hL'⟩
  held := h.held
  node r hr hc := by
    obtain ⟨hn, ht⟩ := linkImports_node_of_some (find?_key hr)
    rw [ht]
    exact h.node r (find?_eq_some_iff.mp hn).1 hc
  present p g hg n hn hres := by
    have hne : ∀ q ∈ ps, n.id ≠ q.id := by
      intro q hq hid
      obtain ⟨r, _, _, hi⟩ := hps q hq
      rw [← hid] at hi
      unfold IndexIds.IsImport at hi
      rw [((h.held p g hg).2.node n hn).2] at hi
      have hk : n.kind = .module ∧ n.nativeKind = some resolvedModuleNativeKind :=
        ⟨congrArg Prod.fst hi, congrArg Prod.snd hi⟩
      rw [show isResolvedModule n.toNodeRow from decide_eq_true hk] at hres
      cases hres
    unfold KeyedTable.contains
    rw [linkImports_node_other hne]
    exact h.present p g hg n hn hres

theorem link_nodesTracked (h : NodesTracked ids s graphs) (qs : List Placeholder) :
    NodesTracked ids (s.link rules qs).1 graphs where
  ledger := by
    obtain ⟨L, hL⟩ := h.ledger
    exact ⟨L, link_shows hL rules qs⟩
  held := h.held
  node := h.node
  present := h.present

section Edges

variable {u : Option FileGraph} {e : EdgeRow}

theorem applyDiff_edge_of_sent (h : NodesTracked ids s graphs) (hp : path ≠ "") (ha : after.Extracted ids path)
    (hd : Brings ids s path before after d) (he : e ∈ d.upsertEdges) :
    ∃ specifier,
      (s.applyDiff ids.toContainerIds d).edges.find? e.id = some { e with linkedFrom := none, specifier } := by
  obtain ⟨L, hL⟩ := h.ledger
  obtain ⟨hfrom, hto⟩ := Brings.ends_file ha (hd.sentEdge e he)
  exact applyDiff_edge_sent hL (hd.namesNoContainer hp ha) hd.sentEdgeIds he
    ⟨ids.file_ne hp hfrom, fun k hk => absurd hk (ids.file_ne hp hto k)⟩

theorem applyDiff_edge_cases (h : NodesTracked ids s graphs) (hp : path ≠ "") (ha : after.Extracted ids path)
    (hd : Brings ids s path before after d) {r : EdgeRow} (hr : r ∈ (s.applyDiff ids.toContainerIds d).edges) :
    (∃ k i, r = definesEdge ids.toContainerIds k i) ∨
      (∃ e ∈ d.upsertEdges, ∃ specifier, r = { e with linkedFrom := none, specifier }) ∨
        ∃ e ∈ s.edges, d.released e = r := by
  obtain ⟨L, hL⟩ := h.ledger
  by_cases hdef : ∃ k i, r.id = ids.definesEdgeId (ids.containerId k) i
  · obtain ⟨k, i, hid⟩ := hdef
    exact .inl ⟨k, i, (applyDiff_shows hL (hd.namesNoContainer hp ha)).edges.reserved r hr k i hid⟩
  · by_cases hu : r.id ∈ d.upsertEdges.map (·.id)
    · obtain ⟨e, he, hid⟩ := mem_map.mp hu
      obtain ⟨specifier, hf⟩ := applyDiff_edge_of_sent h hp ha hd he
      have hr' := find?_key hr
      rw [← hid, hf] at hr'
      exact .inr (.inl ⟨e, he, specifier, (Option.some.inj hr').symm⟩)
    · obtain ⟨_, e, he, hrel⟩ := applyDiff_edge_of_some (fun k i hid => hdef ⟨k, i, hid⟩) hu (find?_key hr)
      exact .inr (.inr ⟨e, (find?_eq_some_iff.mp he).1, hrel⟩)

variable (he : EdgesTracked ids s graphs)

include he

section

variable (h : NodesTracked ids s graphs)

include h

theorem applyDiff_import {p : String} {g : FileGraph} (hg : graphs p = some g) (hem : e ∈ g.edges)
    (hk : e.kind = .imports) (hu : e.id ∉ d.upsertEdges.map (·.id)) {r : EdgeRow}
    (hr : (s.applyDiff ids.toContainerIds d).edges.find? e.id = some r) : s.edges.find? e.id = some r := by
  obtain ⟨hp', hx⟩ := h.held p g hg
  obtain ⟨_, f, hf, hrel⟩ := applyDiff_edge_of_some (ids.edgeFile_ne hp' (hx.edge e hem)) hu hr
  have hkind := (he.placed p g hg e hem hk f hf).1
  have hun := he.unlinked f (find?_eq_some_iff.mp hf).1 hkind
  rw [Diff.released_unlinked hun] at hrel
  rw [hf, hrel]

/-- A file's diff brings its edges in line with its new graph. -/
theorem applyDiff_edgesTracked (hp : path ≠ "") (ha : (u.getD {}).Extracted ids path)
    (hd : Brings ids s path ((graphs path).getD {}) (u.getD {}) d) :
    EdgesTracked ids (s.applyDiff ids.toContainerIds d) (retold graphs path u) where
  start r hr := by
    rcases applyDiff_edge_cases h hp ha hd hr with ⟨k, i, rfl⟩ | ⟨e, hem, _, rfl⟩ | ⟨e, hem, rfl⟩
    · show (ids.nodeOf (ids.containerId k)).1 = ids.edgeFile (ids.definesEdgeId (ids.containerId k) i)
      rw [ids.containerId_nodeOf, ids.definesEdgeId_file]
    · have hea := hd.sentEdge e hem
      rw [(Brings.ends_file ha hea).1, ha.edge e hea]
    · obtain ⟨hid, hf, _⟩ := d.released_frame e
      rw [hid, hf]
      exact he.start e hem
  unlinked r hr hk := by
    rcases applyDiff_edge_cases h hp ha hd hr with ⟨k, i, rfl⟩ | ⟨e, hem, _, rfl⟩ | ⟨e, hem, rfl⟩
    · cases hk
    · rfl
    · rw [(d.released_frame e).2.2] at hk
      rw [Diff.released_unlinked (he.unlinked e hem hk)]
      exact he.unlinked e hem hk
  placed p g hg e hem hk r hr := by
    have hkept : ∀ b, graphs p = some b → e ∈ b.edges → e.id ∉ d.upsertEdges.map (·.id) →
        r.kind = .imports ∧ r.fromId = e.fromId ∧ (r.toId = e.toId ∨ ¬ ids.IsImport r.toId) :=
      fun b hb heb hu => he.placed p b hb e heb hk r (applyDiff_import he h hb heb hk hu hr)
    unfold retold at hg
    split at hg
    next hpp =>
      subst hpp
      subst hg
      rcases hd.edge e hem with hs | ⟨heb, _, hnot⟩
      · obtain ⟨_, hf⟩ := applyDiff_edge_of_sent h hp ha hd hs
        rw [hr] at hf
        cases hf
        exact ⟨hk, rfl, Or.inl rfl⟩
      · cases hb : graphs p with
        | none =>
          rw [hb] at heb
          exact nomatch heb
        | some b =>
          rw [hb] at heb
          exact hkept b hb heb hnot
    next hpp =>
      refine hkept g hg hem fun hu => ?_
      obtain ⟨f, hf, hid⟩ := mem_map.mp hu
      have hfile := ha.edge f (hd.sentEdge f hf)
      rw [hid, (h.held p g hg).2.edge e hem] at hfile
      exact hpp hfile

omit h in
theorem EdgesTracked.moved {t : Store}
    (h : ∀ x r, t.edges.find? x = some r → ∃ e, s.edges.find? x = some e ∧ r.id = e.id ∧ r.fromId = e.fromId ∧
      r.kind = e.kind ∧ (e.kind = .imports →
        r.linkedFrom = e.linkedFrom ∧ (r.toId = e.toId ∨ ¬ ids.IsImport r.toId))) : EdgesTracked ids t graphs where
  start r hr := by
    obtain ⟨e, hf, hid, hfrom, _⟩ := h _ r (find?_key hr)
    rw [hfrom, hid]
    exact he.start e (find?_eq_some_iff.mp hf).1
  unlinked r hr hk := by
    obtain ⟨e, hf, _, _, hkind, hm⟩ := h _ r (find?_key hr)
    rw [(hm (hkind ▸ hk)).1]
    exact he.unlinked e (find?_eq_some_iff.mp hf).1 (hkind ▸ hk)
  placed p g hg e hem hk r hr := by
    obtain ⟨f, hf, _, hfrom, hkind, hm⟩ := h _ r hr
    obtain ⟨hfk, hff, hft⟩ := he.placed p g hg e hem hk f hf
    refine ⟨hkind.trans hfk, hfrom.trans hff, ?_⟩
    rcases (hm hfk).2 with hto | hnot
    · rwa [hto]
    · exact .inr hnot

theorem linkImports_edgesTracked (hps : ImportsOf ids s ps) : EdgesTracked ids (s.linkImports ps) graphs := by
  refine he.moved fun x r hr => ?_
  rw [linkImports_edge hps.resolvesModules] at hr
  obtain ⟨e, hf, rfl⟩ := map_eq_some_iff.mp hr
  have hm := s.landed_moved ps e
  exact ⟨e, hf, hm.id, hm.fromId, hm.kind, fun _ => ⟨hm.linkedFrom, hm.toId.imp_right
    fun ⟨_, _, hq⟩ => (h.importTarget_of_some hq).2⟩⟩

end

theorem link_edgesTracked (qs : List Placeholder) : EdgesTracked ids (s.link rules qs).1 graphs := by
  refine he.moved fun x r hr => ?_
  rw [link_edge] at hr
  obtain ⟨e, hf, rfl⟩ := map_eq_some_iff.mp hr
  obtain ⟨hid, hfrom, hkind⟩ := s.settled_frame rules qs e
  refine ⟨e, hf, hid, hfrom, hkind, fun hk => ?_⟩
  rw [s.settled_unlinkable rules qs (e := e) (by rw [hk]; rfl)]
  exact ⟨rfl, .inl rfl⟩

end Edges

structure World.Tracked (ids : IndexIds) (w : World) : Prop where
  nodes : NodesTracked ids w.store w.graphs
  edges : EdgesTracked ids w.store w.graphs

theorem applyAndLink_tracked {w : World} (h : w.Tracked ids) (hp : path ≠ "") {g : Option FileGraph}
    (ha : (g.getD {}).Extracted ids path) (hd : Brings ids w.store path ((w.graphs path).getD {}) (g.getD {}) d) :
    World.Tracked ids { store := w.store.applyAndLink ids.toContainerIds rules d, graphs := retold w.graphs path g } := by
  have hn := applyDiff_nodesTracked h.nodes hp ha hd
  have he := applyDiff_edgesTracked h.edges h.nodes hp ha hd
  have hps := wokenImports_importsOf h.nodes hp ha hd
  exact ⟨link_nodesTracked (linkImports_nodesTracked hn hps) _, link_edgesTracked (linkImports_edgesTracked he hn hps) _⟩

namespace World

variable {w : World}

theorem Tracked.empty (ids : IndexIds) : Tracked ids {} where
  nodes := {
    ledger := ⟨_, Shows.empty _⟩
    held := fun _ _ hg => nomatch hg
    node := fun _ hr => nomatch hr
    present := fun _ _ hg => nomatch hg }
  edges := {
    start := fun _ he => nomatch he
    unlinked := fun _ he => nomatch he
    placed := fun _ _ hg => nomatch hg }

section

variable (h : w.Tracked ids)

include h

theorem Tracked.stored_extracted (path : String) : ((w.graphs path).getD {}).Extracted ids path := by
  cases hg : w.graphs path with
  | none => exact FileGraph.Extracted.empty ids path
  | some g => exact (h.nodes.held path g hg).2

theorem Tracked.brings_whole (hp : path ≠ "") (ha : after.Extracted ids path) :
    Brings ids w.store path ((w.graphs path).getD {}) after
      (w.store.widen path .complete (diffFile none after).toDiff) := by
  refine widen_brings h.nodes h.edges hp (h.stored_extracted path) rfl (by decide) ?_ (diffFile_sentIds ha.nodeIds) ?_
    (diffFile_sentEdgeIds ha.edgeIds) ?_ ?_
  · exact fun n => mem_diffFile_none_nodes
  · exact fun e => mem_diffFile_none_edges
  · exact nofun
  · exact nofun

theorem Tracked.brings_gone (hp : path ≠ "") (remembered : Bool) :
    Brings ids w.store path ((w.graphs path).getD {}) {}
      (w.store.widen path .gone (diffFile (w.baseline path remembered) {}).toDiff) := by
  have hold : ((w.baseline path remembered).getD {}).Extracted ids path := by
    unfold baseline
    split
    next => exact h.stored_extracted path
    next => exact FileGraph.Extracted.empty ids path
  refine widen_brings h.nodes h.edges hp (h.stored_extracted path) rfl (by decide) ?_ nodup_nil ?_
    nodup_nil ?_ ?_
  · exact fun n => ⟨fun hn => absurd hn not_mem_nil, fun ⟨_, hm, _⟩ => absurd hm not_mem_nil⟩
  · exact fun e => Iff.rfl
  · intro x hx
    obtain ⟨m, hm, _, rfl⟩ := (mem_diffFile_deleteNodeIds (FileGraph.Extracted.empty ids path).nodeIds).mp hx
    rw [(hold.node m hm).2]
  · intro x hx
    obtain ⟨e, he, _, rfl⟩ := (mem_diffFile_deleteEdgeIds (FileGraph.Extracted.empty ids path).edgeIds).mp hx
    exact hold.edge e he

theorem tell_tracked (hp : path ≠ "") {g : Option FileGraph} {scope : FileScope}
    (ha : (g.getD {}).Extracted ids path)
    (hd : Brings ids w.store path ((w.graphs path).getD {}) (g.getD {}) (w.store.widen path scope d)) :
    (w.tell ids rules path d scope g).Tracked ids :=
  applyAndLink_tracked h hp ha hd

/-- Every file event keeps the index tracked. -/
theorem step_tracked {event : FileEvent} (hv : event.Valid ids) : (w.step ids rules event).Tracked ids := by
  cases event with
  | gone path remembered =>
    exact tell_tracked (g := none) h hv (FileGraph.Extracted.empty ids path) (h.brings_gone hv remembered)
  | extracted path graph remembered =>
    obtain ⟨hp, ha⟩ := hv
    refine tell_tracked (g := some graph) h hp ha ?_
    cases hb : w.baseline path remembered with
    | none => exact h.brings_whole hp ha
    | some b =>
      have hg : w.graphs path = some b := by
        unfold baseline at hb
        split at hb
        next => exact hb
        next => cases hb
      rw [hg]
      exact diffFile_brings (h.nodes.held path b hg).2 ha w.store

end

theorem run_tracked {events : List FileEvent} (hv : ∀ event ∈ events, event.Valid ids) :
    (run ids rules events).Tracked ids :=
  List.foldlRecOn (motive := Tracked ids) events (step ids rules) (Tracked.empty ids)
    fun _ h event hm => step_tracked h (hv event hm)

end World

end GMesh
