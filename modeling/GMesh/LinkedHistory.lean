import GMesh.FileRuns
import GMesh.IndexHistory

namespace GMesh

open KeyedTable

variable {ids : ContainerIds} {s : Store} {d : Diff}

namespace Store

def waits (s : Store) (id : String) : Bool := (s.nodes.find? id).any isPlaceholder

def LinkedBack (s : Store) : Prop := ∀ e ∈ s.edges, ∀ p, e.linkedFrom = some p → s.waits p = true

def LinkedAt (s : Store) (id p : String) : Prop := ∃ e, s.edges.find? id = some e ∧ e.linkedFrom = some p

theorem linkedBack_iff : s.LinkedBack ↔ ∀ id p, s.LinkedAt id p → s.waits p := by
  constructor
  · intro h id p hl
    obtain ⟨e, he, hp⟩ := hl
    exact h e (find?_eq_some_iff.mp he).1 p hp
  · intro h e he p hp
    exact h e.id p ⟨e, find?_key he, hp⟩

end Store

variable {id : String}

theorem EdgeRow.unlinkFrom_linkedFrom {e : EdgeRow} {p : String} (h : (e.unlinkFrom id).linkedFrom = some p) :
    e.linkedFrom = some p := by
  unfold EdgeRow.unlinkFrom at h
  split at h
  next hlinked =>
    split at h
    next => simp at h
    next => exact h
  next => exact h

theorem Diff.released_linkedFrom {e : EdgeRow} {p : String} (h : (d.released e).linkedFrom = some p) :
    e.linkedFrom = some p := by
  revert h
  apply List.foldlRecOn (motive := fun r : EdgeRow => r.linkedFrom = some p → e.linkedFrom = some p)
  · exact fun h => h
  · intro r hr id _ hl
    unfold Diff.release at hl
    split at hl
    next => exact hr hl
    next => exact hr (EdgeRow.unlinkFrom_linkedFrom hl)

namespace Store

variable {x : String}

theorem foldl_upsertEdge_unlinked {es : List EdgeRow} (hx : x ∈ es.map (·.id)) (s : Store) {e : EdgeRow}
    (h : (es.foldl upsertEdge s).edges.find? x = some e) : e.linkedFrom = none := by
  induction es generalizing s with
  | nil => simp at hx
  | cons f es ih =>
    rw [List.foldl_cons] at h
    by_cases hrest : x ∈ es.map (·.id)
    · exact ih hrest _ h
    · have hid : x = f.id := by
        rw [List.map_cons, List.mem_cons] at hx
        exact hx.resolve_right hrest
      rw [foldl_upsertEdge_find?, upsertedEdge_other hrest, upsertEdge, hid] at h
      rw [find?_put, if_pos rfl] at h
      rw [← Option.some.inj h]

variable {p : String}

theorem writeRows_linkedAt (h : (s.writeRows d).LinkedAt x p) :
    s.LinkedAt x p ∧ x ∉ d.deleteEdgeIds ∧ x ∉ d.upsertEdges.map (·.id) := by
  obtain ⟨e, he, hp⟩ := h
  by_cases hsent : x ∈ d.upsertEdges.map (·.id)
  · have := foldl_upsertEdge_unlinked hsent _ he
    rw [this] at hp
    simp at hp
  · rw [writeRows_edge_other hsent] at he
    split at he
    next => simp at he
    next hdel =>
      obtain ⟨e₀, he₀, rfl⟩ := Option.map_eq_some_iff.mp he
      exact ⟨⟨e₀, he₀, Diff.released_linkedFrom hp⟩, hdel, hsent⟩

theorem detach_linkedAt (h : (s.detach ids d).1.LinkedAt x p) : s.LinkedAt x p := by
  revert h
  refine detach_keeps (P := fun t : Store => t.LinkedAt x p → s.LinkedAt x p) id fun t ht k i h => ?_
  obtain ⟨e, he, hp⟩ := h
  have herase : (t.edges.erase (ids.definesEdgeId (ids.containerId k) i)).find? x = some e := he
  rw [find?_erase] at herase
  split at herase
  next => simp at herase
  next => exact ht ⟨e, herase, hp⟩

theorem attach_linkedAt {pending : Pending} (h : (s.attach ids pending).LinkedAt x p) : s.LinkedAt x p := by
  revert h
  refine attach_keeps (P := fun t : Store => t.LinkedAt x p → s.LinkedAt x p) id ?_ (fun _ ht _ => ht)
    (fun t ht k h => ht (h.imp fun e he => ⟨deleteContainer_edge_of_some he.1, he.2⟩)) pending
  intro t ht m hm
  obtain ⟨e, he, hp⟩ := hm
  have hins : (t.edges.insertIgnore (definesEdge ids m.2 m.1)).find? x = some e := he
  rw [find?_insertIgnore] at hins
  split at hins
  next =>
    rw [← Option.some.inj hins] at hp
    simp [definesEdge] at hp
  next => exact ht ⟨e, hins, hp⟩

theorem applyDiff_linkedAt (h : (s.applyDiff ids d).LinkedAt x p) :
    s.LinkedAt x p ∧ x ∉ d.deleteEdgeIds ∧ x ∉ d.upsertEdges.map (·.id) := by
  rw [applyDiff_eq] at h
  obtain ⟨hl, hdel, hsent⟩ := writeRows_linkedAt (attach_linkedAt h)
  exact ⟨detach_linkedAt hl, hdel, hsent⟩

/-- The diff neither deletes the placeholder nor makes another node of it. -/
def DiffLeaves (ids : ContainerIds) (d : Diff) (p : String) : Prop :=
  (∀ k, p ≠ ids.containerId k) ∧
    match d.lastRecord p with
    | some n => isPlaceholder n.toNodeRow = true
    | none => p ∉ d.deleteNodeIds

theorem waits_iff : s.waits p ↔ ∃ n, s.nodes.find? p = some n ∧ isPlaceholder n := by
  simp [waits, Option.any_eq_true]

theorem applyDiff_waits (hp : DiffLeaves ids d p) (h : s.waits p) : (s.applyDiff ids d).waits p := by
  obtain ⟨hc, hlast⟩ := hp
  unfold waits
  rw [applyDiff_node_plain hc]
  cases hr : d.lastRecord p with
  | some r =>
    rw [hr] at hlast
    exact hlast
  | none =>
    rw [hr] at hlast
    rw [if_neg hlast]
    exact h

end Store

open Option

variable {rules : LinkRules}

namespace Store

variable {x p : String}

theorem linkedAt_congr {t : Store} (h : t.toGraph = s.toGraph) : t.LinkedAt x p ↔ s.LinkedAt x p := by
  unfold LinkedAt
  rw [h]

theorem waits_congr {t : Store} (h : t.toGraph = s.toGraph) (p : String) : t.waits p = s.waits p := by
  unfold waits
  rw [h]

theorem importMove_linkedFrom (s : Store) (e : EdgeRow) (p : ImportPlaceholder) :
    (s.importMove e p).linkedFrom = e.linkedFrom := by
  unfold importMove
  split
  next => exact EdgeRow.importOnto_linkedFrom _ _ e
  next => rfl

variable {ps : List ImportPlaceholder} {q : String}

theorem linkImports_linkedAt (h : (s.linkImports ps).LinkedAt x q) : s.LinkedAt x q := by
  revert h
  apply List.foldlRecOn (motive := fun t : Store => t.LinkedAt x q → s.LinkedAt x q)
  · exact fun h => h
  · intro t ht p _ h
    obtain ⟨e, he, hq⟩ := h
    rw [linkImport_edge] at he
    obtain ⟨e₀, he₀, rfl⟩ := map_eq_some_iff.mp he
    rw [importMove_linkedFrom] at hq
    exact ht ⟨e₀, he₀, hq⟩

theorem linkImports_waits (hq : ∀ p ∈ ps, q ≠ p.id) : (s.linkImports ps).waits q = s.waits q := by
  unfold waits
  rw [linkImports_node_other hq]

variable {n : NodeRow}

theorem not_isResolvedModule (h : isPlaceholder n) : isResolvedModule n = false := by
  have hk := (of_decide_eq_true h).2
  refine decide_eq_false ?_
  intro hr
  have := hk.symm.trans hr.2
  simp [pendingSymbolNativeKind, resolvedModuleNativeKind] at this

section

variable (hq : s.waits q)

include hq

theorem ne_of_resolved (hn : n ∈ s.nodes) (hr : isResolvedModule n) : q ≠ n.id := by
  intro heq
  obtain ⟨m, hm, hp⟩ := waits_iff.mp hq
  rw [heq, find?_key hn] at hm
  rw [some.inj hm, not_isResolvedModule hp] at hr
  simp at hr

theorem wokenImports_ne (hd : ∀ n ∈ d.upsertNodes, n.id = q → isResolvedModule n.toNodeRow = false) :
    ∀ p ∈ s.wokenImports d, q ≠ p.id := by
  intro p hp
  rcases List.mem_append.mp (mem_of_mem_wokenImports hp) with hmem | hmem
  · obtain ⟨n, hn, hr, t, _, rfl⟩ := mem_importPlaceholders.mp hmem
    intro heq
    rw [hd n hn heq.symm] at hr
    simp at hr
  · obtain ⟨scope, _, hmem⟩ := List.mem_flatMap.mp hmem
    obtain ⟨⟨n, t⟩, hrow, rfl⟩ := List.mem_map.mp hmem
    obtain ⟨_, hn, hr, _⟩ := mem_targetedAt.mp hrow
    exact ne_of_resolved hq hn hr

theorem linkAllImports_ne :
    ∀ p ∈ (s.nodes.rows.filter isResolvedModule).filterMap (fun n =>
      (s.targets.find? n.id).map (importPlaceholderOf n)), q ≠ p.id := by
  intro p hp
  obtain ⟨n, hn, hp⟩ := List.mem_filterMap.mp hp
  obtain ⟨t, _, rfl⟩ := map_eq_some_iff.mp hp
  obtain ⟨hn, hr⟩ := List.mem_filter.mp hn
  exact ne_of_resolved hq hn hr

end

variable {p : Placeholder}

theorem settle_linkedFrom {ix : Index} {e : EdgeRow} (h : (ix.settle p e).linkedFrom = some q) :
    e.linkedFrom = some q ∨ q = p.id := by
  unfold Index.settle at h
  split at h
  next => exact .inl h
  next =>
    unfold Index.moved at h
    split at h
    next =>
      unfold EdgeRow.repoint at h
      split at h
      next => exact .inr (some.inj h).symm
      next => exact .inl h
    next =>
      unfold EdgeRow.unlink at h
      split at h
      next => simp at h
      next => exact .inl h

theorem link_linkedAt {ps : List Placeholder} (h : (s.link rules ps).1.LinkedAt x q) :
    s.LinkedAt x q ∨ ∃ p ∈ ps, q = p.id := by
  obtain ⟨e, he, hq⟩ := h
  rw [link_find?] at he
  obtain ⟨e₀, he₀, rfl⟩ := map_eq_some_iff.mp he
  have hfold : e₀.linkedFrom = some q ∨ ∃ p ∈ ps, q = p.id := by
    revert hq
    apply List.foldlRecOn (motive := fun r : EdgeRow => r.linkedFrom = some q →
      e₀.linkedFrom = some q ∨ ∃ p ∈ ps, q = p.id)
    · exact .inl
    · intro r hr p hp hq
      rcases settle_linkedFrom hq with hq | hq
      · exact hr hq
      · exact .inr ⟨p, hp, hq⟩
  rcases hfold with hq | hq
  · exact .inl ⟨e₀, he₀, hq⟩
  · exact .inr hq

theorem placeholderOf_id (h : s.placeholderOf n = some p) : p.id = n.id := by
  obtain ⟨t, _, rfl⟩ := map_eq_some_iff.mp h
  rfl

theorem waits_of_placeholders (h : p ∈ s.placeholders) : s.waits p.id := by
  obtain ⟨n, hn, hp⟩ := List.mem_filterMap.mp h
  obtain ⟨hn, hk⟩ := List.mem_filter.mp hn
  rw [placeholderOf_id hp]
  exact waits_iff.mpr ⟨n, find?_key hn, hk⟩

theorem waits_of_wokenPlaceholders (h : p ∈ s.wokenPlaceholders d) : s.waits p.id := by
  obtain ⟨id, _, hp⟩ := List.mem_filterMap.mp h
  obtain ⟨n, hn, hp⟩ := bind_eq_some_iff.mp hp
  obtain ⟨hn, hk⟩ := filter_eq_some_iff.mp hn
  rw [placeholderOf_id hp, (find?_eq_some_iff.mp hn).2]
  exact waits_iff.mpr ⟨n, hn, hk⟩

end Store

variable {staging : IndexFile} {plan : Plan} {xs : List String}

namespace IndexFile

variable {f : IndexFile} {language p : String}

theorem deletePlaceholder_node (h : id = p → f.isPlaceholderOf language p = false) :
    (f.deletePlaceholder language id).nodes.find? p = f.nodes.find? p := by
  unfold deletePlaceholder
  split
  next hid =>
    show (f.nodes.erase id).find? p = _
    rw [find?_erase, if_neg]
    intro heq
    rw [← heq, h heq.symm] at hid
    simp at hid
  next => rfl

theorem isPlaceholderOf_congr {g : IndexFile} (h : g.nodes.find? p = f.nodes.find? p) :
    g.isPlaceholderOf language p = f.isPlaceholderOf language p := by
  unfold isPlaceholderOf
  rw [h]

theorem deletePlaceholders_node (h : p ∈ xs → f.isPlaceholderOf language p = false) :
    (f.deletePlaceholders language xs).nodes.find? p = f.nodes.find? p := by
  unfold deletePlaceholders
  induction xs generalizing f with
  | nil => rfl
  | cons id _ ih =>
    have hstep : (f.deletePlaceholder language id).nodes.find? p = f.nodes.find? p :=
      deletePlaceholder_node (fun heq => h (heq ▸ List.mem_cons_self))
    rw [List.foldl_cons, ih, hstep]
    intro hp
    rw [isPlaceholderOf_congr hstep]
    exact h (List.mem_cons_of_mem _ hp)

variable {e : EdgeRow}

theorem deletePlaceholder_edge (h : e ∈ (f.deletePlaceholder language id).edges) :
    e ∈ f.edges ∧ (f.isPlaceholderOf language id → e.fromId ≠ id ∧ e.toId ≠ id) := by
  unfold deletePlaceholder at h
  split at h
  next =>
    have hf : e ∈ f.edges.filter (fun e => decide (e.fromId ≠ id ∧ e.toId ≠ id)) := h
    rw [mem_filter, decide_eq_true_iff] at hf
    exact ⟨hf.1, fun _ => hf.2⟩
  next hid => exact ⟨h, fun hp => absurd hp hid⟩

theorem deletePlaceholders_edge (h : e ∈ (f.deletePlaceholders language xs).edges) :
    e ∈ f.edges ∧ ∀ x ∈ xs, f.isPlaceholderOf language x → e.fromId ≠ x ∧ e.toId ≠ x := by
  induction xs generalizing f with
  | nil => exact ⟨h, by simp⟩
  | cons id _ ih =>
    obtain ⟨hmid, hrest⟩ := ih h
    obtain ⟨hf, hid⟩ := deletePlaceholder_edge hmid
    refine ⟨hf, ?_⟩
    intro x hx hp
    by_cases heq : x = id
    · rw [heq] at hp ⊢
      exact hid hp
    · have hsame : (f.deletePlaceholder language id).nodes.find? x = f.nodes.find? x :=
        deletePlaceholder_node (fun h => absurd h.symm heq)
      refine hrest x ((List.mem_cons.mp hx).resolve_left heq) ?_
      rw [isPlaceholderOf_congr hsame, hp]

theorem swapAttached_edge :
    e ∈ (swapAttached f staging plan).edges ↔ (e ∈ staging.edges ∧ e.id ∈ plan.upsertEdges) ∨
      ((e ∈ f.edges ∧ e.id ∉ plan.deleteEdges) ∧ ∀ t ∈ staging.edges, t.id ∈ plan.upsertEdges → t.id ≠ e.id) := by
  show e ∈ (f.edges.filter (fun e => decide (e.id ∉ plan.deleteEdges))).copy staging.edges
    (fun e => decide (e.id ∈ plan.upsertEdges)) ↔ _
  simp only [mem_copy, mem_filter, decide_eq_true_iff]

theorem swapAttached_node (f staging : IndexFile) (plan : Plan) (p : String) :
    (swapAttached f staging plan).nodes.find? p =
      ((staging.nodes.find? p).filter (fun n => decide (n.id ∈ plan.upsertNodes))).or
        ((f.nodes.find? p).filter (fun n => decide (n.id ∉ plan.deleteNodes))) := by
  show ((f.nodes.filter (fun n => decide (n.id ∉ plan.deleteNodes))).copy staging.nodes
    (fun n => decide (n.id ∈ plan.upsertNodes))).find? p = _
  rw [find?_copy, find?_filter]

theorem swapAttached_waits :
    (swapAttached f staging plan).waits p =
      if staging.nodes.contains p ∧ p ∈ plan.upsertNodes then staging.waits p
      else f.waits p && decide (p ∉ plan.deleteNodes) := by
  have hfind := swapAttached_node f staging plan p
  have hlive : ((f.nodes.find? p).filter (fun n => decide (n.id ∉ plan.deleteNodes))).any isPlaceholder =
      (f.waits p && decide (p ∉ plan.deleteNodes)) := by
    unfold Store.waits
    cases hf : f.nodes.find? p with
    | none => rfl
    | some n =>
      have hid := (find?_eq_some_iff.mp hf).2
      by_cases hdel : p ∈ plan.deleteNodes
      · simp [Option.filter, hid, hdel]
      · simp [Option.filter, hid, hdel]
  unfold Store.waits at hlive ⊢
  rw [hfind]
  cases hs : staging.nodes.find? p with
  | none => simpa [KeyedTable.contains, hs] using hlive
  | some n =>
    have hid := (find?_eq_some_iff.mp hs).2
    by_cases hup : p ∈ plan.upsertNodes
    · simp [KeyedTable.contains, hs, Option.filter, hid, hup]
    · simpa [KeyedTable.contains, hs, Option.filter, hid, hup] using hlive

end IndexFile

def IndexOp.Rewrites (f : IndexFile) (o : IndexOp) (x : String) : Prop :=
  match o with
  | applyDiff d => x ∈ d.deleteEdgeIds ∨ x ∈ d.upsertEdges.map (·.id)
  | applyFileDiff path scope d => x ∈ (f.widen path scope d).deleteEdgeIds ∨ x ∈ d.upsertEdges.map (·.id)
  | applySemanticDiff d => x ∈ d.deleteEdgeIds ∨ x ∈ d.upsertEdges.map (·.id)
  | deletePlaceholders language placeholders => ∃ e ∈ f.edges, e.id = x ∧
      ∃ q ∈ placeholders, f.isPlaceholderOf language q = true ∧ (e.fromId = q ∨ e.toId = q)
  | _ => False

/-- Whether the write neither deletes a pending symbol nor turns it into something else. -/
def IndexOp.Leaves (ids : ContainerIds) (f : IndexFile) (o : IndexOp) (p : String) : Prop :=
  match o with
  | applyDiff d => Store.DiffLeaves ids d.toDiff p
  | applyFileDiff path scope d => Store.DiffLeaves ids (f.widen path scope d).toDiff p
  | applySemanticDiff d => Store.DiffLeaves ids (f.insertedPart d).toDiff p
  | linkDiffImports d => ∀ n ∈ d.upsertNodes, n.id = p → isResolvedModule n.toNodeRow = false
  | deletePlaceholders language placeholders => p ∈ placeholders → f.isPlaceholderOf language p = false
  | _ => True

/-- The placeholders of the linked edges that a write lets stand are left. -/
def IndexOp.SparesLinked (ids : ContainerIds) (f : IndexFile) (o : IndexOp) : Prop :=
  ∀ e ∈ f.edges, ∀ p, e.linkedFrom = some p → ¬ o.Rewrites f e.id → o.Leaves ids f p

/-- The swap takes no placeholder from a linked edge that stays, and takes in none without it. -/
structure Plan.SparesLinked (f staging : IndexFile) (plan : Plan) : Prop where
  live : ∀ e ∈ f.edges, ∀ p, e.linkedFrom = some p → e.id ∉ plan.deleteEdges →
    (∀ t ∈ staging.edges, t.id ∈ plan.upsertEdges → t.id ≠ e.id) →
    if staging.nodes.contains p = true ∧ p ∈ plan.upsertNodes then staging.waits p = true else p ∉ plan.deleteNodes
  staged : ∀ e ∈ staging.edges, ∀ p, e.linkedFrom = some p → e.id ∈ plan.upsertEdges →
    p ∈ plan.upsertNodes ∨ (f.waits p = true ∧ p ∉ plan.deleteNodes)

def History.SparesLinked (ids : ContainerIds) (rules : LinkRules) (h : History) : Prop :=
  h.All ids rules (fun f o => o.SparesLinked ids f) Plan.SparesLinked

variable {ids : ContainerIds} {rules : LinkRules} {f : IndexFile} {o : IndexOp}

namespace IndexFile

theorem linkDiffImports_toStore (f : IndexFile) (d : IndexDiff) :
    (f.linkDiffImports d).toStore = f.toStore.linkDiffImports d.toDiff :=
  foldl_linkImport_toStore _ f

theorem linkAllImports_toStore (f : IndexFile) : f.linkAllImports.toStore = f.toStore.linkAllImports :=
  foldl_linkImport_toStore _ f

variable {p : String}

theorem applyDiff_getD_waits {d : IndexDiff} (hp : Store.DiffLeaves ids d.toDiff p) (h : f.waits p) :
    ((f.applyDiff ids d).getD f).waits p := by
  cases hg : f.applyDiff ids d with
  | none => exact h
  | some g =>
    rw [getD_some, applyDiff_toStore hg]
    exact Store.applyDiff_waits hp h

/-- A write that leaves a pending symbol leaves it pending. -/
theorem run_waits (hp : o.Leaves ids f p) (h : f.waits p) : (o.run ids rules f).waits p := by
  cases o with
  | applyDiff d | applyFileDiff => exact applyDiff_getD_waits hp h
  | applySemanticDiff d =>
    show ((f.applySemanticDiff ids d).getD f).waits p
    cases hg : f.applySemanticDiff ids d with
    | none => exact h
    | some g =>
      rw [getD_some, applySemanticDiff_toStore hg, Store.applySemanticDiff_eq,
        Store.waits_congr (Store.foldl_replaceUntypedCalls_frame _ _).1]
      refine Store.applyDiff_waits ?_ h
      rw [← insertedPart_toDiff]
      exact hp
  | linkDiffImports d =>
    show (f.linkDiffImports d).waits p
    have hne := Store.wokenImports_ne (d := d.toDiff) h ?_
    · rw [linkDiffImports_toStore, Store.linkDiffImports, Store.linkImports_waits hne, h]
    · intro n hn hid
      obtain ⟨m, hm, rfl⟩ := List.mem_map.mp hn
      exact hp m hm hid
  | linkAllImports =>
    show (f.linkAllImports).waits p
    rw [linkAllImports_toStore, Store.linkAllImports, Store.linkImports_waits (Store.linkAllImports_ne h), h]
  | linkDiff d => exact h
  | linkAll => exact h
  | deletePlaceholders language placeholders =>
    show (f.deletePlaceholders language placeholders).waits p
    unfold Store.waits
    rw [deletePlaceholders_node hp]
    exact h

theorem applyDiff_getD_linkedAt {d : IndexDiff} {x : String} (h : ((f.applyDiff ids d).getD f).LinkedAt x p) :
    f.LinkedAt x p ∧ (f.applyDiff ids d = none ∨ (x ∉ d.deleteEdgeIds ∧ x ∉ d.upsertEdges.map (·.id))) := by
  cases hg : f.applyDiff ids d with
  | none =>
    rw [hg] at h
    exact ⟨h, .inl rfl⟩
  | some g =>
    rw [hg, getD_some, applyDiff_toStore hg] at h
    obtain ⟨hl, hrest⟩ := Store.applyDiff_linkedAt h
    exact ⟨hl, .inr hrest⟩

/-- An edge that is linked after a write was linked before, or its placeholder waits. -/
theorem run_linkedAt {x : String} (h : (o.run ids rules f).LinkedAt x p) :
    (f.LinkedAt x p ∧ (o.run ids rules f = f ∨ ¬ o.Rewrites f x)) ∨ (o.run ids rules f).waits p := by
  cases o with
  | applyDiff d | applyFileDiff =>
    obtain ⟨hl, hrest⟩ := applyDiff_getD_linkedAt h
    rcases hrest with hg | hrest
    · exact .inl ⟨hl, .inl (by simp [IndexOp.run, hg])⟩
    · exact .inl ⟨hl, .inr (fun hr => hr.elim hrest.1 hrest.2)⟩
  | applySemanticDiff d =>
    cases hg : f.applySemanticDiff ids d with
    | none =>
      have hrun : (IndexOp.applySemanticDiff d).run ids rules f = f := by simp [IndexOp.run, hg]
      rw [hrun] at h ⊢
      exact .inl ⟨h, .inl rfl⟩
    | some g =>
      have hrun : (IndexOp.applySemanticDiff d).run ids rules f = g := by simp [IndexOp.run, hg]
      rw [hrun, applySemanticDiff_toStore hg, Store.applySemanticDiff_eq,
        Store.linkedAt_congr (Store.foldl_replaceUntypedCalls_frame _ _).1] at h
      obtain ⟨hl, hdel, hsent⟩ := Store.applyDiff_linkedAt h
      exact .inl ⟨hl, .inr (fun hr => hr.elim hdel hsent)⟩
  | linkDiffImports d =>
    have hl : (f.linkDiffImports d).LinkedAt x p := h
    rw [linkDiffImports_toStore] at hl
    exact .inl ⟨Store.linkImports_linkedAt hl, .inr id⟩
  | linkAllImports =>
    have hl : f.linkAllImports.LinkedAt x p := h
    rw [linkAllImports_toStore] at hl
    exact .inl ⟨Store.linkImports_linkedAt hl, .inr id⟩
  | linkDiff d =>
    have hl : (f.toStore.link rules (f.toStore.wokenPlaceholders d.toDiff)).1.LinkedAt x p := h
    rcases Store.link_linkedAt hl with hl | ⟨q, hq, rfl⟩
    · exact .inl ⟨hl, .inr id⟩
    · refine .inr ?_
      show f.toStore.waits q.id
      exact Store.waits_of_wokenPlaceholders hq
  | linkAll =>
    have hl : (f.toStore.link rules f.toStore.placeholders).1.LinkedAt x p := h
    rcases Store.link_linkedAt hl with hl | ⟨q, hq, rfl⟩
    · exact .inl ⟨hl, .inr id⟩
    · refine .inr ?_
      show (f.toStore.link rules _).1.waits q.id
      exact Store.waits_of_placeholders hq
  | deletePlaceholders language placeholders =>
    obtain ⟨e, he, hp⟩ := h
    obtain ⟨hmem, rfl⟩ := find?_eq_some_iff.mp he
    obtain ⟨hf, hends⟩ := deletePlaceholders_edge hmem
    refine .inl ⟨⟨e, find?_key hf, hp⟩, .inr ?_⟩
    rintro ⟨e', he', hid, q, hq, hplaceholder, hend⟩
    have : e' = e := f.edges.key_injective he' hf hid
    subst this
    obtain ⟨hfrom, hto⟩ := hends q hq hplaceholder
    exact hend.elim hfrom hto

theorem run_keeps_placeholder (hl : f.LinkedBack) (ho : o.SparesLinked ids f) {e : EdgeRow} (he : e ∈ f.edges)
    (hp : e.linkedFrom = some p) (hr : ¬ o.Rewrites f e.id) : (o.run ids rules f).waits p :=
  run_waits (ho e he p hp hr) (hl e he p hp)

/-- A write that spares linked edges leaves each its placeholder to go back to. -/
theorem run_linkedBack (hl : f.LinkedBack) (ho : o.SparesLinked ids f) : (o.run ids rules f).LinkedBack := by
  rw [Store.linkedBack_iff]
  intro x p hat
  rcases run_linkedAt hat with ⟨⟨e, he, hp⟩, hrest⟩ | hw
  · obtain ⟨hmem, rfl⟩ := find?_eq_some_iff.mp he
    rcases hrest with hsame | hr
    · rw [hsame]
      exact hl e hmem p hp
    · exact run_keeps_placeholder hl ho hmem hp hr
  · exact hw

theorem swapAttached_linkedBack (hf : f.LinkedBack) (hs : staging.LinkedBack)
    (hplan : plan.SparesLinked f staging) : (swapAttached f staging plan).LinkedBack := by
  intro e he p hp
  rw [swapAttached_waits]
  rcases swapAttached_edge.mp he with ⟨hstaged, hup⟩ | ⟨⟨hlive, hdel⟩, hother⟩
  · have hw := hs e hstaged p hp
    rcases hplan.staged e hstaged p hp hup with hin | ⟨hwf, hdel⟩
    · obtain ⟨n, hn, _⟩ := Store.waits_iff.mp hw
      rw [if_pos ⟨by simp [KeyedTable.contains, hn], hin⟩, hw]
    · split
      next => exact hw
      next => simp [hwf, hdel]
  · have hkept := hplan.live e hlive p hp hdel hother
    split at hkept
    next hin => rw [if_pos hin, hkept]
    next hin => simp [hin, hf e hlive p hp, hkept]

end IndexFile

/-- So does every history of such writes. -/
theorem History.linkedBack (h : History) (hc : h.SparesLinked ids rules) : (h.file ids rules).LinkedBack := by
  induction h with
  | empty =>
    intro e he
    simp [History.file, KeyedTable.mem_def] at he
  | op _ _ ih => exact IndexFile.run_linkedBack (ih hc.1) hc.2
  | swap _ _ _ ihb ihs => exact IndexFile.swapAttached_linkedBack (ihb hc.1) (ihs hc.2.1) hc.2.2

/-- As long as no write takes the placeholder of a linked edge that stands, every linked edge names a pending symbol
there is, and goes back onto it when its target is deleted. -/
theorem linked_edges_keep_their_placeholder (ids : ContainerIds) (rules : LinkRules) (h : History)
    (hc : h.SparesLinked ids rules) :
    (h.file ids rules).LinkedBack ∧
      ∀ o : IndexOp, o.SparesLinked ids (h.file ids rules) → ∀ e ∈ (h.file ids rules).edges, ∀ p,
        e.linkedFrom = some p → ¬ o.Rewrites (h.file ids rules) e.id → ((h.op o).file ids rules).waits p = true := by
  have hl := h.linkedBack hc
  exact ⟨hl, fun o ho e he p hp hr => IndexFile.run_keeps_placeholder hl ho he hp hr⟩

def callerRecord : DeclaredRecord :=
  { id := "u", name := "u", filePath := "a.ts", language := "typescript" }

def foundCall : IndexDiff where
  upsertNodes := [callerRecord,
    { id := "p", kind := .module, nativeKind := some "pending_symbol", filePath := "a.ts", language := "typescript",
      target := some { scope := "b.ts", key := "t" } }]
  upsertEdges := [{ id := "ut", fromId := "u", toId := "p", source := .semantic }]

def calledRecord : DeclaredRecord :=
  { id := "t", name := "t", filePath := "b.ts", language := "typescript", visibility := .everywhere }

def linkedCall : History :=
  ((History.empty.op (.applyDiff { upsertNodes := [calledRecord] })).op (.applySemanticDiff foundCall)).op
    (.linkDiff foundCall)

theorem linkedCall_edges : (linkedCall.file taggedIds {}).edges.rows =
    [{ id := "ut", fromId := "u", toId := "t", source := .semantic, resolved := true, linkedFrom := some "p" }] := by
  decide +kernel

/-- The called symbol goes: the edge finds its placeholder. -/
theorem linked_edges_linkedCall :
    ((linkedCall.op (.applyDiff { deleteNodeIds := ["t"] })).file taggedIds {}).waits "p" = true := by
  have hnone : ((History.empty.op (.applyDiff { upsertNodes := [calledRecord] })).file taggedIds {}).edges.rows = [] := by
    decide +kernel
  have hc : linkedCall.SparesLinked taggedIds {} := by
    refine ⟨⟨⟨trivial, ?_⟩, ?_⟩, fun _ _ _ _ _ => trivial⟩
    · intro e he
      simp [History.file, KeyedTable.mem_def] at he
    · intro e he
      rw [KeyedTable.mem_def, hnone] at he
      simp at he
  have hedges := linkedCall_edges
  refine (linked_edges_keep_their_placeholder taggedIds {} linkedCall hc).2 _ ?_ _
    (KeyedTable.mem_def.mpr (by rw [hedges]; exact List.mem_cons_self)) "p" rfl ?_
  · intro e he p hp _
    rw [KeyedTable.mem_def, hedges, List.mem_singleton] at he
    subst he
    cases hp
    refine ⟨fun k => ne_taggedId (by decide) k.1 k.2, ?_⟩
    simp [Diff.lastRecord, IndexDiff.toDiff]
  · simp [IndexOp.Rewrites]

def reparsedCaller : History := linkedCall.op (.applyFileDiff "a.ts" .complete { upsertNodes := [callerRecord] })

/-- The pass's edge stays and its placeholder goes. Once the called symbol goes too, the edge dangles. -/
theorem linked_edges_reparsedCaller :
    (reparsedCaller.file taggedIds {}).edges.rows =
      [{ id := "ut", fromId := "u", toId := "t", source := .semantic, resolved := true, linkedFrom := some "p" }] ∧
    (reparsedCaller.file taggedIds {}).nodes.contains "p" = false ∧
    ((reparsedCaller.op (.applyDiff { deleteNodeIds := ["t"] })).file taggedIds {}).edges.rows =
      [{ id := "ut", fromId := "u", toId := "p", source := .semantic }] ∧
    ((reparsedCaller.op (.applyDiff { deleteNodeIds := ["t"] })).file taggedIds {}).nodes.contains "p" = false := by
  decide +kernel

end GMesh
