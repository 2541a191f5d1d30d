import GMesh.Containers

namespace GMesh

open KeyedTable List

variable {ids : ContainerIds} {k' : ContainerKey}

theorem definesEdge_inj {k : ContainerKey} {i i' : String}
    (h : definesEdge ids k i = definesEdge ids k' i') : k = k' ∧ i = i' := by
  have hf := congrArg EdgeRow.fromId h
  have ht := congrArg EdgeRow.toId h
  exact ⟨ids.containerId_injective hf, ht⟩

theorem definesEdge_id_inj {k : ContainerKey} {i i' : String}
    (h : ids.definesEdgeId (ids.containerId k) i = ids.definesEdgeId (ids.containerId k') i') :
    k = k' ∧ i = i' := by
  obtain ⟨hk, hi⟩ := ids.definesEdgeId_injective h
  exact ⟨ids.containerId_injective hk, hi⟩

/-- The container `DEFINES` edges are those of the relation, and nothing else uses their ids. -/
structure DefinesExactly (ids : ContainerIds) (t : EdgeTable) (M : ContainerKey → String → Prop) : Prop where
  mem_iff : ∀ k i, definesEdge ids k i ∈ t ↔ M k i
  shape : ∀ e ∈ t, ∀ k, e.fromId = ids.containerId k → e.kind = .defines → ∃ i, e = definesEdge ids k i
  reserved : ∀ e ∈ t, ∀ k i, e.id = ids.definesEdgeId (ids.containerId k) i → e = definesEdge ids k i

structure PlainEdge (ids : ContainerIds) (e : EdgeRow) : Prop where
  id_ne : ∀ k i, e.id ≠ ids.definesEdgeId (ids.containerId k) i
  not_defines : ∀ k, e.fromId = ids.containerId k → e.kind ≠ .defines

variable {e : EdgeRow}

namespace DefinesExactly

variable {t u : EdgeTable} {M M' : ContainerKey → String → Prop}

theorem empty : DefinesExactly ids ∅ (fun _ _ => False) where
  mem_iff _ _ := by simp [mem_def]
  shape e he := by simp [mem_def] at he
  reserved e he := by simp [mem_def] at he

variable (h : DefinesExactly ids t M)

include h

theorem congr (hM : ∀ k i, M k i ↔ M' k i) : DefinesExactly ids t M' where
  mem_iff k i := (h.mem_iff k i).trans (hM k i)
  shape := h.shape
  reserved := h.reserved

theorem filter (keep : EdgeRow → Bool) :
    DefinesExactly ids (t.filter keep) (fun k i => M k i ∧ keep (definesEdge ids k i)) where
  mem_iff k i := by rw [KeyedTable.mem_filter, h.mem_iff]
  shape e he := h.shape e (KeyedTable.mem_filter.mp he).1
  reserved e he := h.reserved e (KeyedTable.mem_filter.mp he).1

theorem erase_plain {x : String}
    (hx : ∀ k i, x ≠ ids.definesEdgeId (ids.containerId k) i) : DefinesExactly ids (t.erase x) M := by
  refine (h.filter _).congr ?_
  intro k i
  rw [decide_eq_true_iff]
  exact and_iff_left fun he => hx k i he.symm

theorem erase_member (k : ContainerKey) (i : String) :
    DefinesExactly ids (t.erase (ids.definesEdgeId (ids.containerId k) i))
      (fun k' i' => M k' i' ∧ ¬ (k' = k ∧ i' = i)) := by
  refine (h.filter _).congr ?_
  intro k' i'
  rw [decide_eq_true_iff]
  have hid : (definesEdge ids k' i').id = ids.definesEdgeId (ids.containerId k) i ↔ k' = k ∧ i' = i := by
    constructor
    · exact definesEdge_id_inj
    · intro he
      rw [he.1, he.2]
      rfl
  rw [Ne, hid]

theorem put_plain (he : PlainEdge ids e) : DefinesExactly ids (t.put e) M where
  mem_iff k i := by
    rw [mem_put, h.mem_iff]
    constructor
    · rintro (hd | hd)
      · exact absurd (congrArg EdgeRow.id hd).symm (he.id_ne k i)
      · exact hd.1
    · exact fun hm => .inr ⟨hm, fun hid => he.id_ne k i hid.symm⟩
  shape r hr k hf hk := by
    rcases mem_put.mp hr with rfl | hr
    · exact absurd hk (he.not_defines k hf)
    · exact h.shape r hr.1 k hf hk
  reserved r hr k i hid := by
    rcases mem_put.mp hr with rfl | hr
    · exact absurd hid (he.id_ne k i)
    · exact h.reserved r hr.1 k i hid

theorem update {f : EdgeRow → EdgeRow} (hid : ∀ e, (f e).id = e.id)
    (hfrom : ∀ e, (f e).fromId = e.fromId) (hkind : ∀ e, (f e).kind = e.kind)
    (hd : ∀ k i, f (definesEdge ids k i) = definesEdge ids k i) :
    DefinesExactly ids (t.update f hid) M where
  mem_iff k i := by
    rw [← h.mem_iff, mem_update]
    constructor
    · rintro ⟨r, hr, he⟩
      have hri : r.id = ids.definesEdgeId (ids.containerId k) i := by rw [← hid r, he]; rfl
      rw [← h.reserved r hr k i hri]
      exact hr
    · exact fun hm => ⟨_, hm, hd k i⟩
  shape e he k hf hk := by
    obtain ⟨r, hr, rfl⟩ := mem_update.mp he
    rw [hfrom] at hf
    rw [hkind] at hk
    obtain ⟨i, rfl⟩ := h.shape r hr k hf hk
    exact ⟨i, hd k i⟩
  reserved e he k i hi := by
    obtain ⟨r, hr, rfl⟩ := mem_update.mp he
    rw [hid] at hi
    rw [h.reserved r hr k i hi, hd]

theorem insert (k : ContainerKey) (i : String) :
    DefinesExactly ids (t.insertIgnore (definesEdge ids k i)) (fun k' i' => M k' i' ∨ (k' = k ∧ i' = i)) := by
  by_cases hc : t.contains (definesEdge ids k i).id
  · have hmem : M k i := by
      obtain ⟨r, hr, hid⟩ := contains_iff.mp hc
      have he := h.reserved r hr k i hid
      exact (h.mem_iff k i).mp (he ▸ hr)
    rw [KeyedTable.insertIgnore, if_pos hc]
    refine h.congr fun k' i' => ⟨.inl, ?_⟩
    rintro (hm | ⟨rfl, rfl⟩)
    · exact hm
    · exact hmem
  · rw [KeyedTable.insertIgnore, if_neg hc]
    have hfresh := contains_eq_false_iff.mp (Bool.eq_false_iff.mpr hc)
    refine ⟨?_, ?_, ?_⟩
    · intro k' i'
      rw [mem_put, h.mem_iff]
      constructor
      · rintro (he | he)
        · exact .inr (definesEdge_inj he)
        · exact .inl he.1
      · rintro (hm | ⟨rfl, rfl⟩)
        · exact .inr ⟨hm, hfresh _ ((h.mem_iff k' i').mpr hm)⟩
        · exact .inl rfl
    · intro e he k' hf hk
      rcases mem_put.mp he with rfl | he
      · have hkk : k = k' := ids.containerId_injective hf
        exact ⟨i, by rw [hkk]⟩
      · exact h.shape e he.1 k' hf hk
    · intro e he k' i' hid
      rcases mem_put.mp he with rfl | he
      · obtain ⟨rfl, rfl⟩ := definesEdge_id_inj hid
        rfl
      · exact h.reserved e he.1 k' i' hid

variable {k : ContainerKey}

theorem mem_counted :
    e ∈ t.rows.filter (fun e => decide (e.fromId = ids.containerId k ∧ e.kind = .defines)) ↔
      ∃ i, M k i ∧ e = definesEdge ids k i := by
  rw [List.mem_filter, decide_eq_true_iff]
  constructor
  · rintro ⟨he, hf, hk⟩
    obtain ⟨i, rfl⟩ := h.shape e he k hf hk
    exact ⟨i, (h.mem_iff k i).mp he, rfl⟩
  · rintro ⟨i, hm, rfl⟩
    exact ⟨(h.mem_iff k i).mpr hm, rfl, rfl⟩

theorem counted_perm {members : List String} (hn : members.Nodup) (hm : ∀ i, i ∈ members ↔ M k i) :
    (t.rows.filter (fun e => decide (e.fromId = ids.containerId k ∧ e.kind = .defines))).Perm
      (members.map (definesEdge ids k)) := by
  have hinj : Function.Injective (definesEdge ids k) := fun i i' he => (definesEdge_inj he).2
  rw [perm_ext_iff_of_nodup (t.nodup.of_map.filter _) (hn.map hinj)]
  intro e
  rw [h.mem_counted, mem_map]
  constructor
  · rintro ⟨i, hi, rfl⟩
    exact ⟨i, (hm i).mpr hi, rfl⟩
  · rintro ⟨i, hi, rfl⟩
    exact ⟨i, (hm i).mp hi, rfl⟩

theorem counted_perm_counted (hu : DefinesExactly ids u M') (hk : ∀ i, M k i ↔ M' k i) :
    (t.rows.filter (fun e => decide (e.fromId = ids.containerId k ∧ e.kind = .defines))).Perm
      (u.rows.filter (fun e => decide (e.fromId = ids.containerId k ∧ e.kind = .defines))) := by
  rw [perm_ext_iff_of_nodup (t.nodup.of_map.filter _) (u.nodup.of_map.filter _)]
  intro e
  rw [h.mem_counted, hu.mem_counted]
  exact exists_congr fun i => and_congr_left fun _ => hk i

end DefinesExactly

theorem definesCount_eq {s t : Store} {M M' : ContainerKey → String → Prop} {k : ContainerKey}
    (hs : DefinesExactly ids s.edges M) (ht : DefinesExactly ids t.edges M') (hk : ∀ i, M k i ↔ M' k i) :
    s.definesCount (ids.containerId k) = t.definesCount (ids.containerId k) :=
  (hs.counted_perm_counted ht hk).length_eq

theorem definesCount_eq_zero_iff {s : Store} {M : ContainerKey → String → Prop}
    (h : DefinesExactly ids s.edges M) (k : ContainerKey) :
    s.definesCount (ids.containerId k) = 0 ↔ ∀ i, ¬ M k i := by
  rw [Store.definesCount, length_eq_zero_iff, eq_nil_iff_forall_not_mem]
  constructor
  · intro hn i hi
    exact hn _ (h.mem_counted.mpr ⟨i, hi, rfl⟩)
  · intro hn e he
    obtain ⟨i, hi, _⟩ := h.mem_counted.mp he
    exact hn i hi

/-- A diff that leaves the rows core owns to core. -/
structure Diff.NamesNoContainer (ids : ContainerIds) (d : Diff) : Prop where
  upserted : ∀ n ∈ d.upsertNodes, ∀ k, n.id ≠ ids.containerId k
  deleted : ∀ id ∈ d.deleteNodeIds, ∀ k, id ≠ ids.containerId k
  edge : ∀ e ∈ d.upsertEdges, PlainEdge ids e
  edgeDeleted : ∀ x ∈ d.deleteEdgeIds, ∀ k i, x ≠ ids.definesEdgeId (ids.containerId k) i

namespace Store

theorem deleteNamed_nodes (d : Diff) (s : Store) (id : String) : (s.deleteNamed d id).nodes = s.nodes.erase id := by
  unfold deleteNamed
  split <;> rfl

theorem deleteNamed_containers (d : Diff) (s : Store) (id : String) :
    (s.deleteNamed d id).containers = s.containers := by
  unfold deleteNamed
  split <;> rfl

section

variable (s : Store) (n : NodeRecord)

theorem replaceTarget_toGraph : (s.replaceTarget n).toGraph = s.toGraph := by
  unfold replaceTarget
  split <;> rfl

theorem replaceTarget_containers : (s.replaceTarget n).containers = s.containers := by
  unfold replaceTarget
  split <;> rfl

theorem upsertNode_nodes : (s.upsertNode n).nodes = s.nodes.put n.toNodeRow := by
  unfold upsertNode
  rw [replaceTarget_toGraph]
  rfl

theorem upsertNode_edges : (s.upsertNode n).edges = s.edges := by
  unfold upsertNode
  rw [replaceTarget_toGraph]
  rfl

theorem upsertNode_containers : (s.upsertNode n).containers = s.containers := by
  unfold upsertNode
  rw [replaceTarget_containers]
  rfl

end

theorem foldl_deleteEdge_nodes (xs : List String) (s : Store) : (xs.foldl deleteEdge s).nodes = s.nodes :=
  foldlRecOn (motive := fun t : Store => t.nodes = s.nodes) xs deleteEdge rfl (fun _ ht _ _ => ht)

theorem foldl_deleteNamed_nodes (d : Diff) (xs : List String) (s : Store) :
    (xs.foldl (deleteNamed d) s).nodes = xs.foldl KeyedTable.erase s.nodes :=
  (foldl_hom (fun t : Store => t.nodes) fun t x => (deleteNamed_nodes d t x).symm).symm

theorem foldl_upsertNode_nodes (ns : List NodeRecord) (s : Store) :
    (ns.foldl upsertNode s).nodes = (ns.map NodeRecord.toNodeRow).foldl KeyedTable.put s.nodes := by
  rw [foldl_map]
  exact (foldl_hom (fun t : Store => t.nodes) fun t n => (upsertNode_nodes t n).symm).symm

theorem foldl_upsertEdge_nodes (es : List EdgeRow) (s : Store) : (es.foldl upsertEdge s).nodes = s.nodes :=
  foldlRecOn (motive := fun t : Store => t.nodes = s.nodes) es upsertEdge rfl (fun _ ht _ _ => ht)

theorem writeRows_find? (s : Store) (d : Diff) (id : String) :
    (s.writeRows d).nodes.find? id = ((d.lastRecord id).map NodeRecord.toNodeRow).or
      (if id ∈ d.deleteNodeIds then none else s.nodes.find? id) := by
  unfold writeRows
  rw [foldl_upsertEdge_nodes, foldl_upsertNode_nodes, KeyedTable.find?_foldl_put, lastWhere_map,
    foldl_deleteNamed_nodes, KeyedTable.find?_foldl_erase, foldl_deleteEdge_nodes]
  rfl

variable {s : Store}

theorem writeRows_keeps {P : Store → Prop} {d : Diff} (hs : P s)
    (hde : ∀ t, P t → ∀ x ∈ d.deleteEdgeIds, P (t.deleteEdge x))
    (hdn : ∀ t, P t → ∀ x ∈ d.deleteNodeIds, P (t.deleteNamed d x))
    (hun : ∀ t, P t → ∀ n ∈ d.upsertNodes, P (t.upsertNode n))
    (hue : ∀ t, P t → ∀ e ∈ d.upsertEdges, P (t.upsertEdge e)) : P (s.writeRows d) := by
  have h1 := foldlRecOn (motive := P) d.deleteEdgeIds deleteEdge hs hde
  have h2 := foldlRecOn (motive := P) d.deleteNodeIds (deleteNamed d) h1 hdn
  have h3 := foldlRecOn (motive := P) d.upsertNodes upsertNode h2 hun
  exact foldlRecOn (motive := P) d.upsertEdges upsertEdge h3 hue

theorem writeRows_containers (s : Store) (d : Diff) : (s.writeRows d).containers = s.containers := by
  apply writeRows_keeps (P := fun t => t.containers = s.containers) rfl
  · exact fun _ ht _ _ => ht
  · exact fun t ht x _ => (deleteNamed_containers d t x).trans ht
  · exact fun t ht n _ => (upsertNode_containers t n).trans ht
  · exact fun _ ht _ _ => ht

variable {M : ContainerKey → String → Prop} (h : DefinesExactly ids s.edges M)

include h

theorem definesExactly_deleteNamed (d : Diff) (x : String) : DefinesExactly ids (s.deleteNamed d x).edges M := by
  unfold deleteNamed
  split
  next => exact h
  next => exact h.update (EdgeRow.unlinkFrom_id x) (EdgeRow.unlinkFrom_fromId x) (EdgeRow.unlinkFrom_kind x) fun _ _ => rfl

theorem definesExactly_writeRows {d : Diff} (hd : d.NamesNoContainer ids) :
    DefinesExactly ids (s.writeRows d).edges M := by
  apply writeRows_keeps (P := fun t => DefinesExactly ids t.edges M) h
  · exact fun t ht x hx => ht.erase_plain (hd.edgeDeleted x hx)
  · exact fun t ht x _ => definesExactly_deleteNamed ht d x
  · intro t ht n _
    rw [upsertNode_edges]
    exact ht
  · exact fun t ht e he => ht.put_plain ⟨(hd.edge e he).id_ne, (hd.edge e he).not_defines⟩

end Store

end GMesh
