import GMesh.ContainerRuns

namespace GMesh

open KeyedTable Option

variable {ids : ContainerIds} {s : Store} {d : Diff} {L : Ledger} (es : List EdgeRow) (ns : List NodeRecord)

namespace Store

def writtenTarget (s : Store) (d : Diff) (id : String) : Option TargetRow :=
  match d.lastRecord id with
  | some n => n.target.map (targetRow n)
  | none => if id ∈ d.deleteNodeIds then none else s.targets.find? id

theorem deleteNamed_targets (d : Diff) (s : Store) (id : String) :
    (s.deleteNamed d id).targets = s.targets.erase id := by
  unfold deleteNamed
  split <;> rfl

theorem upsertNode_targets_find? (s : Store) (n : NodeRecord) (x : String) :
    (s.upsertNode n).targets.find? x = if x = n.id then n.target.map (targetRow n) else s.targets.find? x := by
  show ((replaceTarget _ n).targets).find? x = _
  unfold replaceTarget
  split
  next ht =>
    rw [find?_erase, ht]
    rfl
  next t ht =>
    show ((s.targets.erase n.id).put (targetRow n t)).find? x = _
    rw [find?_put, find?_erase, ht]
    have hid : (targetRow n t).nodeId = n.id := rfl
    rw [hid]
    by_cases hx : x = n.id
    · simp [hx]
    · simp [hx, Ne.symm hx]

theorem foldl_upsertNode_targets (s : Store) (x : String) :
    (ns.foldl upsertNode s).targets.find? x =
      match lastWhere (fun n : NodeRecord => decide (n.id = x)) ns with
      | some n => n.target.map (targetRow n)
      | none => s.targets.find? x := by
  induction ns generalizing s with
  | nil => rfl
  | cons n ns ih =>
    rw [List.foldl_cons, ih, lastWhere_cons]
    cases lastWhere (fun n : NodeRecord => decide (n.id = x)) ns with
    | some m => rfl
    | none =>
      rw [upsertNode_targets_find?]
      by_cases hx : x = n.id
      · simp [hx]
      · simp [hx, Ne.symm hx]

theorem foldl_deleteNamed_targets (d : Diff) (xs : List String) (s : Store) :
    (xs.foldl (deleteNamed d) s).targets = xs.foldl KeyedTable.erase s.targets :=
  (List.foldl_hom (fun t : Store => t.targets) fun t x => (deleteNamed_targets d t x).symm).symm

theorem foldl_deleteEdge_targets (xs : List String) (s : Store) : (xs.foldl deleteEdge s).targets = s.targets :=
  List.foldlRecOn (motive := fun t : Store => t.targets = s.targets) xs deleteEdge rfl (fun _ ht _ _ => ht)

theorem foldl_upsertEdge_targets (s : Store) : (es.foldl upsertEdge s).targets = s.targets :=
  List.foldlRecOn (motive := fun t : Store => t.targets = s.targets) es upsertEdge rfl (fun _ ht _ _ => ht)

theorem writeRows_targets (s : Store) (d : Diff) (x : String) :
    (s.writeRows d).targets.find? x = s.writtenTarget d x := by
  unfold writeRows writtenTarget
  rw [foldl_upsertEdge_targets, foldl_upsertNode_targets, foldl_deleteNamed_targets,
    find?_foldl_erase, foldl_deleteEdge_targets]
  rfl

variable {x : String} (hx : ∀ k, x ≠ ids.containerId k)

include hx

theorem attach_targets (s : Store) (p : Pending) : (s.attach ids p).targets.find? x = s.targets.find? x := by
  refine attach_keeps (P := fun t : Store => t.targets.find? x = s.targets.find? x) rfl (fun _ ht _ => ht)
    (fun _ ht _ => ht) (fun t ht k => ?_) p
  show (t.targets.erase (ids.containerId k)).find? x = _
  rw [find?_erase, if_neg (hx k), ht]

theorem applyDiff_targets (s : Store) (d : Diff) : (s.applyDiff ids d).targets.find? x = s.writtenTarget d x := by
  have hdetached : (s.detach ids d).1.targets = s.targets :=
    detach_keeps (P := fun t : Store => t.targets = s.targets) rfl fun _ ht _ _ => ht
  rw [applyDiff_eq, attach_targets hx, writeRows_targets]
  unfold writtenTarget
  rw [hdetached]

omit hx in
theorem applyDiff_keeps {P : Store → Prop} (hs : P s) (hedge : ∀ t, P t → ∀ x, P (t.deleteEdge x))
    (hdelete : ∀ t, P t → ∀ x ∈ d.deleteNodeIds, P (t.deleteNamed d x))
    (hnode : ∀ t, P t → ∀ n ∈ d.upsertNodes, P (t.upsertNode n))
    (hupsert : ∀ t, P t → ∀ e ∈ d.upsertEdges, P (t.upsertEdge e)) (hmember : ∀ t, P t → ∀ m, P (t.attachMember ids m))
    (hrows : ∀ t, P t → ∀ rows, P { t with containers := rows })
    (hcontainer : ∀ t, P t → ∀ k, P (t.deleteContainer (ids.containerId k))) : P (s.applyDiff ids d) := by
  have hdetached : P (s.detach ids d).1 := detach_keeps hs fun t ht _ _ => hedge t ht _
  have hwritten := writeRows_keeps hdetached (fun t ht x _ => hedge t ht x) hdelete hnode hupsert
  rw [applyDiff_eq]
  exact attach_keeps hwritten hmember hrows hcontainer _

theorem applyDiff_node_plain (s : Store) (d : Diff) :
    (s.applyDiff ids d).nodes.find? x = ((d.lastRecord x).map NodeRecord.toNodeRow).or
      (if x ∈ d.deleteNodeIds then none else s.nodes.find? x) := by
  rw [applyDiff_eq, ← (detach_frame ids s d).1, ← writeRows_find?]
  refine attach_keeps (P := fun t : Store => t.nodes.find? x = ((s.detach ids d).1.writeRows d).nodes.find? x) rfl
    (fun t ht m => ?_) (fun _ ht _ => ht) (fun t ht k => ?_) _
  · show (t.nodes.insertIgnore (containerNode ids m.2)).find? x = _
    rw [find?_insertIgnore, if_neg, ht]
    exact fun h => hx m.2 h.1.symm
  · show (t.nodes.erase (ids.containerId k)).find? x = _
    rw [find?_erase, if_neg (hx k), ht]

end Store

namespace EdgeRow

theorem unlinkFrom_unlinked {e : EdgeRow} (h : e.linkedFrom = none) (id : String) : e.unlinkFrom id = e := by
  unfold unlinkFrom
  rw [h]

end EdgeRow

namespace Diff

def release (d : Diff) (e : EdgeRow) (id : String) : EdgeRow :=
  if id ∈ d.upsertNodes.map (·.id) then e else e.unlinkFrom id

def released (d : Diff) (e : EdgeRow) : EdgeRow := d.deleteNodeIds.foldl d.release e

theorem released_unlinked {e : EdgeRow} (h : e.linkedFrom = none) (d : Diff) : d.released e = e :=
  List.foldlRecOn (motive := fun r : EdgeRow => r = e) d.deleteNodeIds d.release rfl fun r hr id _ => by
    rw [hr]
    unfold release
    split
    next => rfl
    next => exact EdgeRow.unlinkFrom_unlinked h id

theorem released_frame (d : Diff) (e : EdgeRow) :
    (d.released e).id = e.id ∧ (d.released e).fromId = e.fromId ∧ (d.released e).kind = e.kind := by
  apply List.foldlRecOn (motive := fun r : EdgeRow => r.id = e.id ∧ r.fromId = e.fromId ∧ r.kind = e.kind)
  · exact ⟨rfl, rfl, rfl⟩
  · rintro r ⟨hid, hf, hk⟩ id _
    unfold release
    split
    next => exact ⟨hid, hf, hk⟩
    next =>
      exact ⟨(EdgeRow.unlinkFrom_id id r).trans hid, (EdgeRow.unlinkFrom_fromId id r).trans hf,
        (EdgeRow.unlinkFrom_kind id r).trans hk⟩

end Diff

namespace Store

theorem deleteNamed_edges_find? (d : Diff) (s : Store) (id x : String) :
    (s.deleteNamed d id).edges.find? x = (s.edges.find? x).map (fun e => d.release e id) := by
  unfold deleteNamed Diff.release
  split
  next => simp [deleteNode]
  next =>
    show (s.edges.update (EdgeRow.unlinkFrom id) (EdgeRow.unlinkFrom_id id)).find? x = _
    rw [find?_update]

theorem foldl_deleteNamed_edges (d : Diff) (xs : List String) (s : Store) (x : String) :
    (xs.foldl (deleteNamed d) s).edges.find? x = (s.edges.find? x).map (fun e => xs.foldl d.release e) := by
  induction xs generalizing s with
  | nil => simp
  | cons _ _ ih =>
    rw [List.foldl_cons, ih, deleteNamed_edges_find?, map_map]
    rfl

theorem foldl_deleteEdge_edges (xs : List String) (s : Store) :
    (xs.foldl deleteEdge s).edges = xs.foldl KeyedTable.erase s.edges :=
  (List.foldl_hom (fun t : Store => t.edges) fun _ _ => rfl).symm

theorem foldl_upsertNode_edges (s : Store) : (ns.foldl upsertNode s).edges = s.edges :=
  List.foldlRecOn (motive := fun t : Store => t.edges = s.edges) ns upsertNode rfl fun t ht n _ => by
    rw [upsertNode_edges, ht]

def upsertedEdge (x : String) (stored : Option EdgeRow) : Option EdgeRow :=
  es.foldl (fun row e => if e.id = x then
    some { e with linkedFrom := none, specifier := e.specifier.or (row.bind (·.specifier)) } else row) stored

theorem foldl_upsertEdge_find? (s : Store) (x : String) :
    (es.foldl upsertEdge s).edges.find? x = upsertedEdge es x (s.edges.find? x) := by
  induction es generalizing s with
  | nil => rfl
  | cons _ _ ih =>
    rw [List.foldl_cons, ih]
    simp only [upsertedEdge, List.foldl_cons]
    unfold upsertEdge
    rw [find?_put]
    split
    next hid => rw [hid]
    next => rfl

theorem writeRows_edge_find? (s : Store) (d : Diff) (x : String) :
    (s.writeRows d).edges.find? x = upsertedEdge d.upsertEdges x
      (if x ∈ d.deleteEdgeIds then none else (s.edges.find? x).map d.released) := by
  unfold writeRows
  rw [foldl_upsertEdge_find?, foldl_upsertNode_edges, foldl_deleteNamed_edges, foldl_deleteEdge_edges,
    find?_foldl_erase]
  split
  next => rfl
  next => rfl

theorem upsertedEdge_other {es : List EdgeRow} {x : String} (hx : x ∉ es.map (·.id)) (stored : Option EdgeRow) :
    upsertedEdge es x stored = stored := by
  refine List.foldlRecOn (motive := fun row => row = stored) es _ rfl fun row hrow e he => ?_
  rw [if_neg, hrow]
  exact fun hid => hx (hid ▸ List.mem_map_of_mem he)

theorem upsertedEdge_sent {es : List EdgeRow} (hn : (es.map (·.id)).Nodup) {e : EdgeRow} (he : e ∈ es)
    (stored : Option EdgeRow) : upsertedEdge es e.id stored =
      some { e with linkedFrom := none, specifier := e.specifier.or (stored.bind (·.specifier)) } := by
  induction es generalizing stored with
  | nil => simp at he
  | cons f _ ih =>
    obtain ⟨hf, hn⟩ := List.nodup_cons.mp hn
    rcases List.mem_cons.mp he with rfl | he
    · have hrest := upsertedEdge_other hf
        (some { e with linkedFrom := none, specifier := e.specifier.or (stored.bind (·.specifier)) })
      simpa [upsertedEdge] using hrest
    · have hne : f.id ≠ e.id := fun hid => hf (List.mem_map.mpr ⟨e, he, hid.symm⟩)
      have hrest := ih hn he stored
      simpa [upsertedEdge, hne] using hrest

theorem writeRows_edge_other {x : String} (hx : x ∉ d.upsertEdges.map (·.id)) (s : Store) :
    (s.writeRows d).edges.find? x =
      if x ∈ d.deleteEdgeIds then none else (s.edges.find? x).map d.released := by
  rw [writeRows_edge_find?, upsertedEdge_other hx]

section Edges

variable {x : String}

section

variable (hx : ∀ k i, x ≠ ids.definesEdgeId (ids.containerId k) i)

include hx

theorem detach_edge (s : Store) (d : Diff) : (s.detach ids d).1.edges.find? x = s.edges.find? x := by
  refine detach_keeps (P := fun t : Store => t.edges.find? x = s.edges.find? x) rfl fun t ht k i => ?_
  show (t.edges.erase _).find? x = _
  rw [find?_erase, if_neg (hx k i), ht]

theorem attachMember_edge (s : Store) (m : String × ContainerKey) :
    (s.attachMember ids m).edges.find? x = s.edges.find? x := by
  show (s.edges.insertIgnore (definesEdge ids m.2 m.1)).find? x = _
  rw [find?_insertIgnore, if_neg]
  exact fun h => hx m.2 m.1 h.1.symm

end

variable {e : EdgeRow} {s : Store}

theorem deleteContainer_edge_of_some {c : String} (h : (s.deleteContainer c).edges.find? x = some e) :
    s.edges.find? x = some e := by
  have hf : ((s.edges.filter (fun e => decide (e.fromId ≠ c))).filter
    (fun e => decide (e.toId ≠ c))).find? x = some e := h
  rw [find?_filter, find?_filter, filter_eq_some_iff, filter_eq_some_iff] at hf
  exact hf.1.1

variable {M : ContainerKey → String → Prop}

section

variable (ht : ∀ k, e.toId = ids.containerId k → ∃ i, M k i)

include ht

theorem recount_edge_keeps (hM : DefinesExactly ids s.edges M) (hf : ∀ k, e.fromId ≠ ids.containerId k)
    (h : s.edges.find? x = some e) (k : ContainerKey) : (s.recount ids k).edges.find? x = some e := by
  unfold recount
  dsimp only
  split
  next hz =>
    show ((s.edges.filter _).filter _).find? x = some e
    rw [find?_filter, find?_filter, h]
    have hto : e.toId ≠ ids.containerId k := by
      intro he
      obtain ⟨i, hi⟩ := ht k he
      exact (definesCount_eq_zero_iff hM k).mp hz i hi
    simp [hf k, hto]
  next => exact h

theorem foldl_recount_edge_keeps (hp : PlainMembers ids M) (hf : ∀ k, e.fromId ≠ ids.containerId k)
    (ks : List ContainerKey) (hM : DefinesExactly ids s.edges M) (h : s.edges.find? x = some e) :
    (ks.foldl (recount ids) s).edges.find? x = some e :=
  (List.foldlRecOn (motive := fun t : Store => DefinesExactly ids t.edges M ∧ t.edges.find? x = some e) ks (recount ids)
    ⟨hM, h⟩ fun _ ht' k _ => ⟨definesExactly_recount ht'.1 hp k, recount_edge_keeps ht ht'.1 hf ht'.2 k⟩).2

end

/-- An edge between a plugin's node and another one or a container with members. -/
def Anchored (ids : ContainerIds) (L : Ledger) (e : EdgeRow) : Prop :=
  (∀ k, e.fromId ≠ ids.containerId k) ∧ ∀ k, e.toId = ids.containerId k → L.Occupied k

section

variable (hx : ∀ k i, x ≠ ids.definesEdgeId (ids.containerId k) i)

include hx

theorem applyDiff_edge_written (h : (s.applyDiff ids d).edges.find? x = some e) :
    ((s.detach ids d).1.writeRows d).edges.find? x = some e := by
  rw [applyDiff_eq] at h
  revert h
  refine attach_keeps (P := fun t : Store => t.edges.find? x = some e →
    ((s.detach ids d).1.writeRows d).edges.find? x = some e) id (fun t ht m h => ?_) (fun _ ht _ => ht)
    (fun t ht k h => ?_) _
  · rw [attachMember_edge hx] at h
    exact ht h
  · exact ht (deleteContainer_edge_of_some h)

theorem applyDiff_edge_keeps (h : Shows ids s L) (hd : d.NamesNoContainer ids) (ha : Anchored ids (L.write d) e)
    (hw : ((s.detach ids d).1.writeRows d).edges.find? x = some e) : (s.applyDiff ids d).edges.find? x = some e := by
  have hdet := detach_spec (d := d) h
  have hatt := attached_of_detached h hd hdet
  rw [applyDiff_eq]
  refine foldl_recount_edge_keeps ha.2 (Ledger.plainMembers (Ledger.write_unnamed hd h.unnamed)) ha.1 _ hatt.edges ?_
  rw [applyParents_toGraph]
  exact List.foldlRecOn (motive := fun t : Store => t.edges.find? x = some e) _ (attachMember ids) hw
    fun t ht m _ => (attachMember_edge hx t m).trans ht

end

theorem applyDiff_edge_sent (h : Shows ids s L) (hd : d.NamesNoContainer ids)
    (hn : (d.upsertEdges.map (·.id)).Nodup) (he : e ∈ d.upsertEdges) (ha : Anchored ids (L.write d) e) :
    ∃ specifier, (s.applyDiff ids d).edges.find? e.id = some { e with linkedFrom := none, specifier } := by
  have hw := writeRows_edge_find? (s.detach ids d).1 d e.id
  rw [upsertedEdge_sent hn he] at hw
  exact ⟨_, applyDiff_edge_keeps (hd.edge e he).id_ne h hd ha hw⟩

theorem applyDiff_edge_kept (h : Shows ids s L) (hd : d.NamesNoContainer ids)
    (hx : ∀ k i, x ≠ ids.definesEdgeId (ids.containerId k) i) (hu : x ∉ d.upsertEdges.map (·.id))
    (hdel : x ∉ d.deleteEdgeIds) (he : s.edges.find? x = some e) (ha : Anchored ids (L.write d) (d.released e)) :
    (s.applyDiff ids d).edges.find? x = some (d.released e) := by
  refine applyDiff_edge_keeps hx h hd ha ?_
  rw [writeRows_edge_other hu, if_neg hdel, detach_edge hx, he]
  rfl

variable (hx : ∀ k i, x ≠ ids.definesEdgeId (ids.containerId k) i)

include hx

theorem applyDiff_edge_of_some (hu : x ∉ d.upsertEdges.map (·.id)) {r : EdgeRow}
    (h : (s.applyDiff ids d).edges.find? x = some r) :
    x ∉ d.deleteEdgeIds ∧ ∃ e, s.edges.find? x = some e ∧ d.released e = r := by
  have hw := applyDiff_edge_written hx h
  rw [writeRows_edge_other hu, detach_edge hx] at hw
  split at hw
  next => cases hw
  next hdel => exact ⟨hdel, map_eq_some_iff.mp hw⟩

def PlainEnds (ids : ContainerIds) (e : EdgeRow) : Prop :=
  (∀ k, e.fromId ≠ ids.containerId k) ∧ ∀ k, e.toId ≠ ids.containerId k

theorem applyDiff_edge_plain (hends : ∀ e, (s.writeRows d).edges.find? x = some e → PlainEnds ids e) :
    (s.applyDiff ids d).edges.find? x = (s.writeRows d).edges.find? x := by
  have hwritten : ((s.detach ids d).1.writeRows d).edges.find? x = (s.writeRows d).edges.find? x := by
    rw [writeRows_edge_find?, writeRows_edge_find?, detach_edge hx]
  cases hrow : (s.writeRows d).edges.find? x with
  | none =>
    rw [eq_none_iff_forall_ne_some]
    intro e he
    rw [applyDiff_edge_written hx he] at hwritten
    cases hwritten.trans hrow
  | some e =>
    rw [applyDiff_eq]
    refine attach_keeps (P := fun t : Store => t.edges.find? x = some e) (hwritten.trans hrow)
      (fun t ht m => (attachMember_edge hx t m).trans ht) (fun _ ht _ => ht) (fun t ht k => ?_) _
    show ((t.edges.filter _).filter _).find? x = some e
    rw [find?_filter, find?_filter, ht]
    simp [(hends e hrow).1 k, (hends e hrow).2 k]

end Edges

end Store

end GMesh
