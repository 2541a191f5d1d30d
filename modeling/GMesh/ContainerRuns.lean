import GMesh.AttachSpec
import GMesh.TaggedIds

namespace GMesh

open KeyedTable Store Diff Ledger Option

variable {ids : ContainerIds} {s : Store} {d : Diff} {L : Ledger} {k : ContainerKey}

theorem Diff.NamesNoContainer.lastRecord_eq_none (hd : d.NamesNoContainer ids) (k : ContainerKey) :
    d.lastRecord (ids.containerId k) = none := by
  rw [lastRecord_eq_none_iff, List.mem_map]
  rintro ⟨n, hn, hid⟩
  exact hd.upserted n hn k hid

namespace Store

theorem inForce_eq_none_iff {ps : List (ContainerKey × Option String)} : inForce ps k = none ↔ k ∉ ps.map Prod.fst := by
  unfold inForce
  rw [map_eq_none_iff, lastWhere_eq_none_iff, List.mem_map]
  simp only [decide_eq_false_iff_not, not_exists, not_and]

theorem setParent_eq (ps : List (ContainerKey × Option String)) (c : ContainerRow) :
    setParent ps c = { c with parentKey := (inForce ps c.ofKey).getD c.parentKey } := by
  unfold setParent
  cases inForce ps c.ofKey <;> rfl

theorem writeRows_find?_container (hd : d.NamesNoContainer ids) (s : Store) (k : ContainerKey) :
    (s.writeRows d).nodes.find? (ids.containerId k) = s.nodes.find? (ids.containerId k) := by
  have hx : ids.containerId k ∉ d.deleteNodeIds := fun hx => hd.deleted _ hx k rfl
  rw [writeRows_find?, hd.lastRecord_eq_none k, if_neg hx]
  rfl

end Store

theorem Ledger.write_unnamed (hd : d.NamesNoContainer ids) (h : ∀ k, L.node (ids.containerId k) = none)
    (k : ContainerKey) : (L.write d).node (ids.containerId k) = none := by
  unfold write
  simp [hd.lastRecord_eq_none k, h k]

theorem Ledger.plainMembers (h : ∀ k, L.node (ids.containerId k) = none) :
    Store.PlainMembers ids (fun k i => L.memberOf i = some k) := by
  rintro k i hi k' rfl
  unfold memberOf at hi
  rw [h k'] at hi
  simp at hi

/-- The store right before the recount: members' edges and their containers are in place. -/
structure Attached (ids : ContainerIds) (s : Store) (d : Diff) (L : Ledger) (t : Store) : Prop where
  plain : ∀ x, (∀ k, x ≠ ids.containerId k) → t.nodes.find? x = (L.write d).node x
  row_plain : ∀ x, (∀ k, x ≠ ids.containerId k) → t.containers.find? x = none
  edges : DefinesExactly ids t.edges (fun k i => (L.write d).memberOf i = some k)
  node : ∀ k, t.nodes.find? (ids.containerId k) = (s.nodes.find? (ids.containerId k)).or
    (if k ∈ d.finalMembers.map Prod.snd then some (containerNode ids k) else none)
  row : ∀ k, t.containers.find? (ids.containerId k) = ((s.containers.find? (ids.containerId k)).or
    (if k ∈ d.finalMembers.map Prod.snd then some (freshRow ids k) else none)).map
      (setParent d.memberParents)

variable {t : Store}

/-- With its rows written, `attach` puts every member under its container. -/
theorem attached_of_detached (h : Shows ids s L) (hd : d.NamesNoContainer ids) {p : Pending}
    (ht : Store.Detached ids s d L t p) :
    Attached ids s d L ((p.members.foldl (attachMember ids) (t.writeRows d)).applyParents p.parents) := by
  rw [ht.members, ht.parents]
  refine ⟨?_, ?_, ?_, ?_, ?_⟩
  · intro x hx
    rw [applyParents_toGraph, foldl_attachMember_nodes, find?_foldl_insertIgnore,
      find?_map_plain (containerNode ids) NodeRow.id (fun _ => rfl) _ hx, or_none, writeRows_find?, ht.nodes, h.plain x hx]
    rfl
  · intro x hx
    rw [applyParents_find?, foldl_attachMember_containers, find?_foldl_insertIgnore,
      find?_map_plain (freshRow ids) ContainerRow.nodeId (fun _ => rfl) _ hx, or_none, writeRows_containers, ht.containers,
      h.row_plain x hx]
    rfl
  · rw [applyParents_toGraph]
    refine (foldl_attachMember_edges _ (definesExactly_writeRows ht.edges hd)).congr fun k i => ?_
    rw [mem_finalMembers]
    exact joined_iff h
  · intro k
    rw [applyParents_toGraph, foldl_attachMember_nodes, find?_foldl_insertIgnore,
      find?_map_containerId (containerNode ids) NodeRow.id (fun _ => rfl), writeRows_find?_container hd, ht.nodes]
  · intro k
    rw [applyParents_find?, foldl_attachMember_containers, find?_foldl_insertIgnore,
      find?_map_containerId (freshRow ids) ContainerRow.nodeId (fun _ => rfl), writeRows_containers, ht.containers]

theorem Diff.mem_joined : k ∈ d.finalMembers.map Prod.snd ↔ ∃ i, d.finalMembership i = some k := by
  rw [List.mem_map]
  constructor
  · rintro ⟨⟨i, k'⟩, hm, rfl⟩
    exact ⟨i, mem_finalMembers.mp hm⟩
  · rintro ⟨i, hi⟩
    exact ⟨(i, k), mem_finalMembers.mpr hi, rfl⟩

theorem occupied_before_or_joined (ho : (L.write d).Occupied k) : L.Occupied k ∨ k ∈ d.finalMembers.map Prod.snd := by
  obtain ⟨i, hi⟩ := ho
  rcases write_memberOf_iff.mp hi with hf | ⟨_, hm⟩
  · exact .inr (mem_joined.mpr ⟨i, hf⟩)
  · exact .inl ⟨i, hm⟩

theorem joined_parent (hj : k ∈ d.finalMembers.map Prod.snd) : k ∈ d.memberParents.map Prod.fst := by
  obtain ⟨i, hi⟩ := mem_joined.mp hj
  exact finalMembership_parent hi

namespace Attached

variable (ht : Attached ids s d L t)

include ht

theorem node_some (h : Shows ids s L) (ho : (L.write d).Occupied k) :
    t.nodes.find? (ids.containerId k) = some (containerNode ids k) := by
  rw [ht.node]
  by_cases hk : L.Occupied k
  · rw [h.node_some k hk]
    rfl
  · have hj := (occupied_before_or_joined ho).resolve_left hk
    rw [h.node_none k hk, if_pos hj]
    rfl

theorem row_some (h : Shows ids s L) (ho : (L.write d).Occupied k) :
    ∃ c, t.containers.find? (ids.containerId k) = some c ∧
      c = { containerRow ids (L.write d) t k with memberCount := c.memberCount } := by
  rw [ht.row]
  by_cases hk : L.Occupied k
  · rw [h.row_some k hk]
    refine ⟨_, rfl, ?_⟩
    rw [setParent_eq]
    rfl
  · have hj := (occupied_before_or_joined ho).resolve_left hk
    have hp := joined_parent hj
    rw [h.row_none k hk, if_pos hj]
    refine ⟨_, rfl, ?_⟩
    rw [setParent_eq]
    cases hf : inForce d.memberParents k with
    | none => exact absurd hp (inForce_eq_none_iff.mp hf)
    | some parent => simp [freshRow, containerRow, write, ContainerRow.ofKey, hf]

theorem node_untouched (hp : k ∉ d.memberParents.map Prod.fst) :
    t.nodes.find? (ids.containerId k) = s.nodes.find? (ids.containerId k) := by
  rw [ht.node, if_neg (mt joined_parent hp), or_none]

theorem row_untouched (h : Shows ids s L) (hp : k ∉ d.memberParents.map Prod.fst) :
    t.containers.find? (ids.containerId k) = s.containers.find? (ids.containerId k) := by
  rw [ht.row, if_neg (mt joined_parent hp), or_none]
  by_cases hk : L.Occupied k
  · have hf : inForce d.memberParents (containerRow ids L s k).ofKey = none :=
      inForce_eq_none_iff.mpr hp
    rw [h.row_some k hk, map_some, setParent_eq, hf]
    rfl
  · rw [h.row_none k hk]
    rfl

end Attached

theorem Ledger.write_parent_untouched (hp : k ∉ d.memberParents.map Prod.fst) : (L.write d).parent k = L.parent k := by
  have hf := inForce_eq_none_iff.mpr hp
  unfold write
  simp [hf]

/-- Recounting the touched containers brings the tables in line with the ledger again. -/
theorem shows_of_attached (h : Shows ids s L) (hd : d.NamesNoContainer ids) (ht : Attached ids s d L t)
    {touched : List ContainerKey}
    (htouched : ∀ k, k ∈ touched ↔ (∃ i, s.Drops d k i) ∨ k ∈ d.memberParents.map Prod.fst) :
    Shows ids (touched.foldl (recount ids) t) (L.write d) := by
  have hun := write_unnamed hd h.unnamed
  have hpm := plainMembers hun
  have he := List.foldlRecOn (motive := fun t : Store => DefinesExactly ids t.edges _) touched (recount ids) ht.edges
    fun _ h k _ => definesExactly_recount h hpm k
  have hmem := fun k (hk : k ∈ touched) => foldl_recount_mem hpm touched t ht.edges hk
  have hocc : ∀ k, t.definesCount (ids.containerId k) = 0 ↔ ¬ (L.write d).Occupied k := by
    intro k
    rw [definesCount_eq_zero_iff ht.edges, Ledger.Occupied, not_exists]
  have hsame : ∀ k, k ∉ touched → ((L.write d).Occupied k ↔ L.Occupied k) := by
    intro k hk
    rw [htouched, not_or] at hk
    exact exists_congr (untouched_iff h hk.1 hk.2)
  have hother : ∀ k, k ∉ touched → ∀ j ∈ touched, ids.containerId k ≠ ids.containerId j := by
    intro k hk j hj hid
    exact hk (ids.containerId_injective hid ▸ hj)
  refine ⟨?_, hun, he, ?_, ?_, ?_, ?_, ?_⟩
  · intro x hx
    rw [(foldl_recount_other touched t (fun k _ => hx k)).1, ht.plain x hx]
  · intro k hk
    by_cases hkt : k ∈ touched
    · rw [(hmem k hkt).1, recount_nodes_find?, if_neg fun hz => (hocc k).mp hz.2 hk, ht.node_some h hk]
    · rw [(foldl_recount_other touched t (hother k hkt)).1]
      exact ht.node_some h hk
  · intro k hk
    by_cases hkt : k ∈ touched
    · rw [(hmem k hkt).1, recount_nodes_find?, if_pos ⟨rfl, (hocc k).mpr hk⟩]
    · have hp := (not_or.mp ((htouched k).not.mp hkt)).2
      rw [(foldl_recount_other touched t (hother k hkt)).1, ht.node_untouched hp]
      exact h.node_none k ((hsame k hkt).not.mp hk)
  · intro k hk
    have hc := definesCount_eq (k := k) he ht.edges (fun _ => Iff.rfl)
    by_cases hkt : k ∈ touched
    · obtain ⟨c, hf, hrow⟩ := ht.row_some h hk
      rw [(hmem k hkt).2, recount_containers_find?, if_pos rfl, if_neg ((hocc k).not_left.mpr hk), hf, map_some, hrow]
      unfold containerRow
      rw [hc]
    · have hut := not_or.mp ((htouched k).not.mp hkt)
      have hcount := definesCount_eq h.edges he fun i => (untouched_iff h hut.1 hut.2 i).symm
      rw [(foldl_recount_other touched t (hother k hkt)).2, ht.row_untouched h hut.2,
        h.row_some k ((hsame k hkt).mp hk)]
      unfold containerRow
      rw [hcount, write_parent_untouched hut.2]
  · intro k hk
    by_cases hkt : k ∈ touched
    · rw [(hmem k hkt).2, recount_containers_find?, if_pos rfl, if_pos ((hocc k).mpr hk)]
    · have hp := (not_or.mp ((htouched k).not.mp hkt)).2
      rw [(foldl_recount_other touched t (hother k hkt)).2, ht.row_untouched h hp]
      exact h.row_none k ((hsame k hkt).not.mp hk)
  · intro x hx
    rw [(foldl_recount_other touched t (fun k _ => hx k)).2, ht.row_plain x hx]

theorem applyDiff_shows (h : Shows ids s L) (hd : d.NamesNoContainer ids) :
    Shows ids (s.applyDiff ids d) (L.write d) := by
  rw [applyDiff_eq]
  have hdet := detach_spec (d := d) h
  exact shows_of_attached h hd (attached_of_detached h hd hdet) hdet.touched

open List

inductive StoreCall
  | diff (d : Diff)
  | semantic (d : Diff)

def StoreCall.sent : StoreCall → Diff
  | .diff d => d
  | .semantic d => d

namespace Store

def call (ids : ContainerIds) (s : Store) : StoreCall → Store
  | .diff d => s.applyDiff ids d
  | .semantic d => s.applySemanticDiff ids d

def run (ids : ContainerIds) (calls : List StoreCall) : Store := calls.foldl (call ids) {}

theorem foldl_replaceUntypedCalls_frame (ns : List NodeRecord) (s : Store) :
    (ns.foldl replaceUntypedCalls s).toGraph = s.toGraph ∧
      (ns.foldl replaceUntypedCalls s).containers = s.containers := by
  apply List.foldlRecOn (motive := fun t : Store => t.toGraph = s.toGraph ∧ t.containers = s.containers)
  · exact ⟨rfl, rfl⟩
  · exact fun t ht n _ => ht

end Store

section

variable (h : Shows ids s L)

include h

theorem Shows.of_edges {t : Store} (hn : t.nodes = s.nodes) (hc : t.containers = s.containers)
    (he : DefinesExactly ids t.edges (fun k i => L.memberOf i = some k)) : Shows ids t L where
  plain := hn ▸ h.plain
  unnamed := h.unnamed
  edges := he
  node_some := hn ▸ h.node_some
  node_none := hn ▸ h.node_none
  row_some k hk := by
    have hcount := definesCount_eq (k := k) he h.edges fun _ => Iff.rfl
    rw [hc, h.row_some k hk]
    unfold containerRow
    rw [hcount]
  row_none := hc ▸ h.row_none
  row_plain := hc ▸ h.row_plain

omit h in
theorem Diff.NamesNoContainer.insertedPart (hd : d.NamesNoContainer ids) (s : Store) :
    (s.insertedPart d).NamesNoContainer ids where
  upserted n hn := hd.upserted n (mem_of_mem_filter hn)
  deleted := hd.deleted
  edge := hd.edge
  edgeDeleted := hd.edgeDeleted

theorem applySemanticDiff_shows (hd : d.NamesNoContainer ids) :
    Shows ids (s.applySemanticDiff ids d) (L.write (s.insertedPart d)) := by
  rw [Store.applySemanticDiff_eq]
  have hw := applyDiff_shows h (hd.insertedPart s)
  have hf := Store.foldl_replaceUntypedCalls_frame (d.upsertNodes.filter (s.keeps d))
    (s.applyDiff ids (s.insertedPart d))
  exact hw.of_edges (by rw [hf.1]) hf.2 (hf.1 ▸ hw.edges)

theorem call_shows {c : StoreCall} (hc : c.sent.NamesNoContainer ids) : ∃ L', Shows ids (s.call ids c) L' := by
  cases c with
  | diff d => exact ⟨_, applyDiff_shows h hc⟩
  | semantic d => exact ⟨_, applySemanticDiff_shows h hc⟩

end

theorem run_shows {calls : List StoreCall} (hc : ∀ c ∈ calls, c.sent.NamesNoContainer ids) :
    ∃ L, Shows ids (Store.run ids calls) L := by
  apply List.foldlRecOn (motive := fun s : Store => ∃ L, Shows ids s L)
  · exact ⟨_, Shows.empty ids⟩
  · rintro s ⟨L, h⟩ c hcm
    exact call_shows h (hc c hcm)

def NodeRow.declaredIn (k : ContainerKey) (n : NodeRow) : Bool :=
  (n.nativeKind.all fun kind => decide (kind ∉ nonDeclarationNativeKinds)) && decide (n.language = k.1)
    && decide (n.container = some k.2)

theorem NodeRow.declaredIn_iff (hk : k.2 ≠ "") {n : NodeRow} : n.declaredIn k ↔ n.membership = some k := by
  obtain ⟨language, key⟩ := k
  unfold NodeRow.declaredIn NodeRow.membership GMesh.membership
  cases hc : n.container with
  | none => simp
  | some c =>
    cases hn : n.nativeKind with
    | none =>
      by_cases he : c = ""
      · subst he
        simpa using fun _ => Ne.symm hk
      · simp [he]
    | some kind =>
      by_cases he : c = ""
      · subst he
        simpa using fun _ _ => Ne.symm hk
      · by_cases hx : kind ∈ nonDeclarationNativeKinds
        · simp [he, hx]
        · simp [he, hx]

def Store.members (s : Store) (k : ContainerKey) : List NodeRow := s.nodes.rows.filter (NodeRow.declaredIn k)

namespace Shows

variable (h : Shows ids s L)

include h

theorem mem_members (hk : k.2 ≠ "") {i : String} : i ∈ (s.members k).map NodeRow.id ↔ L.memberOf i = some k := by
  rw [← h.memberOf, List.mem_map]
  constructor
  · rintro ⟨n, hn, rfl⟩
    obtain ⟨hm, hdecl⟩ := List.mem_filter.mp hn
    unfold Store.memberOf
    rw [find?_key hm]
    exact (NodeRow.declaredIn_iff hk).mp hdecl
  · intro hi
    obtain ⟨n, hn, hmem⟩ := Option.bind_eq_some_iff.mp hi
    obtain ⟨hm, rfl⟩ := find?_eq_some_iff.mp hn
    exact ⟨n, List.mem_filter.mpr ⟨hm, (NodeRow.declaredIn_iff hk).mpr hmem⟩, rfl⟩

theorem occupied_iff (hk : k.2 ≠ "") : L.Occupied k ↔ s.members k ≠ [] := by
  constructor
  · rintro ⟨i, hi⟩ hnil
    have hm := (h.mem_members hk).mpr hi
    rw [hnil] at hm
    exact nomatch hm
  · intro hne
    obtain ⟨n, hn⟩ := exists_mem_of_ne_nil _ hne
    exact ⟨n.id, (h.mem_members hk).mp (mem_map.mpr ⟨n, hn, rfl⟩)⟩

theorem row_of_mem {c : ContainerRow} (hc : c ∈ s.containers) :
    L.Occupied c.ofKey ∧ c = containerRow ids L s c.ofKey := by
  have hf := find?_key hc
  by_cases hid : ∃ k, c.nodeId = ids.containerId k
  · obtain ⟨k, hk⟩ := hid
    rw [hk] at hf
    by_cases ho : L.Occupied k
    · rw [h.row_some k ho] at hf
      have he := Option.some.inj hf
      have hck : c.ofKey = k := by rw [← he]; rfl
      rw [hck]
      exact ⟨ho, he.symm⟩
    · rw [h.row_none k ho] at hf
      cases hf
  · rw [h.row_plain c.nodeId fun k hk => hid ⟨k, hk⟩] at hf
    cases hf

theorem row_exists_iff : (∃ c ∈ s.containers, c.language = k.1 ∧ c.key = k.2) ↔ L.Occupied k := by
  constructor
  · rintro ⟨c, hc, hl, hk⟩
    have ho := (h.row_of_mem hc).1
    have hck : c.ofKey = k := Prod.ext hl hk
    rwa [hck] at ho
  · intro ho
    have hc := (find?_eq_some_iff.mp (h.row_some k ho)).1
    exact ⟨_, hc, rfl, rfl⟩

theorem node_exists_iff : s.nodes.contains (ids.containerId k) ↔ L.Occupied k := by
  unfold KeyedTable.contains
  by_cases ho : L.Occupied k
  · simp [h.node_some k ho, ho]
  · simp [h.node_none k ho, ho]

theorem edges_perm (hk : k.2 ≠ "") :
    (s.edges.rows.filter (fun e => decide (e.fromId = ids.containerId k ∧ e.kind = .defines))).Perm
      (((s.members k).map NodeRow.id).map (definesEdge ids k)) :=
  h.edges.counted_perm ((filter_sublist.map _).nodup s.nodes.nodup) fun _ => h.mem_members hk

theorem count_eq (hk : k.2 ≠ "") : s.definesCount (ids.containerId k) = (s.members k).length := by
  have hp := (h.edges_perm hk).length_eq
  rw [length_map, length_map] at hp
  exact hp

end Shows

/-- After diffs and semantic passes that leave containers to core, a container is stored while it has members, counts
them, and has one edge to each. -/
theorem container_bookkeeping_exact (ids : ContainerIds) (calls : List StoreCall)
    (hc : ∀ c ∈ calls, c.sent.NamesNoContainer ids) (language key : String) (hk : key ≠ "") :
    let s := Store.run ids calls
    ((∃ c ∈ s.containers, c.language = language ∧ c.key = key) ↔ s.members (language, key) ≠ []) ∧
    (s.nodes.contains (ids.containerId (language, key)) = true ↔ s.members (language, key) ≠ []) ∧
    (∀ c ∈ s.containers, c.language = language → c.key = key →
      c.nodeId = ids.containerId (language, key) ∧ c.memberCount = (s.members (language, key)).length) ∧
    ((s.edges.rows.filter (fun e => decide (e.fromId = ids.containerId (language, key) ∧ e.kind = .defines))).map
      EdgeRow.toId).Perm ((s.members (language, key)).map NodeRow.id) := by
  obtain ⟨L, h⟩ := run_shows hc
  have hk' : ((language, key) : ContainerKey).2 ≠ "" := hk
  refine ⟨?_, ?_, ?_, ?_⟩
  · exact h.row_exists_iff.trans (h.occupied_iff hk')
  · exact h.node_exists_iff.trans (h.occupied_iff hk')
  · intro c hcm hl hkey
    have hck : c.ofKey = (language, key) := Prod.ext hl hkey
    have hrow := (h.row_of_mem hcm).2
    rw [hck] at hrow
    rw [hrow]
    exact ⟨rfl, h.count_eq hk'⟩
  · have hp := (h.edges_perm hk').map EdgeRow.toId
    simpa [Function.comp_def, definesEdge] using hp

def movedMember : List StoreCall :=
  [.diff { upsertNodes := [{ id := "a", language := "go", container := some "p" },
    { id := "b", language := "go", container := some "p" }] },
   .diff { deleteNodeIds := ["a"], upsertNodes := [{ id := "a", language := "go", container := some "q" }] },
   .semantic { upsertNodes := [{ id := "b", language := "go", container := some "q" }] }]

theorem movedMember_names : ∀ c ∈ movedMember, c.sent.NamesNoContainer taggedIds := by
  have h1 : ∀ c ∈ movedMember, (∀ n ∈ c.sent.upsertNodes, n.id.toList.head? ≠ some 'c') ∧
      (∀ id ∈ c.sent.deleteNodeIds, id.toList.head? ≠ some 'c') ∧ c.sent.upsertEdges = [] ∧
      c.sent.deleteEdgeIds = [] := by decide
  intro c hc
  obtain ⟨hu, hx, he, hy⟩ := h1 c hc
  exact namesNoContainer_untagged hu hx (by simp [he]) (by simp [hy])

theorem container_bookkeeping_movedMember :
    (∃ c ∈ (Store.run taggedIds movedMember).containers, c.language = "go" ∧ c.key = "q") ∧
      (Store.run taggedIds movedMember).nodes.contains (taggedIds.containerId ("go", "p")) = true := by
  have hq := container_bookkeeping_exact taggedIds movedMember movedMember_names "go" "q" (by decide)
  have hp := container_bookkeeping_exact taggedIds movedMember movedMember_names "go" "p" (by decide)
  exact ⟨hq.1.mpr (by decide +kernel), hp.2.1.mpr (by decide +kernel)⟩

def emptyKeyCalls : List StoreCall :=
  [.diff { upsertNodes := [{ id := "a", language := "go", container := some "" }] }]

/-- A declaration sent with an empty container key is stored and has no container. -/
theorem container_bookkeeping_emptyKey :
    (∀ c ∈ emptyKeyCalls, c.sent.NamesNoContainer taggedIds) ∧
    (Store.run taggedIds emptyKeyCalls).members ("go", "") ≠ [] ∧
    ¬ (∃ c ∈ (Store.run taggedIds emptyKeyCalls).containers.rows, c.language = "go" ∧ c.key = "") := by
  refine ⟨?_, by decide +kernel, by decide +kernel⟩
  intro c hc
  rw [mem_singleton.mp hc]
  exact namesNoContainer_untagged (by decide) (by decide) (by decide) (by decide)

end GMesh
