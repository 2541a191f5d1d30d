import GMesh.RowWrites

namespace GMesh

open List

/-- What the container tables are kept for: the node under each id and each container's last parent. -/
@[ext] structure Ledger where
  node : String → Option NodeRow
  parent : ContainerKey → Option String

namespace Ledger

def empty : Ledger := ⟨fun _ => none, fun _ => none⟩

def memberOf (L : Ledger) (id : String) : Option ContainerKey := (L.node id).bind NodeRow.membership

def Occupied (L : Ledger) (k : ContainerKey) : Prop := ∃ id, L.memberOf id = some k

/-- A diff read as plain writes: deletes, then every record in turn. -/
def write (L : Ledger) (d : Diff) : Ledger where
  node id := ((d.lastRecord id).map NodeRecord.toNodeRow).or
    (if id ∈ d.deleteNodeIds then none else L.node id)
  parent k := (Store.inForce d.memberParents k).getD (L.parent k)

end Ledger

namespace Diff

variable {d : Diff} {id : String} {k : ContainerKey}

theorem mem_of_lastRecord {n : NodeRecord} (h : d.lastRecord id = some n) : n ∈ d.upsertNodes ∧ n.id = id := by
  obtain ⟨hm, hid⟩ := mem_of_lastWhere h
  exact ⟨hm, of_decide_eq_true hid⟩

theorem mem_namedIds : id ∈ d.namedIds ↔ id ∈ d.deleteNodeIds ∨ id ∈ d.upsertNodes.map (·.id) := by
  rw [← mem_append]
  constructor
  · exact mem_of_mem_keepFirst
  · intro h
    have hk : ∃ b ∈ d.namedIds, b = id := exists_mem_keepFirst h not_mem_nil
    obtain ⟨b, hb, rfl⟩ := hk
    exact hb

theorem lastRecord_eq_none_iff : d.lastRecord id = none ↔ id ∉ d.upsertNodes.map (·.id) := by
  unfold lastRecord
  rw [lastWhere_eq_none_iff, mem_map]
  simp only [decide_eq_false_iff_not, not_exists, not_and]

theorem finalMembership_parent (h : d.finalMembership id = some k) : k ∈ d.memberParents.map Prod.fst := by
  obtain ⟨n, hn, hk⟩ := Option.bind_eq_some_iff.mp h
  have hm := (mem_of_lastRecord hn).1
  have hp : (k, n.containerParent) ∈ d.memberParents :=
    mem_filterMap.mpr ⟨n, hm, by rw [hk]; rfl⟩
  exact mem_map.mpr ⟨_, hp, rfl⟩

theorem mem_finalMembers : (id, k) ∈ d.finalMembers ↔ d.finalMembership id = some k := by
  unfold finalMembers
  rw [mem_reverse, mem_filterMap]
  constructor
  · rintro ⟨n, _, hn⟩
    obtain ⟨key, hk, he⟩ := Option.map_eq_some_iff.mp hn
    obtain ⟨rfl, rfl⟩ := Prod.mk.inj he
    exact hk
  · intro h
    obtain ⟨n, hn, _⟩ := Option.bind_eq_some_iff.mp h
    obtain ⟨hm, hid⟩ := mem_of_lastRecord hn
    have hkept : ∃ m ∈ keepFirst (fun n : NodeRecord => n.id) [] d.upsertNodes.reverse, m.id = n.id :=
      exists_mem_keepFirst (mem_reverse.mpr hm) not_mem_nil
    obtain ⟨m, hmk, hmid⟩ := hkept
    have hmi : m.id = id := hmid.trans hid
    exact ⟨m, hmk, by rw [hmi, h]; rfl⟩

end Diff

namespace Ledger

variable {L : Ledger} {d : Diff} {id : String} {k : ContainerKey}

theorem write_memberOf_iff :
    (L.write d).memberOf id = some k ↔ d.finalMembership id = some k ∨ (id ∉ d.namedIds ∧ L.memberOf id = some k) := by
  have hnamed := not_iff_not.mpr (@Diff.lastRecord_eq_none_iff d id)
  rw [Diff.mem_namedIds]
  unfold memberOf write Diff.finalMembership
  cases hr : d.lastRecord id with
  | some n =>
    have hu : id ∈ d.upsertNodes.map (·.id) := not_not.mp (hnamed.mp (by simp [hr]))
    simp [hr, hu]
  | none =>
    have hu : id ∉ d.upsertNodes.map (·.id) := Diff.lastRecord_eq_none_iff.mp hr
    by_cases hdel : id ∈ d.deleteNodeIds
    · simp [hr, hdel]
    · simp only [hr, hu, hdel, Option.map_none, Option.none_or, if_false, or_false, not_false_eq_true,
        true_and, Option.bind_none, reduceCtorEq, false_or]

end Ledger

variable {ids : ContainerIds} {s : Store} {d : Diff} {L : Ledger}

def containerRow (ids : ContainerIds) (L : Ledger) (s : Store) (k : ContainerKey) : ContainerRow where
  nodeId := ids.containerId k
  language := k.1
  key := k.2
  parentKey := L.parent k
  memberCount := s.definesCount (ids.containerId k)

structure Shows (ids : ContainerIds) (s : Store) (L : Ledger) : Prop where
  plain : ∀ id, (∀ k, id ≠ ids.containerId k) → s.nodes.find? id = L.node id
  unnamed : ∀ k, L.node (ids.containerId k) = none
  edges : DefinesExactly ids s.edges (fun k i => L.memberOf i = some k)
  node_some : ∀ k, L.Occupied k → s.nodes.find? (ids.containerId k) = some (containerNode ids k)
  node_none : ∀ k, ¬ L.Occupied k → s.nodes.find? (ids.containerId k) = none
  row_some : ∀ k, L.Occupied k → s.containers.find? (ids.containerId k) = some (containerRow ids L s k)
  row_none : ∀ k, ¬ L.Occupied k → s.containers.find? (ids.containerId k) = none
  row_plain : ∀ id, (∀ k, id ≠ ids.containerId k) → s.containers.find? id = none

theorem Shows.memberOf (h : Shows ids s L) (id : String) : s.memberOf id = L.memberOf id := by
  unfold Store.memberOf Ledger.memberOf
  by_cases hc : ∃ k, id = ids.containerId k
  · obtain ⟨k, rfl⟩ := hc
    rw [h.unnamed k]
    by_cases hk : L.Occupied k
    · rw [h.node_some k hk]
      rfl
    · rw [h.node_none k hk]
  · rw [h.plain id (fun k hk => hc ⟨k, hk⟩)]

theorem Shows.empty (ids : ContainerIds) : Shows ids {} Ledger.empty where
  plain _ _ := rfl
  unnamed _ := rfl
  edges := DefinesExactly.empty.congr fun k i => by simp [Ledger.memberOf, Ledger.empty]
  node_some k := by
    rintro ⟨id, hid⟩
    simp [Ledger.memberOf, Ledger.empty] at hid
  node_none _ _ := rfl
  row_some k := by
    rintro ⟨id, hid⟩
    simp [Ledger.memberOf, Ledger.empty] at hid
  row_none _ _ := rfl
  row_plain _ _ := rfl

namespace Store

theorem leaves_eq_some_iff {id : String} {k : ContainerKey} :
    s.leaves d id = some k ↔ s.memberOf id = some k ∧ (d.finalMembership id ≠ some k ∨ id ∈ d.deleteNodeIds) := by
  unfold leaves
  cases s.memberOf id with
  | none => simp
  | some was =>
    simp only [Option.some.injEq]
    split
    next h =>
      constructor
      · intro he
        have hk := Option.some.inj he
        subst hk
        exact ⟨rfl, h⟩
      · exact fun he => congrArg some he.1
    next h =>
      simp only [reduceCtorEq, false_iff, not_and]
      rintro rfl
      exact h

def Drops (s : Store) (d : Diff) (k : ContainerKey) (id : String) : Prop :=
  id ∈ d.namedIds ∧ s.leaves d id = some k

theorem foldl_dropMember_edges {M : ContainerKey → String → Prop} (xs : List String) (t : Store)
    (h : DefinesExactly ids t.edges M) :
    DefinesExactly ids (xs.foldl (fun t id =>
      match s.leaves d id with
      | some was => t.dropMember ids was id
      | none => t) t).edges (fun k i => M k i ∧ ¬ (i ∈ xs ∧ s.leaves d i = some k)) := by
  induction xs generalizing t M with
  | nil => exact h.congr fun k i => by simp
  | cons x _ ih =>
    rw [foldl_cons]
    cases hx : s.leaves d x with
    | none =>
      refine (ih t h).congr fun k i => and_congr_right fun _ => not_congr ?_
      rw [mem_cons]
      constructor
      · exact fun hi => ⟨.inr hi.1, hi.2⟩
      · rintro ⟨rfl | hi, hk⟩
        · rw [hx] at hk
          cases hk
        · exact ⟨hi, hk⟩
    | some was =>
      refine (ih _ (h.erase_member was x)).congr fun k i => ?_
      rw [mem_cons]
      by_cases hi : i = x
      · subst hi
        simp only [hx, Option.some.injEq, and_true, true_or, true_and]
        tauto
      · simp only [hi, and_false, not_false_eq_true, and_true, false_or]

theorem detach_keeps {P : Store → Prop} (hs : P s) (hdrop : ∀ t, P t → ∀ k i, P (t.dropMember ids k i)) :
    P (s.detach ids d).1 := by
  unfold detach
  split
  next => exact hs
  next =>
    refine List.foldlRecOn (motive := P) d.namedIds _ hs fun t ht id _ => ?_
    split
    next was _ => exact hdrop t ht was id
    next => exact ht

theorem detach_frame (ids : ContainerIds) (s : Store) (d : Diff) :
    (s.detach ids d).1.nodes = s.nodes ∧ (s.detach ids d).1.containers = s.containers :=
  detach_keeps (P := fun t : Store => t.nodes = s.nodes ∧ t.containers = s.containers) ⟨rfl, rfl⟩ fun _ ht _ _ => ht

/-- What `attach` finds after `detach`, be its work list there or not. -/
structure Detached (ids : ContainerIds) (s : Store) (d : Diff) (L : Ledger) (t : Store) (p : Pending) :
    Prop where
  nodes : t.nodes = s.nodes
  containers : t.containers = s.containers
  edges : DefinesExactly ids t.edges (fun k i => L.memberOf i = some k ∧ ¬ s.Drops d k i)
  members : p.members = d.finalMembers
  parents : p.parents = d.memberParents
  touched : ∀ k, k ∈ p.touched ↔ (∃ i, s.Drops d k i) ∨ k ∈ d.memberParents.map Prod.fst

theorem mem_keySet {keys : List ContainerKey} {k : ContainerKey} : k ∈ keySet keys ↔ k ∈ keys := by
  unfold keySet
  rw [mem_insertionSort, mem_dedup]

theorem memberParents_eq_nil (h : d.upsertNodes.any (fun n => n.membership.isSome) = false) : d.memberParents = [] := by
  unfold Diff.memberParents
  rw [filterMap_eq_nil_iff]
  intro n hn
  have hj := any_eq_false.mp h n hn
  rw [Bool.not_eq_true, Option.isSome_eq_false_iff, Option.isNone_iff_eq_none] at hj
  rw [hj]
  rfl

end Store

theorem Shows.no_member (h : Shows ids s L) (hc : s.containers.rows = []) (i : String) (k : ContainerKey) :
    L.memberOf i ≠ some k := by
  intro hi
  have hrow := h.row_some k ⟨i, hi⟩
  have hmem := (KeyedTable.find?_eq_some_iff.mp hrow).1
  rw [KeyedTable.mem_def, hc] at hmem
  exact nomatch hmem

theorem Shows.not_drops (h : Shows ids s L) (hc : s.containers.rows = []) (i : String) (k : ContainerKey) :
    ¬ s.Drops d k i := by
  intro hd
  have hm := (Store.leaves_eq_some_iff.mp hd.2).1
  rw [h.memberOf] at hm
  exact h.no_member hc i k hm

namespace Store

variable (h : Shows ids s L) {k : ContainerKey}

include h

/-- `detach` drops the members that leave and works out what `attach` has to finish. -/
theorem detach_spec : Detached ids s d L (s.detach ids d).1 ((s.detach ids d).2.getD {}) := by
  have hframe := detach_frame ids s d
  revert hframe
  unfold detach
  split
  next hq =>
    intro hframe
    have hp := memberParents_eq_nil hq.1
    refine ⟨hframe.1, hframe.2, ?_, ?_, hp.symm, ?_⟩
    · exact h.edges.congr fun k i => (and_iff_left (h.not_drops hq.2 i k)).symm
    · show [] = d.finalMembers
      rw [eq_comm, eq_nil_iff_forall_not_mem]
      rintro ⟨i, k⟩ hm
      have hk := Diff.finalMembership_parent (Diff.mem_finalMembers.mp hm)
      rw [hp] at hk
      exact nomatch hk
    · intro k
      refine ⟨fun hm => absurd hm not_mem_nil, ?_⟩
      rintro (⟨i, hi⟩ | hk)
      · exact absurd hi (h.not_drops hq.2 i k)
      · rw [hp] at hk
        exact nomatch hk
  next =>
    intro hframe
    refine ⟨hframe.1, hframe.2, foldl_dropMember_edges d.namedIds s h.edges, rfl, rfl, ?_⟩
    intro k
    show k ∈ keySet _ ↔ _
    rw [mem_keySet, mem_append, mem_append, mem_filterMap]
    constructor
    · rintro ((⟨i, hi, hl⟩ | hk) | hk)
      · exact .inl ⟨i, hi, hl⟩
      · obtain ⟨⟨i, k'⟩, hm, rfl⟩ := mem_map.mp hk
        exact .inr (Diff.finalMembership_parent (Diff.mem_finalMembers.mp hm))
      · exact .inr hk
    · rintro (⟨i, hi, hl⟩ | hk)
      · exact .inl (.inl ⟨i, hi, hl⟩)
      · exact .inr hk

theorem joined_iff {i : String} :
    (L.memberOf i = some k ∧ ¬ s.Drops d k i) ∨ d.finalMembership i = some k ↔ (L.write d).memberOf i = some k := by
  rw [Ledger.write_memberOf_iff]
  constructor
  · rintro (⟨hm, hd⟩ | hf)
    · by_cases hn : i ∈ d.namedIds
      · left
        by_contra hf
        exact hd ⟨hn, leaves_eq_some_iff.mpr ⟨(h.memberOf i).trans hm, .inl hf⟩⟩
      · exact .inr ⟨hn, hm⟩
    · exact .inl hf
  · rintro (hf | ⟨hn, hm⟩)
    · exact .inr hf
    · exact .inl ⟨hm, fun hd => hn hd.1⟩

theorem untouched_iff (hd : ¬ ∃ i, s.Drops d k i) (hp : k ∉ d.memberParents.map Prod.fst)
    (i : String) : (L.write d).memberOf i = some k ↔ L.memberOf i = some k := by
  rw [← joined_iff h]
  constructor
  · rintro (hm | hf)
    · exact hm.1
    · exact absurd (Diff.finalMembership_parent hf) hp
  · exact fun hm => .inl ⟨hm, fun hi => hd ⟨i, hi⟩⟩

end Store

open KeyedTable

variable {M : ContainerKey → String → Prop} (ps : List (ContainerKey × Option String))

namespace Store

def freshRow (ids : ContainerIds) (k : ContainerKey) : ContainerRow where
  nodeId := ids.containerId k
  language := k.1
  key := k.2

section

variable (ms : List (String × ContainerKey))

include ms

theorem foldl_attachMember_nodes (s : Store) :
    (ms.foldl (attachMember ids) s).nodes =
      (ms.map (fun m => containerNode ids m.2)).foldl KeyedTable.insertIgnore s.nodes := by
  rw [foldl_map]
  exact (foldl_hom (fun t : Store => t.nodes) fun _ _ => rfl).symm

theorem foldl_attachMember_containers (s : Store) :
    (ms.foldl (attachMember ids) s).containers =
      (ms.map (fun m => freshRow ids m.2)).foldl KeyedTable.insertIgnore s.containers := by
  rw [foldl_map]
  exact (foldl_hom (fun t : Store => t.containers) fun _ _ => rfl).symm

omit ms in
theorem find?_map_containerId {ρ : Type} (f : ContainerKey → ρ) (id : ρ → String)
    (hf : ∀ k, id (f k) = ids.containerId k) (ms : List (String × ContainerKey)) (k : ContainerKey) :
    (ms.map (fun m => f m.2)).find? (fun r => decide (id r = ids.containerId k)) =
      if k ∈ ms.map Prod.snd then some (f k) else none := by
  induction ms with
  | nil => rfl
  | cons m _ ih =>
    rw [map_cons, find?_cons, hf]
    by_cases hk : m.2 = k
    · simp [hk]
    · have hid : ids.containerId m.2 ≠ ids.containerId k := fun h => hk (ids.containerId_injective h)
      simp only [hid, decide_false, ih, map_cons, mem_cons, Ne.symm hk, false_or]

omit ms in
theorem find?_map_plain {ρ : Type} (f : ContainerKey → ρ) (id : ρ → String)
    (hf : ∀ k, id (f k) = ids.containerId k) (ms : List (String × ContainerKey)) {x : String}
    (hx : ∀ k, x ≠ ids.containerId k) :
    (ms.map (fun m => f m.2)).find? (fun r => decide (id r = x)) = none := by
  rw [find?_eq_none]
  intro r hr
  obtain ⟨m, _, rfl⟩ := mem_map.mp hr
  simpa [hf] using (hx m.2).symm

theorem foldl_attachMember_edges (h : DefinesExactly ids s.edges M) :
    DefinesExactly ids (ms.foldl (attachMember ids) s).edges (fun k i => M k i ∨ (i, k) ∈ ms) := by
  induction ms generalizing s M with
  | nil => exact h.congr fun k i => by simp
  | cons m _ ih =>
    have hm : DefinesExactly ids (s.attachMember ids m).edges (fun k i => M k i ∨ (k = m.2 ∧ i = m.1)) :=
      h.insert m.2 m.1
    refine (ih hm).congr fun k i => ?_
    have he : (k = m.2 ∧ i = m.1) ↔ (i, k) = m := by
      constructor
      · rintro ⟨rfl, rfl⟩
        rfl
      · rintro rfl
        exact ⟨rfl, rfl⟩
    rw [he, mem_cons, or_assoc]

end

theorem applyParents_find? (s : Store) (x : String) :
    (s.applyParents ps).containers.find? x = (s.containers.find? x).map (setParent ps) := by
  unfold applyParents
  split
  next h =>
    subst h
    have hid : setParent [] = id := rfl
    rw [hid, Option.map_id]
    rfl
  next => exact find?_update s.containers (setParent ps) (setParent_nodeId ps) x

theorem applyParents_toGraph (s : Store) : (s.applyParents ps).toGraph = s.toGraph := by
  unfold applyParents
  split <;> rfl

def PlainMembers (ids : ContainerIds) (M : ContainerKey → String → Prop) : Prop :=
  ∀ k i, M k i → ∀ k', i ≠ ids.containerId k'

variable {k : ContainerKey}

theorem definesExactly_deleteContainer (h : DefinesExactly ids s.edges M) (hp : PlainMembers ids M)
    (hk : ∀ i, ¬ M k i) : DefinesExactly ids (s.deleteContainer (ids.containerId k)).edges M := by
  refine ((h.filter _).filter _).congr fun k' i => ?_
  rw [decide_eq_true_iff, decide_eq_true_iff]
  refine ⟨fun hm => hm.1.1, fun hm => ⟨⟨hm, ?_⟩, hp k' i hm k⟩⟩
  intro hf
  have hkk : k' = k := ids.containerId_injective hf
  exact hk i (hkk ▸ hm)

theorem definesExactly_recount (h : DefinesExactly ids s.edges M) (hp : PlainMembers ids M)
    (k : ContainerKey) : DefinesExactly ids (s.recount ids k).edges M := by
  unfold recount
  dsimp only
  split
  next hz => exact definesExactly_deleteContainer h hp ((definesCount_eq_zero_iff h k).mp hz)
  next => exact h

theorem recount_nodes_find? (k : ContainerKey) (s : Store) (x : String) :
    (s.recount ids k).nodes.find? x =
      if x = ids.containerId k ∧ s.definesCount (ids.containerId k) = 0 then none else s.nodes.find? x := by
  unfold recount
  dsimp only
  split
  next hz =>
    show (s.nodes.erase (ids.containerId k)).find? x = _
    rw [find?_erase]
    simp only [hz, and_true]
  next hz => simp [hz]

theorem recount_containers_find? (k : ContainerKey) (s : Store) (x : String) :
    (s.recount ids k).containers.find? x =
      if x = ids.containerId k then
        if s.definesCount x = 0 then none
        else (s.containers.find? x).map (fun c => { c with memberCount := s.definesCount x })
      else s.containers.find? x := by
  unfold recount
  dsimp only
  split
  next hz =>
    show (s.containers.erase (ids.containerId k)).find? x = _
    rw [find?_erase]
    by_cases hx : x = ids.containerId k
    · rw [if_pos hx, if_pos hx, hx, if_pos hz]
    · rw [if_neg hx, if_neg hx]
  next hz =>
    rw [find?_update]
    cases hf : s.containers.find? x with
    | none => simp
    | some c =>
      have hid : c.nodeId = x := (find?_eq_some_iff.mp hf).2
      by_cases hx : x = ids.containerId k
      · rw [if_pos hx, if_neg (hx ▸ hz)]
        simp only [Option.map_some, setCount, hid, hx, if_true]
      · rw [if_neg hx]
        simp only [Option.map_some, setCount, hid, hx, if_false]

theorem foldl_recount_other (ks : List ContainerKey) (s : Store) {x : String}
    (hx : ∀ k ∈ ks, x ≠ ids.containerId k) :
    (ks.foldl (recount ids) s).nodes.find? x = s.nodes.find? x ∧
      (ks.foldl (recount ids) s).containers.find? x = s.containers.find? x := by
  apply List.foldlRecOn (motive := fun t : Store =>
    t.nodes.find? x = s.nodes.find? x ∧ t.containers.find? x = s.containers.find? x)
  · exact ⟨rfl, rfl⟩
  · intro t ht k hk
    rw [recount_nodes_find?, recount_containers_find?, if_neg (fun h => hx k hk h.1), if_neg (hx k hk)]
    exact ht

theorem foldl_recount_mem (hp : PlainMembers ids M) (ks : List ContainerKey) (s : Store)
    (h : DefinesExactly ids s.edges M) (hk : k ∈ ks) :
    (ks.foldl (recount ids) s).nodes.find? (ids.containerId k) = (s.recount ids k).nodes.find? (ids.containerId k) ∧
      (ks.foldl (recount ids) s).containers.find? (ids.containerId k) =
        (s.recount ids k).containers.find? (ids.containerId k) := by
  induction ks generalizing s with
  | nil => simp at hk
  | cons k' ks ih =>
    have h' := definesExactly_recount h hp k'
    rw [foldl_cons]
    by_cases hks : k ∈ ks
    · obtain ⟨hnode, hrow⟩ := ih _ h' hks
      have hcount := definesCount_eq (k := k) h' h (fun _ => .rfl)
      rw [hnode, hrow]
      simp only [recount_nodes_find?, recount_containers_find?, hcount, true_and, if_true]
      by_cases hz : s.definesCount (ids.containerId k) = 0
      · simp only [hz, if_true, and_self]
      · have hkept : ¬ (ids.containerId k = ids.containerId k' ∧ s.definesCount (ids.containerId k') = 0) := by
          rintro ⟨he, hz'⟩
          rw [← he] at hz'
          exact hz hz'
        simp only [hz, hkept, if_false, true_and]
        split
        next => rw [Option.map_map]; rfl
        next => rfl
    · have hkk : k = k' := (mem_cons.mp hk).resolve_right hks
      subst hkk
      have hother : ∀ j ∈ ks, ids.containerId k ≠ ids.containerId j := by
        intro j hj he
        exact hks (ids.containerId_injective he ▸ hj)
      exact foldl_recount_other ks _ hother

theorem attach_keeps {P : Store → Prop} (hs : P s) (hmember : ∀ t, P t → ∀ m, P (t.attachMember ids m))
    (hrows : ∀ t, P t → ∀ rows, P { t with containers := rows })
    (hcontainer : ∀ t, P t → ∀ k, P (t.deleteContainer (ids.containerId k))) (p : Pending) : P (s.attach ids p) := by
  have hmembers := List.foldlRecOn (motive := P) p.members (attachMember ids) hs fun t ht m _ => hmember t ht m
  have hparents : P ((p.members.foldl (attachMember ids) s).applyParents p.parents) := by
    unfold applyParents
    split
    next => exact hmembers
    next => exact hrows _ hmembers _
  refine List.foldlRecOn (motive := P) p.touched (recount ids) hparents fun t ht k _ => ?_
  unfold recount
  dsimp only
  split
  next => exact hcontainer t ht k
  next => exact hrows t ht _

end Store

end GMesh
