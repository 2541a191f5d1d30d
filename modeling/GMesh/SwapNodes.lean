import GMesh.LanguageSwap

namespace GMesh

open KeyedTable List

/-- A freshly walked file of one language: its nodes, and beside them only their rows. -/
structure IndexFile.HoldsOnly (f : IndexFile) (language : String) : Prop where
  nodes : ∀ n ∈ f.nodes, n.language = language
  declarations : ∀ c ∈ f.declarations, f.nodes.contains c.nodeId = true
  targets : ∀ c ∈ f.targets, f.nodes.contains c.nodeId = true
  alsoScopes : ∀ c ∈ f.alsoScopes, f.nodes.contains c.nodeId = true
  suffixes : ∀ c ∈ f.suffixes, f.nodes.contains c.nodeId = true
  untypedCalls : ∀ c ∈ f.untypedCalls, f.nodes.contains c.nodeId = true

section Children

variable {κ ρ : Type} {key : ρ → κ} {owner : ρ → String} {staged live : KeyedTable key}
  {ids deleted upserted : List String} {id : String}

theorem owner_of_mem_changedOwners [DecidableEq ρ] (hs : ∀ c ∈ staged, owner c ∈ ids)
    (h : id ∈ changedOwners owner staged live ids) : id ∈ ids := by
  rcases mem_append.mp h with h | h <;> obtain ⟨c, hc, rfl⟩ := mem_map.mp h
  · exact hs c (List.mem_filter.mp hc).1
  · exact of_decide_eq_true (List.mem_filter.mp (List.mem_filter.mp hc).1).2

theorem mem_iff_of_not_changed [DecidableEq ρ] (hid : id ∈ ids) (h : id ∉ changedOwners owner staged live ids)
    {c : ρ} (hc : owner c = id) : c ∈ staged ↔ c ∈ live := by
  obtain ⟨hnew, hgone⟩ := not_or.mp (fun h' => h (mem_append.mpr h'))
  constructor
  · intro hs
    by_contra hl
    refine hnew (List.mem_map.mpr ⟨c, List.mem_filter.mpr ⟨hs, decide_eq_true fun hk => hl ?_⟩, hc⟩)
    exact (List.mem_filter.mp hk).1
  · intro hl
    by_contra hs
    refine hgone (mem_map.mpr ⟨c, mem_filter.mpr ⟨?_, decide_eq_true hs⟩, hc⟩)
    exact List.mem_filter.mpr ⟨hl, decide_eq_true (hc ▸ hid)⟩

theorem not_changed_of_forall [DecidableEq ρ] (h : ∀ c, owner c = id → (c ∈ staged ↔ c ∈ live)) (hid : id ∈ ids) :
    id ∉ changedOwners owner staged live ids := by
  intro hm
  rcases List.mem_append.mp hm with hm | hm <;> obtain ⟨c, hc, ho⟩ := List.mem_map.mp hm
  · obtain ⟨hs, hl⟩ := List.mem_filter.mp hc
    refine of_decide_eq_true hl (List.mem_filter.mpr ⟨(h c ho).mp hs, decide_eq_true (ho ▸ hid)⟩)
  · obtain ⟨hl, hs⟩ := List.mem_filter.mp hc
    exact of_decide_eq_true hs ((h c ho).mpr (List.mem_filter.mp hl).1)

theorem mem_swapChildren [DecidableEq κ] (hk : ∀ c d : ρ, key c = key d → owner c = owner d) {c : ρ} :
    c ∈ swapChildren owner live staged deleted upserted ↔
      if owner c ∈ upserted then c ∈ staged else c ∈ live ∧ owner c ∉ deleted := by
  unfold swapChildren
  rw [mem_copy, KeyedTable.mem_filter, decide_eq_true_iff, Bool.not_eq_true', decide_eq_false_iff_not, not_or]
  split
  next h =>
    constructor
    · rintro (hc | hc)
      · exact hc.1
      · exact absurd h hc.1.2.2
    · exact fun hc => .inl ⟨hc, h⟩
  next h =>
    constructor
    · rintro (hc | hc)
      · exact absurd hc.2 h
      · exact ⟨hc.1.1, hc.1.2.1⟩
    · rintro ⟨hc, hd⟩
      refine .inr ⟨⟨hc, hd, h⟩, fun d hd' hu he => h ?_⟩
      rw [← hk d c he]
      exact of_decide_eq_true hu

end Children

namespace Reindex

variable {r : Reindex} {id : String}

theorem mem_stagedIds : id ∈ r.stagedIds ↔ r.staging.nodes.contains id := by
  rw [KeyedTable.contains_iff]
  exact List.mem_map

theorem mem_stagedEdgeIds : id ∈ r.stagedEdgeIds ↔ ∃ e ∈ r.staging.edges, e.id = id := List.mem_map

variable {n : NodeRow}

theorem mem_liveNodes : n ∈ r.liveNodes ↔ n ∈ r.live.nodes ∧ n.language = r.language := by
  unfold liveNodes
  rw [List.mem_filter, decide_eq_true_iff]
  rfl

theorem mem_liveIds : id ∈ r.liveIds ↔ ∃ n ∈ r.live.nodes, n.id = id ∧ n.language = r.language := by
  unfold liveIds
  rw [mem_map]
  constructor
  · rintro ⟨n, hn, hid⟩
    obtain ⟨hn, hl⟩ := mem_liveNodes.mp hn
    exact ⟨n, hn, hid, hl⟩
  · rintro ⟨n, hn, hid, hl⟩
    exact ⟨n, mem_liveNodes.mpr ⟨hn, hl⟩, hid⟩

theorem language_of_liveIds (hn : n ∈ r.live.nodes) : n.id ∈ r.liveIds ↔ n.language = r.language := by
  rw [mem_liveIds]
  refine ⟨?_, fun h => ⟨n, hn, rfl, h⟩⟩
  rintro ⟨m, hm, hid, hl⟩
  rwa [← r.live.nodes.key_injective hm hn hid]

theorem mem_keepNodes :
    id ∈ r.keepNodes ↔ r.keepSemanticPlaceholders ∧ id ∉ r.stagedIds ∧
    ∃ n ∈ r.live.nodes, n.id = id ∧ n.language = r.language ∧ isPlaceholder n := by
  unfold keepNodes
  split
  next hkeep =>
    rw [mem_map]
    constructor
    · rintro ⟨n, hn, rfl⟩
      obtain ⟨hn, hp⟩ := mem_filter.mp hn
      obtain ⟨hp, hs⟩ := Bool.and_eq_true_iff.mp hp
      obtain ⟨hn, hl⟩ := mem_liveNodes.mp hn
      exact ⟨hkeep, of_decide_eq_true hs, n, hn, rfl, hl, hp⟩
    · rintro ⟨_, hs, n, hn, rfl, hl, hp⟩
      refine ⟨n, mem_filter.mpr ⟨mem_liveNodes.mpr ⟨hn, hl⟩, ?_⟩, rfl⟩
      rw [hp, decide_eq_true hs]
      rfl
  next hkeep =>
    refine ⟨fun h => absurd h not_mem_nil, fun h => absurd h.1 hkeep⟩

theorem mem_deleteNodes : id ∈ r.deleteNodes ↔ id ∈ r.liveIds ∧ id ∉ r.stagedIds ∧ id ∉ r.keepNodes := by
  unfold deleteNodes
  rw [List.mem_filter, decide_eq_true_iff]

structure SameRows (r : Reindex) (n : NodeRow) : Prop where
  node : n ∈ r.live.nodes
  declarations : ∀ c, c.nodeId = n.id → (c ∈ r.staging.declarations ↔ c ∈ r.live.declarations)
  targets : ∀ c, c.nodeId = n.id → (c ∈ r.staging.targets ↔ c ∈ r.live.targets)
  alsoScopes : ∀ c, c.nodeId = n.id → (c ∈ r.staging.alsoScopes ↔ c ∈ r.live.alsoScopes)
  suffixes : ∀ c, c.nodeId = n.id → (c ∈ r.staging.suffixes ↔ c ∈ r.live.suffixes)
  untypedCalls : ∀ c, c.nodeId = n.id → (c ∈ r.staging.untypedCalls ↔ c ∈ r.live.untypedCalls)

variable (r) in
/-- A staged node that keeps its live edges: nothing changed, and no container. -/
def Unchanged (id : String) : Prop :=
  ∃ n ∈ r.staging.nodes, n.id = id ∧ r.SameRows n ∧ n.nativeKind ≠ some containerNativeKind

variable (h : r.staging.HoldsOnly r.language)

include h

theorem stagedIds_of_upsertNodes (hid : id ∈ r.upsertNodes) : id ∈ r.stagedIds := by
  unfold upsertNodes at hid
  simp only [mem_append] at hid
  rcases hid with ((((hid | hid) | hid) | hid) | hid) | hid
  · obtain ⟨n, hn, rfl⟩ := mem_map.mp hid
    exact List.mem_map_of_mem (List.mem_filter.mp (List.mem_filter.mp hn).1).1
  · exact owner_of_mem_changedOwners (fun c hc => mem_stagedIds.mpr (h.declarations c hc)) hid
  · exact owner_of_mem_changedOwners (fun c hc => mem_stagedIds.mpr (h.targets c hc)) hid
  · exact owner_of_mem_changedOwners (fun c hc => mem_stagedIds.mpr (h.alsoScopes c hc)) hid
  · exact owner_of_mem_changedOwners (fun c hc => mem_stagedIds.mpr (h.suffixes c hc)) hid
  · exact owner_of_mem_changedOwners (fun c hc => mem_stagedIds.mpr (h.untypedCalls c hc)) hid

theorem not_mem_upsertNodes (hn : n ∈ r.staging.nodes) : n.id ∉ r.upsertNodes ↔ r.SameRows n := by
  have hid : n.id ∈ r.stagedIds := List.mem_map_of_mem hn
  unfold upsertNodes
  simp only [List.mem_append, not_or]
  constructor
  · rintro ⟨⟨⟨⟨⟨hnode, hd⟩, ht⟩, ha⟩, hs⟩, hu⟩
    refine ⟨?_, fun c => mem_iff_of_not_changed hid hd, fun c => mem_iff_of_not_changed hid ht,
      fun c => mem_iff_of_not_changed hid ha, fun c => mem_iff_of_not_changed hid hs,
      fun c => mem_iff_of_not_changed hid hu⟩
    by_contra hl
    refine hnode (List.mem_map.mpr ⟨n, List.mem_filter.mpr ⟨List.mem_filter.mpr
      ⟨hn, decide_eq_true (h.nodes n hn)⟩, decide_eq_true fun hn' => hl ?_⟩, rfl⟩)
    exact (mem_liveNodes.mp hn').1
  · intro k
    refine ⟨⟨⟨⟨⟨?_, not_changed_of_forall k.declarations hid⟩, not_changed_of_forall k.targets hid⟩,
      not_changed_of_forall k.alsoScopes hid⟩, not_changed_of_forall k.suffixes hid⟩,
      not_changed_of_forall k.untypedCalls hid⟩
    intro hm
    obtain ⟨m, hm, he⟩ := List.mem_map.mp hm
    obtain ⟨hm, hnew⟩ := List.mem_filter.mp hm
    obtain rfl := r.staging.nodes.key_injective (List.mem_filter.mp hm).1 hn he
    exact of_decide_eq_true hnew (mem_liveNodes.mpr ⟨k.node, h.nodes _ hn⟩)

theorem mem_unchangedNodes : id ∈ r.unchangedNodes ↔ r.Unchanged id := by
  unfold unchangedNodes Unchanged
  rw [List.mem_map]
  refine exists_congr fun n => ?_
  rw [List.mem_filter, decide_eq_true_iff]
  constructor
  · rintro ⟨⟨hn, _, hu, hc⟩, rfl⟩
    exact ⟨hn, rfl, (not_mem_upsertNodes h hn).mp hu, hc⟩
  · rintro ⟨hn, rfl, hs, hc⟩
    exact ⟨⟨hn, mem_liveIds.mpr ⟨n, hs.node, rfl, h.nodes n hn⟩, (not_mem_upsertNodes h hn).mpr hs, hc⟩, rfl⟩

theorem mem_swapped_nodes :
    n ∈ r.swapped.nodes ↔
    if n.id ∈ r.upsertNodes then n ∈ r.staging.nodes else n ∈ r.live.nodes ∧ n.id ∉ r.deleteNodes := by
  show n ∈ KeyedTable.copy (r.live.nodes.filter fun n => decide (n.id ∉ r.deleteNodes)) r.staging.nodes
    (fun n => decide (n.id ∈ r.upsertNodes)) ↔ _
  rw [mem_copy_of_forall, KeyedTable.mem_filter, decide_eq_true_iff]
  exact fun id hu => contains_iff.mp (mem_stagedIds.mp (stagedIds_of_upsertNodes h hu))

theorem staged_swapped (hn : n ∈ r.staging.nodes) : n ∈ r.swapped.nodes := by
  rw [mem_swapped_nodes h]
  split
  next => exact hn
  next hu =>
    refine ⟨((not_mem_upsertNodes h hn).mp hu).node, fun hd => ?_⟩
    exact (mem_deleteNodes.mp hd).2.1 (mem_map_of_mem hn)

theorem contains_swapped (hs : id ∈ r.stagedIds) : r.swapped.nodes.contains id := by
  obtain ⟨n, hn, he⟩ := contains_iff.mp (mem_stagedIds.mp hs)
  exact contains_iff.mpr ⟨n, staged_swapped h hn, he⟩

theorem kept_swapped (hn : n ∈ r.live.nodes) (hk : n.id ∈ r.keepNodes) : n ∈ r.swapped.nodes := by
  rw [mem_swapped_nodes h, if_neg]
  · exact ⟨hn, fun hd => (mem_deleteNodes.mp hd).2.2 hk⟩
  · exact fun hu => (mem_keepNodes.mp hk).2.1 (stagedIds_of_upsertNodes h hu)

theorem stranger_swapped (hn : n ∈ r.live.nodes) (hl : n.language ≠ r.language) (hs : n.id ∉ r.stagedIds) :
    n ∈ r.swapped.nodes := by
  rw [mem_swapped_nodes h, if_neg fun hu => hs (stagedIds_of_upsertNodes h hu)]
  exact ⟨hn, fun hd => hl ((language_of_liveIds hn).mp (mem_deleteNodes.mp hd).1)⟩

theorem mem_swapped_nodes_iff :
    n ∈ r.swapped.nodes ↔ n ∈ r.staging.nodes ∨
    (n ∈ r.live.nodes ∧ n.id ∉ r.stagedIds ∧ (n.id ∈ r.keepNodes ∨ n.language ≠ r.language)) := by
  constructor
  · intro hn
    rw [mem_swapped_nodes h] at hn
    split at hn
    next => exact .inl hn
    next hu =>
      obtain ⟨hn, hd⟩ := hn
      by_cases hs : n.id ∈ r.stagedIds
      · obtain ⟨m, hm, he⟩ := contains_iff.mp (mem_stagedIds.mp hs)
        have hsame := ((not_mem_upsertNodes h hm).mp (he ▸ hu)).node
        exact .inl (r.live.nodes.key_injective hsame hn he ▸ hm)
      · refine .inr ⟨hn, hs, ?_⟩
        by_cases hl : n.language = r.language
        · by_contra hk
          exact hd (mem_deleteNodes.mpr ⟨(language_of_liveIds hn).mpr hl, hs, fun hk' => hk (.inl hk')⟩)
        · exact .inr hl
  · rintro (hn | ⟨hn, hs, hk | hl⟩)
    · exact staged_swapped h hn
    · exact kept_swapped h hn hk
    · exact stranger_swapped h hn hl hs

theorem survives_iff : r.survives id ↔ r.swapped.nodes.contains id := by
  rw [KeyedTable.contains_iff]
  unfold survives
  rw [Bool.or_eq_true, Bool.or_eq_true, decide_eq_true_iff, decide_eq_true_iff]
  constructor
  · rintro ((hs | hk) | ho)
    · exact contains_iff.mp (contains_swapped h hs)
    · obtain ⟨_, _, n, hn, rfl, _⟩ := mem_keepNodes.mp hk
      exact ⟨n, kept_swapped h hn hk, rfl⟩
    · obtain ⟨n, hn, hc⟩ := List.any_eq_true.mp ho
      obtain ⟨rfl, hl⟩ := of_decide_eq_true hc
      by_cases hs : n.id ∈ r.stagedIds
      · exact contains_iff.mp (contains_swapped h hs)
      · exact ⟨n, stranger_swapped h hn hl hs, rfl⟩
  · rintro ⟨n, hn, rfl⟩
    rcases (mem_swapped_nodes_iff h).mp hn with hn | ⟨hn, _, hk | hl⟩
    · exact .inl (.inl (List.mem_map_of_mem hn))
    · exact .inl (.inr hk)
    · exact .inr (List.any_eq_true.mpr ⟨n, hn, decide_eq_true ⟨rfl, hl⟩⟩)

end Reindex

end GMesh
