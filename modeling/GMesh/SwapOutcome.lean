import GMesh.SwapNodes

namespace GMesh

open KeyedTable List

namespace Reindex

variable {r : Reindex}

theorem exists_staged_of_upsertEdges {x : String} (hx : x ∈ r.upsertEdges) : ∃ s ∈ r.staging.edges, s.id = x := by
  obtain ⟨s, hs, hid⟩ := mem_map.mp hx
  exact ⟨s, (List.mem_filter.mp (List.mem_filter.mp hs).1).1, hid⟩

variable {e : EdgeRow}

theorem mem_swapped_edges :
    e ∈ r.swapped.edges ↔
    if e.id ∈ r.upsertEdges then e ∈ r.staging.edges else e ∈ r.live.edges ∧ e.id ∉ r.deleteEdges := by
  show e ∈ KeyedTable.copy (r.live.edges.filter fun e => decide (e.id ∉ r.deleteEdges)) r.staging.edges
    (fun e => decide (e.id ∈ r.upsertEdges)) ↔ _
  rw [mem_copy_of_forall fun x hx => exists_staged_of_upsertEdges hx, KeyedTable.mem_filter, decide_eq_true_iff]

theorem mem_swapped_edges_cases (he : e ∈ r.swapped.edges) :
    e ∈ r.staging.edges ∨ e ∈ r.live.edges ∧ e.id ∉ r.deleteEdges ∧ e.id ∉ r.upsertEdges := by
  rw [mem_swapped_edges] at he
  split at he
  next => exact .inl he
  next hup => exact .inr ⟨he.1, he.2, hup⟩

def Touches (r : Reindex) (e : EdgeRow) : Prop := e.fromId ∈ r.liveIds ∨ e.toId ∈ r.liveIds

variable (h : r.staging.HoldsOnly r.language)

include h

theorem dropped_iff :
    r.dropped e ↔ r.swapped.nodes.contains e.toId = false ∨
    (e.source = .syntactic ∧ r.Unchanged e.fromId ∧ e.id ∉ r.stagedEdgeIds) := by
  unfold dropped
  rw [Bool.or_eq_true, decide_eq_true_iff, mem_unchangedNodes h, Bool.not_eq_true', Bool.eq_false_iff, Ne,
    survives_iff h, Bool.eq_false_iff]

theorem mem_deleteEdges (he : e ∈ r.live.edges) :
    e.id ∈ r.deleteEdges ↔ r.Touches e ∧
    ((r.Unchanged e.fromId ∨ e.fromId ∈ r.keepNodes) ∧ r.dropped e ∨
      ¬ (r.Unchanged e.fromId ∨ e.fromId ∈ r.keepNodes) ∧ e.id ∉ r.stagedEdgeIds) := by
  refine (key_mem_filter he).trans ?_
  rw [Bool.and_eq_true, decide_eq_true_iff]
  refine and_congr_right fun _ => ?_
  split
  next hc =>
    rw [mem_unchangedNodes h] at hc
    simp [hc]
  next hc =>
    rw [mem_unchangedNodes h] at hc
    simp [hc]

theorem mem_upsertEdges {s : EdgeRow} (hs : s ∈ r.staging.edges) : s.id ∈ r.upsertEdges ↔ s ∉ r.live.edges ∧
    (¬ r.Unchanged s.fromId ∨ (∃ t ∈ r.live.edges, t.id = s.id ∧ t.source = .syntactic) ∨
      ((∃ d ∈ r.live.edges, d.fromId = s.fromId ∧ d.kind = s.kind ∧ r.dropped d) ∧
        ∀ l ∈ r.live.edges, l.id = s.id → r.swapped.nodes.contains l.toId = false)) := by
  unfold upsertEdges
  rw [filter_filter]
  refine (key_mem_filter hs).trans ?_
  rw [Bool.and_comm, Bool.and_eq_true, decide_eq_true_iff]
  refine and_congr_right fun _ => ?_
  rw [Bool.or_eq_true, Bool.or_eq_true, decide_eq_true_iff, mem_unchangedNodes h, or_assoc]
  refine or_congr Iff.rfl (or_congr ?_ ?_)
  · rw [any_eq_true]
    exact exists_congr fun t => and_congr_right fun _ => decide_eq_true_iff
  · rw [Bool.and_eq_true, Bool.not_eq_true', any_eq_true, any_eq_false]
    refine and_congr (exists_congr fun d => and_congr_right fun _ => ?_) (forall_congr' fun l => ?_)
    · rw [Bool.and_eq_true, decide_eq_true_iff, and_assoc]
    · refine imp_congr_right fun _ => ?_
      rw [Bool.and_eq_true, decide_eq_true_iff, survives_iff h, not_and, Bool.not_eq_true]

omit h

/-- What a plan may rest on: staging holds the language alone and nothing dangles, its nodes are no other language's,
and a shared edge id is of one node. -/
structure Compatible (r : Reindex) : Prop where
  only : r.staging.HoldsOnly r.language
  closed : r.staging.NoDangling
  apart : ∀ n ∈ r.live.nodes, n.language ≠ r.language → n.id ∉ r.stagedIds
  sources : ∀ s ∈ r.staging.edges, ∀ e ∈ r.live.edges, s.id = e.id → s.fromId = e.fromId

theorem Unchanged.staged {id : String} (hu : r.Unchanged id) : id ∈ r.stagedIds := by
  obtain ⟨n, hn, rfl, _⟩ := hu
  exact mem_map_of_mem hn

theorem liveIds_of_keepNodes {id : String} (hk : id ∈ r.keepNodes) : id ∈ r.liveIds := by
  obtain ⟨_, _, n, hn, hid, hl, _⟩ := mem_keepNodes.mp hk
  exact mem_liveIds.mpr ⟨n, hn, hid, hl⟩

namespace Compatible

variable (k : r.Compatible) {e : EdgeRow} {x : String}

include k

theorem liveIds_of_unchanged (hu : r.Unchanged x) : x ∈ r.liveIds := by
  obtain ⟨n, hn, rfl, hs, _⟩ := hu
  exact mem_liveIds.mpr ⟨n, hs.node, rfl, k.only.nodes n hn⟩

theorem staged_ends (he : e ∈ r.staging.edges) : e.fromId ∈ r.stagedIds ∧ e.toId ∈ r.stagedIds := by
  obtain ⟨hf, ht⟩ := k.closed e he
  exact ⟨mem_stagedIds.mpr hf, mem_stagedIds.mpr ht⟩

theorem liveIds_of_staged (hx : x ∈ r.stagedIds) (hl : r.live.nodes.contains x) : x ∈ r.liveIds := by
  obtain ⟨n, hn, rfl⟩ := contains_iff.mp hl
  by_contra hx'
  exact k.apart n hn (fun hl => hx' ((language_of_liveIds hn).mpr hl)) hx

theorem not_dropped_staged (he : e ∈ r.staging.edges) : r.dropped e ≠ true := by
  intro hd
  rcases (dropped_iff k.only).mp hd with hd | ⟨_, _, hd⟩
  · rw [contains_swapped k.only (k.staged_ends he).2] at hd
    cases hd
  · exact hd (mem_stagedEdgeIds.mpr ⟨e, he, rfl⟩)

theorem staged_not_deleted (he : e ∈ r.staging.edges) (hl : e ∈ r.live.edges) : e.id ∉ r.deleteEdges := by
  intro hd
  rcases ((mem_deleteEdges k.only hl).mp hd).2 with hd | hd
  · exact k.not_dropped_staged he hd.2
  · exact hd.2 (mem_stagedEdgeIds.mpr ⟨e, he, rfl⟩)

theorem staged_of_shared (hl : e ∈ r.live.edges) (hup : e.id ∉ r.upsertEdges) (hid : e.id ∈ r.stagedEdgeIds)
    (hwhy : ¬ r.Unchanged e.fromId ∨ e.source = .syntactic) : e ∈ r.staging.edges := by
  obtain ⟨s, hs, hid⟩ := mem_stagedEdgeIds.mp hid
  by_cases hsl : s ∈ r.live.edges
  · exact r.live.edges.key_injective hsl hl hid ▸ hs
  · refine absurd ((mem_upsertEdges k.only hs).mpr ⟨hsl, ?_⟩) (hid ▸ hup)
    rw [k.sources s hs e hl hid]
    exact hwhy.imp_right fun hsyn => .inl ⟨e, hl, hid.symm, hsyn⟩

theorem changed_edges (hx : x ∈ r.stagedIds) (hu : ¬ r.Unchanged x)
    (hlive : ∀ e ∈ r.live.edges, e.fromId = x → r.live.nodes.contains x) (he : e.fromId = x) :
    e ∈ r.swapped.edges ↔ e ∈ r.staging.edges := by
  have hside : ¬ (r.Unchanged e.fromId ∨ e.fromId ∈ r.keepNodes) := by
    rw [he]
    exact not_or.mpr ⟨hu, fun hk => (mem_keepNodes.mp hk).2.1 hx⟩
  rw [mem_swapped_edges]
  split
  next => exact .rfl
  next hup =>
    constructor
    · rintro ⟨hl, hd⟩
      refine k.staged_of_shared hl hup ?_ (.inl (he ▸ hu))
      by_contra hid
      have htouch : r.Touches e := .inl (he ▸ k.liveIds_of_staged hx (hlive e hl he))
      exact hd ((mem_deleteEdges k.only hl).mpr ⟨htouch, .inr ⟨hside, hid⟩⟩)
    · intro hs
      have hl : e ∈ r.live.edges := by
        by_contra hl
        exact hup ((mem_upsertEdges k.only hs).mpr ⟨hl, .inl (he ▸ hu)⟩)
      exact ⟨hl, k.staged_not_deleted hs hl⟩

/-- A kept placeholder keeps its edges onto what the swap leaves. -/
theorem kept_edges (hx : x ∈ r.keepNodes) (he : e.fromId = x) :
    e ∈ r.swapped.edges ↔ e ∈ r.live.edges ∧ r.swapped.nodes.contains e.toId := by
  have hstaged : x ∉ r.stagedIds := (mem_keepNodes.mp hx).2.1
  have hup : ∀ e ∈ r.live.edges, e.fromId = x → e.id ∉ r.upsertEdges := by
    intro e hl he hm
    obtain ⟨s, hs, hid⟩ := exists_staged_of_upsertEdges hm
    refine hstaged ?_
    rw [← he, ← k.sources s hs e hl hid]
    exact (k.staged_ends hs).1
  have hdrop : r.dropped e ↔ r.swapped.nodes.contains e.toId = false := by
    rw [dropped_iff k.only]
    refine or_iff_left fun hu => hstaged ?_
    exact he ▸ hu.2.1.staged
  rw [mem_swapped_edges]
  split
  next hm =>
    refine ⟨fun hs => absurd (he ▸ (k.staged_ends hs).1) hstaged, fun hl => absurd hm (hup e hl.1 he)⟩
  next =>
    refine and_congr_right fun hl => ?_
    rw [mem_deleteEdges k.only hl, hdrop, ← Bool.not_eq_false]
    refine not_congr ⟨fun hd => ?_, fun hc => ⟨.inl (he ▸ liveIds_of_keepNodes hx), .inl ⟨.inr (he ▸ hx), hc⟩⟩⟩
    rcases hd.2 with hd | hd
    · exact hd.2
    · exact absurd (.inr (he ▸ hx)) hd.1

section

variable (hu : r.Unchanged e.fromId)

include hu

section

variable (hl : e ∈ r.live.edges)

include hl

theorem semantic_kept (hsem : e.source = .semantic) (ht : r.swapped.nodes.contains e.toId) : e ∈ r.swapped.edges := by
  have hdrop : r.dropped e ≠ true := by
    rw [Ne, dropped_iff k.only, hsem, ht]
    simp
  rw [mem_swapped_edges, if_neg]
  · refine ⟨hl, fun hd => ?_⟩
    rcases ((mem_deleteEdges k.only hl).mp hd).2 with hd | hd
    · exact hdrop hd.2
    · exact hd.1 (.inl hu)
  · intro hm
    obtain ⟨s, hs, hid⟩ := exists_staged_of_upsertEdges hm
    rcases ((mem_upsertEdges k.only hs).mp (hid ▸ hm)).2 with hn | ⟨t, ht', htid, hsyn⟩ | ⟨_, hgone⟩
    · exact hn (k.sources s hs e hl hid ▸ hu)
    · rw [r.live.edges.key_injective ht' hl (htid.trans hid), hsem] at hsyn
      cases hsyn
    · rw [hgone e hl hid.symm] at ht
      cases ht

theorem undeleted_stays (hdel : e.id ∉ r.deleteEdges) :
    r.swapped.nodes.contains e.toId ∧ ¬ (e.source = .syntactic ∧ r.Unchanged e.fromId ∧ e.id ∉ r.stagedEdgeIds) := by
  have hdrop : r.dropped e ≠ true := fun hdrop => hdel ((mem_deleteEdges k.only hl).mpr
    ⟨.inl (k.liveIds_of_unchanged hu), .inl ⟨.inl hu, hdrop⟩⟩)
  rwa [Ne, dropped_iff k.only, not_or, Bool.not_eq_false] at hdrop

theorem syntactic_staged (hsyn : e.source = .syntactic) {e' : EdgeRow} (he' : e' ∈ r.swapped.edges)
    (hid : e'.id = e.id) : e' ∈ r.staging.edges := by
  rcases mem_swapped_edges_cases he' with hs | ⟨hl', hdel, hup⟩
  · exact hs
  obtain rfl := r.live.edges.key_injective hl' hl hid
  refine k.staged_of_shared hl hup ?_ (.inr hsyn)
  by_contra hm
  exact (k.undeleted_stays hu hl hdel).2 ⟨hsyn, hu, hm⟩

end

theorem added_in_place (hs : e ∈ r.staging.edges) (he : e ∈ r.swapped.edges)
    (hnew : ∀ l ∈ r.live.edges, l.id ≠ e.id) :
    ∃ d ∈ r.live.edges, d.fromId = e.fromId ∧ d.kind = e.kind ∧ r.dropped d := by
  rw [mem_swapped_edges] at he
  split at he
  next hm =>
    rcases ((mem_upsertEdges k.only hs).mp hm).2 with hn | ⟨t, ht, hid, _⟩ | hd
    · exact absurd hu hn
    · exact absurd hid (hnew t ht)
    · exact hd.1
  next => exact absurd rfl (hnew e he.1)

end

/-- After the swap no edge dangles, if no live one did. -/
theorem swapped_noDangling (hd : r.live.NoDangling) : r.swapped.NoDangling := by
  have hother : ∀ {id : String}, r.live.nodes.contains id → id ∉ r.liveIds → r.swapped.nodes.contains id := by
    intro id hid hl
    obtain ⟨n, hn, rfl⟩ := contains_iff.mp hid
    have hl : n.language ≠ r.language := fun h => hl ((language_of_liveIds hn).mpr h)
    exact contains_iff.mpr ⟨n, stranger_swapped k.only hn hl (k.apart n hn hl), rfl⟩
  intro e he
  by_cases hs : e ∈ r.staging.edges
  · obtain ⟨hf, ht⟩ := k.staged_ends hs
    exact ⟨contains_swapped k.only hf, contains_swapped k.only ht⟩
  obtain ⟨hl, hdel, hup⟩ := (mem_swapped_edges_cases he).resolve_left hs
  obtain ⟨hf, ht⟩ := hd e hl
  by_cases hu : r.Unchanged e.fromId
  · exact ⟨contains_swapped k.only hu.staged, (k.undeleted_stays hu hl hdel).1⟩
  by_cases hk : e.fromId ∈ r.keepNodes
  · obtain ⟨_, _, n, hn, hid, _⟩ := mem_keepNodes.mp hk
    exact ⟨contains_iff.mpr ⟨n, kept_swapped k.only hn (hid ▸ hk), hid⟩, ((k.kept_edges hk rfl).mp he).2⟩
  have htouch : ¬ r.Touches e := by
    rw [mem_deleteEdges k.only hl] at hdel
    refine fun htouch => hdel ⟨htouch, .inr ⟨not_or.mpr ⟨hu, hk⟩, fun hid => ?_⟩⟩
    exact hs (k.staged_of_shared hl hup hid (.inl hu))
  exact ⟨hother hf fun h => htouch (.inl h), hother ht fun h => htouch (.inr h)⟩

end Compatible

end Reindex

open Reindex

/-- Each row of `containers` is of the language and stands for a container node. -/
def IndexFile.ConsistentContainers (f : IndexFile) (language : String) : Prop :=
  ∀ c ∈ f.containers, c.language = language ∧
    ∃ n ∈ f.nodes, n.id = c.nodeId ∧ n.nativeKind = some containerNativeKind

instance (f : IndexFile) (language : String) : Decidable (f.ConsistentContainers language) :=
  inferInstanceAs (Decidable (∀ c ∈ f.containers, c.language = language ∧
    ∃ n ∈ f.nodes, n.id = c.nodeId ∧ n.nativeKind = some containerNativeKind))

namespace Reindex

variable {r : Reindex}

/-- A live placeholder of the language that staging lacks, when such are kept. -/
structure Kept (r : Reindex) (n : NodeRow) : Prop where
  asked : r.keepSemanticPlaceholders = true
  live : n ∈ r.live.nodes
  language : n.language = r.language
  placeholder : isPlaceholder n = true
  absent : r.staging.nodes.contains n.id = false

theorem Kept.mem {n : NodeRow} (h : r.Kept n) : n.id ∈ r.keepNodes := by
  refine mem_keepNodes.mpr ⟨h.asked, fun hs => ?_, n, h.live, rfl, h.language, h.placeholder⟩
  have := mem_stagedIds.mp hs
  rw [h.absent] at this
  cases this

theorem kept_of_mem {n : NodeRow} (hn : n ∈ r.live.nodes) (hk : n.id ∈ r.keepNodes) : r.Kept n := by
  obtain ⟨hasked, hs, m, hm, hid, hl, hp⟩ := mem_keepNodes.mp hk
  obtain rfl := r.live.nodes.key_injective hm hn hid
  exact ⟨hasked, hm, hl, hp, Bool.eq_false_iff.mpr fun hc => hs (mem_stagedIds.mpr hc)⟩

structure Replaced {κ ρ : Type} {key : ρ → κ} (r : Reindex) (owner : ρ → String) (after staged live : KeyedTable key) :
    Prop where
  staged : ∀ c, r.staging.nodes.contains (owner c) = true → (c ∈ after ↔ c ∈ staged)
  kept : ∀ n, r.Kept n → ∀ c, owner c = n.id → (c ∈ after ↔ c ∈ live)
  others : ∀ n ∈ r.live.nodes, n.language ≠ r.language → ∀ c, owner c = n.id → (c ∈ after ↔ c ∈ live)

theorem Compatible.replaced (k : r.Compatible) {κ ρ : Type} [DecidableEq κ] [DecidableEq ρ] {key : ρ → κ}
    {owner : ρ → String} {staged live : KeyedTable key} (hkey : ∀ c d : ρ, key c = key d → owner c = owner d)
    (hsame : ∀ n ∈ r.staging.nodes, n.id ∉ r.upsertNodes → ∀ c, owner c = n.id → (c ∈ staged ↔ c ∈ live)) :
    r.Replaced owner (swapChildren owner live staged r.deleteNodes r.upsertNodes) staged live where
  staged c hc := by
    obtain ⟨n, hn, hid⟩ := contains_iff.mp hc
    rw [mem_swapChildren hkey]
    split
    next => exact .rfl
    next hu =>
      rw [hsame n hn (hid ▸ hu) c hid.symm]
      refine and_iff_left fun hd => (mem_deleteNodes.mp hd).2.1 ?_
      exact mem_stagedIds.mpr hc
  kept n hn c hc := by
    have hs : n.id ∉ r.stagedIds := (mem_keepNodes.mp hn.mem).2.1
    rw [mem_swapChildren hkey, hc, if_neg fun hu => hs (stagedIds_of_upsertNodes k.only hu)]
    exact and_iff_left fun hd => (mem_deleteNodes.mp hd).2.2 hn.mem
  others n hn hl c hc := by
    have hs := k.apart n hn hl
    rw [mem_swapChildren hkey, hc, if_neg fun hu => hs (stagedIds_of_upsertNodes k.only hu)]
    exact and_iff_left fun hd => hl ((language_of_liveIds hn).mp (mem_deleteNodes.mp hd).1)

theorem mem_swapped_containers (hc : r.staging.ConsistentContainers r.language) {c : ContainerRow}
    (hl : c.language = r.language) : c ∈ r.swapped.containers ↔ c ∈ r.staging.containers := by
  have hupsert : ∀ s ∈ r.staging.containers, s.nodeId ∈ r.upsertContainers ↔ s ∉ r.live.containers := by
    intro s hs
    unfold upsertContainers
    rw [filter_filter]
    refine (key_mem_filter hs).trans ?_
    simp [(hc s hs).1, mem_def]
  show c ∈ KeyedTable.copy (r.live.containers.filter fun c =>
    !decide (c.nodeId ∈ r.deleteContainers ∨ c.nodeId ∈ r.deleteNodes)) r.staging.containers
    (fun c => decide (c.nodeId ∈ r.upsertContainers)) ↔ _
  rw [mem_copy, KeyedTable.mem_filter, decide_eq_true_iff, Bool.not_eq_true', decide_eq_false_iff_not, not_or]
  constructor
  · rintro (⟨hs, _⟩ | ⟨⟨hlive, hdel, _⟩, hup⟩)
    · exact hs
    · obtain ⟨s, hs, hid⟩ : ∃ s ∈ r.staging.containers, s.nodeId = c.nodeId := by
        by_contra hn
        refine hdel (List.mem_map.mpr ⟨c, List.mem_filter.mpr ⟨hlive, decide_eq_true ⟨hl, fun hm => hn ?_⟩⟩, rfl⟩)
        exact List.mem_map.mp hm
      by_cases hs' : s ∈ r.live.containers
      · exact r.live.containers.key_injective hs' hlive hid ▸ hs
      · exact absurd hid (hup s hs (decide_eq_true ((hupsert s hs).mpr hs')))
  · intro hs
    by_cases hlive : c ∈ r.live.containers
    · refine .inr ⟨⟨hlive, fun hd => ?_, fun hd => ?_⟩, fun s hs' hu he => ?_⟩
      · obtain ⟨d, hd, hid⟩ := mem_map.mp hd
        obtain ⟨_, hgone⟩ := of_decide_eq_true (List.mem_filter.mp hd).2
        exact hgone (hid ▸ mem_map_of_mem hs)
      · obtain ⟨_, n, hn, hid, _⟩ := hc c hs
        exact (mem_deleteNodes.mp hd).2.1 (hid ▸ mem_map_of_mem hn)
      · obtain rfl := r.staging.containers.key_injective hs' hs he
        exact (hupsert s hs').mp (of_decide_eq_true hu) hlive
    · exact .inl ⟨hs, (hupsert c hs).mpr hlive⟩

structure Installed (r : Reindex) : Prop where
  nodes : ∀ n, n.language = r.language → (n ∈ r.swapped.nodes ↔ n ∈ r.staging.nodes ∨ r.Kept n)
  others : ∀ n, n.language ≠ r.language → (n ∈ r.swapped.nodes ↔ n ∈ r.live.nodes)
  declarations : r.Replaced (·.nodeId) r.swapped.declarations r.staging.declarations r.live.declarations
  targets : r.Replaced (·.nodeId) r.swapped.targets r.staging.targets r.live.targets
  alsoScopes : r.Replaced (·.nodeId) r.swapped.alsoScopes r.staging.alsoScopes r.live.alsoScopes
  suffixes : r.Replaced (·.nodeId) r.swapped.suffixes r.staging.suffixes r.live.suffixes
  untypedCalls : r.Replaced (·.nodeId) r.swapped.untypedCalls r.staging.untypedCalls r.live.untypedCalls
  closed : r.live.NoDangling → r.swapped.NoDangling
  containers : ∀ c, c.language = r.language → (c ∈ r.swapped.containers ↔ c ∈ r.staging.containers)
  defines : (∀ e ∈ r.live.edges, r.live.nodes.contains e.fromId = true) → ∀ c ∈ r.swapped.containers,
    c.language = r.language → ∀ e, e.fromId = c.nodeId → e.kind = .defines →
      (e ∈ r.swapped.edges ↔ e ∈ r.staging.edges)

end Reindex

/-- A swap installs the staged language, leaves the other languages' nodes and lets nothing dangle. -/
theorem swap_installs (r : Reindex) (k : r.Compatible) (hc : r.staging.ConsistentContainers r.language) :
    r.Installed where
  nodes n hl := by
    rw [mem_swapped_nodes_iff k.only]
    refine or_congr_right ⟨?_, fun hn => ⟨hn.live, (mem_keepNodes.mp hn.mem).2.1, Or.inl hn.mem⟩⟩
    rintro ⟨hn, _, hk | hl'⟩
    · exact kept_of_mem hn hk
    · exact absurd hl hl'
  others n hl := by
    rw [mem_swapped_nodes_iff k.only]
    constructor
    · rintro (hn | hn)
      · exact absurd (k.only.nodes n hn) hl
      · exact hn.1
    · exact fun hn => .inr ⟨hn, k.apart n hn hl, Or.inr hl⟩
  declarations := k.replaced (fun _ _ h => congrArg Prod.fst h)
    fun n hn hu => ((not_mem_upsertNodes k.only hn).mp hu).declarations
  targets := k.replaced (fun _ _ h => h) fun n hn hu => ((not_mem_upsertNodes k.only hn).mp hu).targets
  alsoScopes := k.replaced (fun _ _ h => congrArg AlsoScopeRow.nodeId h)
    fun n hn hu => ((not_mem_upsertNodes k.only hn).mp hu).alsoScopes
  suffixes := k.replaced (fun _ _ h => congrArg SuffixRow.nodeId h)
    fun n hn hu => ((not_mem_upsertNodes k.only hn).mp hu).suffixes
  untypedCalls := k.replaced (fun _ _ h => congrArg UntypedCallRow.nodeId h)
    fun n hn hu => ((not_mem_upsertNodes k.only hn).mp hu).untypedCalls
  closed := k.swapped_noDangling
  containers c hl := mem_swapped_containers hc hl
  defines hlive c hcs hl e he _ := by
    obtain ⟨_, n, hn, hid, hkind⟩ := hc c ((mem_swapped_containers hc hl).mp hcs)
    refine k.changed_edges (x := c.nodeId) (hid ▸ mem_map_of_mem hn) ?_ (fun e' he' hf => hf ▸ hlive e' he') he
    rintro ⟨m, hm, hm', _, hnot⟩
    exact hnot (r.staging.nodes.key_injective hm hn (hm'.trans hid.symm) ▸ hkind)

/-- A reindex in which nodes stay, change, go and come, and a placeholder is kept. -/
def renamedFunction : Reindex where
  language := "rust"
  keepSemanticPlaceholders := true
  live :=
    { nodes := ⟨[{ id := "f", language := "rust" }, { id := "g", name := "old", language := "rust" },
        { id := "gone", language := "rust" },
        { id := "p", kind := .module, language := "rust", nativeKind := some pendingSymbolNativeKind },
        { id := "t", language := "typescript" }], by decide⟩
      edges := ⟨[{ id := "f-gone", fromId := "f", toId := "gone" },
        { id := "f-g", fromId := "f", toId := "g", source := .semantic },
        { id := "p-f", fromId := "p", toId := "f", kind := .references, source := .semantic },
        { id := "g-p", fromId := "g", toId := "p" }], by decide⟩ }
  staging :=
    { nodes := ⟨[{ id := "f", language := "rust" }, { id := "g", name := "new", language := "rust" },
        { id := "n", language := "rust", container := some "m" },
        { id := "m", kind := .module, language := "rust", nativeKind := some containerNativeKind }], by decide⟩
      edges := ⟨[{ id := "f-n", fromId := "f", toId := "n" }, { id := "f-m", fromId := "f", toId := "m", kind := .imports },
        { id := "m-n", fromId := "m", toId := "n", kind := .defines }], by decide⟩
      containers := ⟨[{ nodeId := "m", language := "rust", key := "m", memberCount := 1 }], by decide⟩ }

theorem renamedFunction_compatible : renamedFunction.Compatible :=
  ⟨by constructor <;> decide, by decide, by decide, by decide⟩

theorem swap_installs_renamedFunction : renamedFunction.Compatible ∧ renamedFunction.Installed :=
  ⟨renamedFunction_compatible, swap_installs renamedFunction renamedFunction_compatible
    (by decide)⟩

def sharedNodeId : Reindex where
  language := "rust"
  keepSemanticPlaceholders := false
  live :=
    { nodes := ⟨[{ id := "x", language := "typescript" }, { id := "o", language := "typescript" }], by decide⟩
      edges := ⟨[{ id := "x-o", fromId := "x", toId := "o" }], by decide⟩ }
  staging := { nodes := ⟨[{ id := "x", language := "rust" }], by decide⟩ }

/-- Edge ids under which staging has edges of another node than live. -/
def sharedEdgeId : Reindex where
  language := "rust"
  keepSemanticPlaceholders := false
  live :=
    { nodes := ⟨[{ id := "a", name := "old", language := "rust" }, { id := "b", language := "rust" },
        { id := "gone", language := "rust" }], by decide⟩
      edges := ⟨[{ id := "e", fromId := "gone", toId := "b", source := .semantic },
        { id := "e2", fromId := "a", toId := "b", source := .semantic }], by decide⟩ }
  staging :=
    { nodes := ⟨[{ id := "a", name := "new", language := "rust" }, { id := "b", language := "rust" }], by decide⟩
      edges := ⟨[{ id := "e", fromId := "b", toId := "b" }, { id := "e2", fromId := "b", toId := "b" }], by decide⟩ }

/-- A live edge from a node that only staging has. -/
def danglingSource : Reindex where
  language := "rust"
  keepSemanticPlaceholders := false
  live :=
    { nodes := ⟨[{ id := "o", language := "typescript" }], by decide⟩
      edges := ⟨[{ id := "m-o", fromId := "m", toId := "o", kind := .defines }], by decide⟩ }
  staging :=
    { nodes := ⟨[{ id := "m", kind := .module, language := "rust", nativeKind := some containerNativeKind }], by decide⟩
      containers := ⟨[{ nodeId := "m", language := "rust", key := "m" }], by decide⟩ }

/-- The conditions that are asked of staging alone. -/
structure Reindex.WellStaged (r : Reindex) : Prop where
  only : r.staging.HoldsOnly r.language
  closed : r.staging.NoDangling
  containers : r.staging.ConsistentContainers r.language

theorem sharedNodeId_wellStaged : sharedNodeId.WellStaged :=
  ⟨by constructor <;> decide, by decide, by decide⟩

theorem sharedEdgeId_wellStaged : sharedEdgeId.WellStaged :=
  ⟨by constructor <;> decide, by decide, by decide⟩

theorem danglingSource_wellStaged : danglingSource.WellStaged :=
  ⟨by constructor <;> decide, by decide, by decide⟩

/-- Without distinct ids a node is overwritten or an edge dangles. -/
theorem swap_shared_ids :
    (sharedNodeId.WellStaged ∧ ∃ n ∈ sharedNodeId.live.nodes, n.language ≠ "rust" ∧ n ∉ sharedNodeId.swapped.nodes) ∧
    (sharedEdgeId.WellStaged ∧ sharedEdgeId.live.NoDangling ∧ ¬ sharedEdgeId.swapped.NoDangling) ∧
    (danglingSource.WellStaged ∧ ∃ c ∈ danglingSource.swapped.containers, c.language = "rust" ∧
      ∃ e ∈ danglingSource.swapped.edges, e.fromId = c.nodeId ∧ e.kind = .defines ∧
        e ∉ danglingSource.staging.edges) := by
  exact ⟨⟨sharedNodeId_wellStaged, { id := "x", language := "typescript" }, by decide, by decide, by decide⟩,
    ⟨sharedEdgeId_wellStaged, by decide, by decide⟩, danglingSource_wellStaged,
    { nodeId := "m", language := "rust", key := "m" }, by decide, by decide,
    { id := "m-o", fromId := "m", toId := "o", kind := .defines }, by decide, by decide, by decide, by decide⟩

namespace Reindex

variable {r : Reindex}

namespace Compatible

theorem syntactic_edges (k : r.Compatible) {e e' : EdgeRow} (hu : r.Unchanged e.fromId) (hl : e ∈ r.live.edges)
    (hsyn : e.source = .syntactic) (hid : e'.id = e.id) : e' ∈ r.swapped.edges ↔ e' ∈ r.staging.edges := by
  refine ⟨fun he' => k.syntactic_staged hu hl hsyn he' hid, fun hs => ?_⟩
  rw [mem_swapped_edges]
  split
  next => exact hs
  next hup =>
    have hl' : e' ∈ r.live.edges := by
      by_contra hl'
      exact hup ((mem_upsertEdges k.only hs).mpr ⟨hl', .inr (.inl ⟨e, hl, hid.symm, hsyn⟩)⟩)
    refine ⟨hl', fun hd => ?_⟩
    have hstaged : e'.id ∈ r.stagedEdgeIds := mem_stagedEdgeIds.mpr ⟨e', hs, rfl⟩
    rcases ((mem_deleteEdges k.only hl').mp hd).2 with ⟨_, hdrop⟩ | hd
    · rcases (dropped_iff k.only).mp hdrop with hgone | hgone
      · rw [contains_swapped k.only (k.staged_ends hs).2] at hgone
        cases hgone
      · exact hgone.2.2 hstaged
    · exact hd.2 hstaged

end Compatible

/-- Which edges of the language are taken from staging, and which from live. -/
structure FollowsEdgeRule (r : Reindex) : Prop where
  changed : ∀ n ∈ r.staging.nodes, ¬ r.Unchanged n.id → ∀ e, e.fromId = n.id →
    (e ∈ r.swapped.edges ↔ e ∈ r.staging.edges)
  semantic : ∀ e ∈ r.live.edges, r.Unchanged e.fromId → e.source = .semantic →
    r.swapped.nodes.contains e.toId = true → e ∈ r.swapped.edges
  syntactic : ∀ e ∈ r.live.edges, r.Unchanged e.fromId → e.source = .syntactic → ∀ e', e'.id = e.id →
    (e' ∈ r.swapped.edges ↔ e' ∈ r.staging.edges)
  added : ∀ s ∈ r.staging.edges, r.Unchanged s.fromId → (∀ l ∈ r.live.edges, l.id ≠ s.id) → s ∈ r.swapped.edges →
    ∃ d ∈ r.live.edges, d.fromId = s.fromId ∧ d.kind = s.kind ∧ (r.swapped.nodes.contains d.toId = false ∨
      (d.source = .syntactic ∧ ∀ s' ∈ r.staging.edges, s'.id ≠ d.id))
  kept : ∀ n, r.Kept n → ∀ e, e.fromId = n.id →
    (e ∈ r.swapped.edges ↔ e ∈ r.live.edges ∧ r.swapped.nodes.contains e.toId = true)

end Reindex

/-- Whose edges a node has after a swap depends on whether it is changed, unchanged or kept. -/
theorem swap_follows_edge_rule (r : Reindex) (k : r.Compatible)
    (hlive : ∀ e ∈ r.live.edges, r.live.nodes.contains e.fromId = true) : r.FollowsEdgeRule where
  changed n hn hu e he := k.changed_edges (mem_map_of_mem hn) hu (fun e' he' hf => hf ▸ hlive e' he') he
  semantic e hl hu hsem ht := k.semantic_kept hu hl hsem ht
  syntactic e hl hu hsyn e' hid := k.syntactic_edges hu hl hsyn hid
  added s hs hu hnew he := by
    obtain ⟨d, hd, hfrom, hkind, hdrop⟩ := k.added_in_place hu hs he hnew
    refine ⟨d, hd, hfrom, hkind, ((dropped_iff k.only).mp hdrop).imp_right fun h => ⟨h.1, fun s' hs' hid => ?_⟩⟩
    exact h.2.2 (mem_stagedEdgeIds.mpr ⟨s', hs', hid⟩)
  kept n hn e he := k.kept_edges hn.mem he

theorem swap_follows_edge_rule_renamedFunction :
    (∀ e ∈ renamedFunction.live.edges, renamedFunction.live.nodes.contains e.fromId = true) ∧
      renamedFunction.FollowsEdgeRule :=
  ⟨by decide, swap_follows_edge_rule renamedFunction renamedFunction_compatible (by decide)⟩

def Reindex.LeavesOldEdge (r : Reindex) : Prop :=
  r.staging.HoldsOnly r.language ∧ r.staging.NoDangling ∧
    ∃ n ∈ r.staging.nodes, ¬ r.Unchanged n.id ∧ ∃ e ∈ r.swapped.edges, e.fromId = n.id ∧ e ∉ r.staging.edges

/-- The node's id is another language's, the edge's id another node's, or live had the edge first. -/
theorem swap_foreign_edges :
    sharedNodeId.LeavesOldEdge ∧ sharedEdgeId.LeavesOldEdge ∧ danglingSource.LeavesOldEdge := by
  have hunchanged : ∀ r : Reindex, r.staging.HoldsOnly r.language → ∀ id, decide (id ∉ r.unchangedNodes) = true →
      ¬ r.Unchanged id :=
    fun r h id hid hu => of_decide_eq_true hid ((mem_unchangedNodes h).mpr hu)
  refine ⟨?_, ?_, ?_⟩
  · exact ⟨sharedNodeId_wellStaged.only, sharedNodeId_wellStaged.closed, { id := "x", language := "rust" }, by decide,
      hunchanged _ sharedNodeId_wellStaged.only "x" (by decide), { id := "x-o", fromId := "x", toId := "o" },
      by decide, by decide, by decide⟩
  · exact ⟨sharedEdgeId_wellStaged.only, sharedEdgeId_wellStaged.closed,
      { id := "a", name := "new", language := "rust" }, by decide,
      hunchanged _ sharedEdgeId_wellStaged.only "a" (by decide),
      { id := "e2", fromId := "a", toId := "b", source := .semantic }, by decide, by decide, by decide⟩
  · exact ⟨danglingSource_wellStaged.only, danglingSource_wellStaged.closed,
      { id := "m", kind := .module, language := "rust", nativeKind := some containerNativeKind }, by decide,
      hunchanged _ danglingSource_wellStaged.only "m" (by decide),
      { id := "m-o", fromId := "m", toId := "o", kind := .defines }, by decide, by decide, by decide⟩

/-- A live edge from another language's node to a target still there is left alone exactly when the target is no live
node of the language or is staged, and no staged edge is written over it. -/
theorem foreign_edge_left_iff (r : Reindex) (h : r.staging.HoldsOnly r.language) {e : EdgeRow} (he : e ∈ r.live.edges)
    {n : NodeRow} (hn : n ∈ r.live.nodes) (hid : n.id = e.fromId) (hl : n.language ≠ r.language)
    (ht : r.swapped.nodes.contains e.toId = true) :
    e ∈ r.swapped.edges ↔ ((∃ m ∈ r.live.nodes, m.id = e.toId ∧ m.language = r.language) →
      ∃ s ∈ r.staging.edges, s.id = e.id) ∧
      ∀ s ∈ r.staging.edges, s.id = e.id → s = e ∨ (r.Unchanged s.fromId ∧ e.source = .semantic) := by
  have hfrom : e.fromId ∉ r.liveIds := fun hm => hl ((language_of_liveIds hn).mp (hid ▸ hm))
  have hside : ¬ (r.Unchanged e.fromId ∨ e.fromId ∈ r.keepNodes) := by
    rintro (⟨m, hm, hm', hsame, _⟩ | hk)
    · exact hfrom (mem_liveIds.mpr ⟨m, hsame.node, hm', h.nodes m hm⟩)
    · exact hfrom (liveIds_of_keepNodes hk)
  have hdelete : e.id ∉ r.deleteEdges ↔ ((∃ m ∈ r.live.nodes, m.id = e.toId ∧ m.language = r.language) →
      ∃ s ∈ r.staging.edges, s.id = e.id) := by
    rw [mem_deleteEdges h he, ← mem_liveIds, ← mem_stagedEdgeIds]
    unfold Reindex.Touches
    rw [or_iff_right hfrom]
    constructor
    · intro hn htouch
      by_contra hs
      exact hn ⟨htouch, Or.inr ⟨hside, hs⟩⟩
    · rintro hs ⟨htouch, hd | hd⟩
      · exact hside hd.1
      · exact hd.2 (hs htouch)
  rw [mem_swapped_edges]
  split
  next hm =>
    obtain ⟨s, hs, hsid⟩ := exists_staged_of_upsertEdges hm
    obtain ⟨hnew, hcause⟩ := (mem_upsertEdges h hs).mp (hsid ▸ hm)
    refine iff_of_false (fun he' => hnew ?_) ?_
    · exact r.staging.edges.key_injective hs he' hsid ▸ he
    · rintro ⟨_, hall⟩
      rcases hall s hs hsid with rfl | ⟨hu, hsem⟩
      · exact hnew he
      · rcases hcause with hn | ⟨t, ht', htid, hsyn⟩ | ⟨_, hgone⟩
        · exact hn hu
        · rw [r.live.edges.key_injective ht' he (htid.trans hsid), hsem] at hsyn
          cases hsyn
        · rw [hgone e he hsid.symm] at ht
          cases ht
  next hm =>
    rw [hdelete, and_iff_right he]
    refine (and_iff_left fun s hs hsid => ?_).symm
    have hkept := fun hc => hm (hsid ▸ (mem_upsertEdges h hs).mpr hc)
    by_cases hsl : s ∈ r.live.edges
    · exact .inl (r.live.edges.key_injective hsl he hsid)
    · refine .inr ⟨?_, ?_⟩
      · by_contra hu
        exact hkept ⟨hsl, Or.inl hu⟩
      · cases hsource : e.source with
        | semantic => rfl
        | syntactic => exact absurd ⟨hsl, Or.inr (.inl ⟨e, he, hsid.symm, hsource⟩)⟩ hkept

/-- A file of `typescript` imports one of its own language and one of `rust`. -/
def importedFile : Reindex where
  language := "rust"
  keepSemanticPlaceholders := false
  live :=
    { nodes := ⟨[{ id := "a.ts", kind := .file, language := "typescript" },
        { id := "b.rs", kind := .file, language := "rust" },
        { id := "c.ts", kind := .file, language := "typescript" }], by decide⟩
      edges := ⟨[{ id := "a-b", fromId := "a.ts", toId := "b.rs", kind := .imports, resolved := true },
        { id := "a-c", fromId := "a.ts", toId := "c.ts", kind := .imports, resolved := true }], by decide⟩ }
  staging := { nodes := ⟨[{ id := "b.rs", kind := .file, language := "rust" }], by decide⟩ }

theorem importedFile_only : importedFile.staging.HoldsOnly importedFile.language := by
  constructor <;> decide

theorem foreign_edge_left_iff_importedFile : importedFile.staging.HoldsOnly importedFile.language ∧
    ∃ e ∈ importedFile.live.edges, e.id = "a-c" ∧ e ∈ importedFile.swapped.edges := by
  let e : EdgeRow := { id := "a-c", fromId := "a.ts", toId := "c.ts", kind := .imports, resolved := true }
  let n : NodeRow := { id := "a.ts", kind := .file, language := "typescript" }
  have he : e ∈ importedFile.live.edges := by decide
  have hn : n ∈ importedFile.live.nodes := by decide
  refine ⟨importedFile_only, e, he, rfl, ?_⟩
  refine (foreign_edge_left_iff importedFile importedFile_only he hn rfl (by decide) (by decide)).mpr ⟨by decide, ?_⟩
  exact fun s hs => absurd hs not_mem_nil

/-- An edge of another language into an unchanged file goes with the swap. -/
theorem imported_file_edge_lost : importedFile.staging.HoldsOnly importedFile.language ∧
    ∃ e ∈ importedFile.live.edges, ∃ n ∈ importedFile.live.nodes, n.id = e.fromId ∧ n.language ≠ "rust" ∧
      importedFile.swapped.nodes.contains e.toId = true ∧ e ∉ importedFile.swapped.edges :=
  ⟨importedFile_only, { id := "a-b", fromId := "a.ts", toId := "b.rs", kind := .imports, resolved := true }, by decide,
    { id := "a.ts", kind := .file, language := "typescript" }, by decide, rfl, by decide, by decide, by decide⟩

end GMesh
