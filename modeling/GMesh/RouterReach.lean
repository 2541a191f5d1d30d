import GMesh.RouterSession

namespace GMesh

open KeyedTable List

variable {W P : Type} {root : P} {which : Which P}

namespace Router

def openIds (r : Router W P) : List Nat := r.openUpstreams.map Upstream.id

def frontId (r : Router W P) : Option Nat := r.front.live?.map Upstream.id

variable {r : Router W P} {u : Upstream P}

theorem mem_openUpstreams : u ∈ r.openUpstreams ↔ r.front = .live u ∨ Slot.live u ∈ r.subs ∨ u ∈ r.retired := by
  unfold openUpstreams
  rw [mem_append, mem_append, or_assoc, mem_filterMap]
  refine or_congr ?_ (or_congr_left ?_)
  · cases hf : r.front with
    | live v => simp [Slot.live?, eq_comm]
    | lost p => simp [Slot.live?]
  · constructor
    · rintro ⟨slot, hs, hl⟩
      cases slot with
      | live v =>
        have hv : v = u := Option.some.inj hl
        rw [← hv]
        exact hs
      | lost p => cases hl
    · exact fun hs => ⟨.live u, hs, rfl⟩

variable {id : Nat}

theorem mem_openIds : id ∈ r.openIds ↔ ∃ u ∈ r.openUpstreams, u.id = id :=
  mem_map

theorem frontId_of_front {o : Option (Upstream P)} (h : r.front.live? = o) : r.frontId = o.map Upstream.id :=
  congrArg _ h

theorem frontId_mem (h : r.frontId = some id) : id ∈ r.openIds := by
  unfold frontId at h
  cases hf : r.front with
  | live u =>
    rw [hf] at h
    exact mem_openIds.mpr ⟨u, mem_openUpstreams.mpr (.inl hf), Option.some.inj h⟩
  | lost p =>
    rw [hf] at h
    cases h

theorem upstream_isSome (h : id ∈ r.openIds) : ∃ u, r.upstream id = some u ∧ u.id = id := by
  obtain ⟨u, hu, hid⟩ := mem_openIds.mp h
  have hs : (r.upstream id).isSome := by
    unfold upstream
    rw [find?_isSome]
    exact ⟨u, hu, by simp [hid]⟩
  obtain ⟨v, hv⟩ := Option.isSome_iff_exists.mp hs
  exact ⟨v, hv, by simpa using find?_some hv⟩

variable [DecidableEq P]

theorem liveSlot_mem (h : r.liveSlot which = some u) : u ∈ r.openUpstreams := by
  obtain ⟨slot, hs, hl⟩ := Option.bind_eq_some_iff.mp h
  cases slot with
  | lost p => cases hl
  | live v =>
    have hv : v = u := Option.some.inj hl
    subst hv
    rw [mem_openUpstreams]
    have hsub : ∀ p, r.subs.find? p = some (.live v) → Slot.live v ∈ r.subs :=
      fun p hp => (find?_eq_some_iff.mp hp).1
    cases which with
    | front => exact .inl (Option.some.inj hs)
    | project p => exact .inr (.inl (hsub p hs))
    | current =>
      unfold slot at hs
      cases hsel : r.selected with
      | none =>
        rw [hsel] at hs
        exact .inl (Option.some.inj hs)
      | some p =>
        rw [hsel] at hs
        exact .inr (.inl (hsub p hs))

end Router

namespace Held

@[simp] theorem releaseIfDrained_router (h : Held W P) (id : Nat) : (h.releaseIfDrained id).router = h.router := by
  unfold releaseIfDrained
  split
  next => rfl
  next => split <;> rfl

@[simp] theorem releaseIfDrained_sent (h : Held W P) (id : Nat) : (h.releaseIfDrained id).sent = h.sent := by
  unfold releaseIfDrained
  split
  next => rfl
  next => split <;> rfl

@[simp] theorem releaseIfDrained_spawned (h : Held W P) (id : Nat) : (h.releaseIfDrained id).spawned = h.spawned := by
  unfold releaseIfDrained
  split
  next => rfl
  next => split <;> rfl

/-- What moving upstreams between the pool and the retired list leaves alone. None is lost, and none is new but
`extra`. -/
structure Moves (extra : List (Upstream P)) (h h' : Held W P) : Prop where
  keeps : ∀ u ∈ h.router.openUpstreams, u ∈ h'.router.openUpstreams
  adds : ∀ u ∈ h'.router.openUpstreams, u ∈ h.router.openUpstreams ∨ u ∈ extra
  placed : ∀ u ∈ extra, u ∈ h'.router.openUpstreams
  frame : h' = { h with
    halfClosed := h'.halfClosed
    router := { h.router with subs := h'.router.subs, lru := h'.router.lru, retired := h'.router.retired } }

variable {extra : List (Upstream P)}

theorem Moves.trans {h h' h'' : Held W P} (a : Moves extra h h') (b : Moves [] h' h'') : Moves extra h h'' where
  keeps u hu := b.keeps u (a.keeps u hu)
  adds u hu := by
    rcases b.adds u hu with hu | hu
    · exact a.adds u hu
    · exact nomatch hu
  placed u hu := b.keeps u (a.placed u hu)
  frame := by
    have ha := a.frame
    rw [b.frame, ha]

theorem retireSlot_router (h : Held W P) (slot : Option (Slot P)) :
    (h.retireSlot slot).router = { h.router with retired := h.router.retired ++ (slot.bind Slot.live?).toList } := by
  unfold retireSlot
  split
  next u => simp [retire, Slot.live?]
  next => simp [Slot.live?]
  next => simp

theorem retireSlot_frame (h : Held W P) (slot : Option (Slot P)) :
    h.retireSlot slot = { h with
      halfClosed := (h.retireSlot slot).halfClosed
      router := { h.router with retired := (h.retireSlot slot).router.retired } } := by
  unfold retireSlot
  split
  next u =>
    unfold retire releaseIfDrained
    split
    next => rfl
    next => split <;> rfl
  next => rfl
  next => rfl

variable {subs : KeyedTable (Slot.root (P := P))} [DecidableEq P]

theorem mem_live_find? {p : P} {u : Upstream P} :
    u ∈ ((subs.find? p).bind Slot.live?).toList ↔ Slot.live u ∈ subs ∧ u.root = p := by
  rw [Option.mem_toList, Option.bind_eq_some_iff]
  constructor
  · rintro ⟨slot, hs, hl⟩
    obtain ⟨hm, hk⟩ := find?_eq_some_iff.mp hs
    cases slot with
    | lost q => cases hl
    | live v =>
      have hv : v = u := Option.some.inj hl
      subst hv
      exact ⟨hm, hk⟩
  · rintro ⟨hm, hk⟩
    exact ⟨.live u, find?_eq_some_iff.mpr ⟨hm, hk⟩, rfl⟩

variable (h : Held W P)

include h

theorem moves_replace (p : P)
    (hsubs : ∀ u, Slot.live u ∈ subs ↔ (Slot.live u ∈ h.router.subs ∧ u.root ≠ p) ∨ u ∈ extra) :
    Moves extra h (retireSlot { h with router := { h.router with subs := subs } } (h.router.subs.find? p)) := by
  have hr := retireSlot_router { h with router := { h.router with subs := subs } } (h.router.subs.find? p)
  have hmem : ∀ u, u ∈ (retireSlot { h with router := { h.router with subs := subs } }
      (h.router.subs.find? p)).router.openUpstreams ↔ u ∈ h.router.openUpstreams ∨ u ∈ extra := by
    intro u
    rw [Router.mem_openUpstreams, Router.mem_openUpstreams, hr]
    simp only [mem_append, mem_live_find?, hsubs]
    tauto
  refine ⟨fun u hu => (hmem u).mpr (.inl hu), fun u hu => (hmem u).mp hu, fun u hu => (hmem u).mpr (.inr hu), ?_⟩
  have hf := retireSlot_frame { h with router := { h.router with subs := subs } } (h.router.subs.find? p)
  rw [hr] at hf ⊢
  exact hf

theorem moves_remove (p : P) :
    Moves [] h (retireSlot { h with router := { h.router with subs := h.router.subs.erase p } }
      (h.router.subs.find? p)) := by
  apply moves_replace
  intro u
  rw [mem_erase]
  simp only [not_mem_nil, or_false]
  rfl

omit [DecidableEq P] in
theorem moves_lru (lru : List P) : Moves [] h { h with router := { h.router with lru := lru } } where
  keeps _ hu := hu
  adds _ hu := .inl hu
  placed _ hu := absurd hu not_mem_nil
  frame := rfl

theorem moves_evict (lru : List P) : Moves [] h (h.evict lru) := by
  induction lru generalizing h with
  | nil => exact moves_lru h []
  | cons oldest used ih =>
    unfold evict
    split
    next => exact (moves_remove h oldest).trans (ih _)
    next => exact moves_lru h (oldest :: used)

omit h in
theorem touch_eq (r : Router W P) (p : P) : r.touch p = { r with lru := (r.touch p).lru } := by
  unfold Router.touch
  split <;> rfl

theorem moves_admitUpstream (u : Upstream P) : Moves [u] h (h.admitUpstream u) := by
  have hplace : Moves [u] h (retireSlot { h with router := { h.router with subs := h.router.subs.put (.live u) } }
      (h.router.subs.find? u.root)) := by
    apply moves_replace
    intro v
    rw [mem_put, mem_singleton, or_comm, Slot.live.injEq]
    rfl
  unfold admitUpstream
  dsimp only
  rw [touch_eq]
  exact (hplace.trans (moves_lru _ _)).trans (moves_evict _ _)

end Held

namespace Router

structure Numbered (r : Router W P) : Prop where
  lt_next : ∀ id ∈ r.openIds, id < r.nextUpstream
  selected_ne : r.selected ≠ some r.root

end Router

namespace Held

/-- Routing a frame opens and moves upstreams, drops none, replaces the front only when it is lost, and leaves the
books. -/
structure Grows (h h' : Held W P) : Prop where
  root : h'.router.root = h.router.root
  pending : h'.router.pending = h.router.pending
  selectIds : h'.router.selectIds = h.router.selectIds
  clientDone : h'.router.clientDone = h.router.clientDone
  selected : h'.router.selected = h.router.selected
  next_le : h.router.nextUpstream ≤ h'.router.nextUpstream
  keeps : ∀ id ∈ h.router.openIds, id ∈ h'.router.openIds
  adds : ∀ id ∈ h'.router.openIds, id ∈ h.router.openIds ∨
    (h.router.nextUpstream ≤ id ∧ id < h'.router.nextUpstream)
  front_kept : ∀ id, h.router.frontId = some id → h'.router.frontId = some id
  front_new : ∀ id, h'.router.frontId = some id → h.router.frontId = some id ∨ h.router.nextUpstream ≤ id
  spawned : ∀ p ∈ h'.spawned, p ∈ h.spawned ∨ (h.router.nextUpstream ≤ p.1 ∧ p.1 < h'.router.nextUpstream ∧
    p.1 ∈ h'.router.openIds ∧ (p.2 = true ↔ h'.router.frontId = some p.1))

variable {h h' : Held W P} (env : Surroundings root)

theorem Grows.of_same (hroot : h'.router.root = h.router.root) (hpending : h'.router.pending = h.router.pending)
    (hselect : h'.router.selectIds = h.router.selectIds) (hdone : h'.router.clientDone = h.router.clientDone)
    (hselected : h'.router.selected = h.router.selected) (hnext : h'.router.nextUpstream = h.router.nextUpstream)
    (hfront : h'.router.front = h.router.front) (hopen : ∀ id, id ∈ h'.router.openIds ↔ id ∈ h.router.openIds)
    (hspawned : h'.spawned = h.spawned) : Grows h h' := by
  have hf : h'.router.frontId = h.router.frontId := Router.frontId_of_front (hfront ▸ rfl)
  refine ⟨hroot, hpending, hselect, hdone, hselected, Nat.le_of_eq hnext.symm, ?_, ?_, ?_, ?_, ?_⟩
  · exact fun id hid => (hopen id).mpr hid
  · exact fun id hid => .inl ((hopen id).mp hid)
  · exact fun id hid => hf.trans hid
  · exact fun id hid => .inl (hf.symm.trans hid)
  · intro p hp
    rw [hspawned] at hp
    exact .inl hp

theorem Grows.refl (h : Held W P) : Grows h h :=
  Grows.of_same rfl rfl rfl rfl rfl rfl rfl (fun _ => .rfl) rfl

theorem Grows.trans {h'' : Held W P} (a : Grows h h') (b : Grows h' h'') : Grows h h'' := by
  refine ⟨b.root.trans a.root, b.pending.trans a.pending, b.selectIds.trans a.selectIds,
    b.clientDone.trans a.clientDone, b.selected.trans a.selected, Nat.le_trans a.next_le b.next_le, ?_, ?_, ?_, ?_, ?_⟩
  · exact fun id hid => b.keeps id (a.keeps id hid)
  · intro id hid
    have hn := a.next_le
    have hm := b.next_le
    rcases b.adds id hid with hid | hid
    · rcases a.adds id hid with hid | hid
      · exact .inl hid
      · exact .inr ⟨hid.1, by omega⟩
    · exact .inr ⟨by omega, hid.2⟩
  · exact fun id hid => b.front_kept id (a.front_kept id hid)
  · intro id hid
    have hn := a.next_le
    rcases b.front_new id hid with hid | hid
    · exact a.front_new id hid
    · exact .inr (by omega)
  · intro p hp
    have hn := a.next_le
    have hm := b.next_le
    rcases b.spawned p hp with hp | ⟨h1, h2, h3, h4⟩
    · rcases a.spawned p hp with hp | ⟨h1, h2, h3, h4⟩
      · exact .inl hp
      · refine .inr ⟨h1, by omega, b.keeps _ h3, ?_⟩
        rw [h4]
        constructor
        · exact b.front_kept p.1
        · intro hf
          rcases b.front_new p.1 hf with hf | hf
          · exact hf
          · omega
    · exact .inr ⟨by omega, h2, h3, h4⟩

theorem Moves.openIds {extra : List (Upstream P)} (m : Moves extra h h') {id : Nat} :
    id ∈ h'.router.openIds ↔ id ∈ h.router.openIds ∨ ∃ u ∈ extra, u.id = id := by
  rw [Router.mem_openIds, Router.mem_openIds]
  constructor
  · rintro ⟨u, hu, hid⟩
    rcases m.adds u hu with hu | hu
    · exact .inl ⟨u, hu, hid⟩
    · exact .inr ⟨u, hu, hid⟩
  · rintro (⟨u, hu, hid⟩ | ⟨u, hu, hid⟩)
    · exact ⟨u, m.keeps u hu, hid⟩
    · exact ⟨u, m.placed u hu, hid⟩

theorem handshake_grows (h : Held W P) (target : P) :
    Grows h (h.handshake env target).1 ∧ (h.handshake env target).1.sent = h.sent ∧
      (h.handshake env target).1.router.frontId = h.router.frontId := by
  unfold handshake
  split
  next => exact ⟨.refl h, rfl, rfl⟩
  next => exact ⟨.of_same rfl rfl rfl rfl rfl rfl rfl (fun _ => .rfl) rfl, rfl, rfl⟩

theorem recordGuidance_grows [DecidableEq P] (h : Held W P) (target : P) (text : String) :
    Grows h (h.recordGuidance target text) ∧ (h.recordGuidance target text).sent = h.sent ∧
      (h.recordGuidance target text).router.frontId = h.router.frontId := by
  unfold recordGuidance
  split
  next => exact ⟨.refl h, rfl, rfl⟩
  next => exact ⟨.of_same rfl rfl rfl rfl rfl rfl rfl (fun _ => .rfl) rfl, rfl, rfl⟩

theorem Grows.numbered (g : Grows h h') (hn : h.router.Numbered) : h'.router.Numbered := by
  refine ⟨?_, ?_⟩
  · intro id hid
    have hle := g.next_le
    rcases g.adds id hid with hid | hid
    · have hlt := hn.lt_next id hid
      omega
    · exact hid.2
  · rw [g.selected, g.root]
    exact hn.selected_ne

theorem markRestarted_grows (h : Held W P) (restart : Bool) (id : Nat) :
    Grows h (h.markRestarted restart id) ∧ (h.markRestarted restart id).sent = h.sent := by
  unfold markRestarted
  split
  next => exact ⟨.of_same rfl rfl rfl rfl rfl rfl rfl (fun _ => .rfl) rfl, rfl⟩
  next => exact ⟨.refl h, rfl⟩

theorem placeFront_openIds (h : Held W P) (u : Upstream P) (hfront : h.router.frontId = none) (id : Nat) :
    id ∈ (h.placeFront u).router.openIds ↔ id ∈ h.router.openIds ∨ id = u.id := by
  have hnone : ∀ v, h.router.front ≠ .live v := by
    intro v hv
    cases hfront.symm.trans (Router.frontId_of_front (congrArg Slot.live? hv))
  rw [Router.mem_openIds, Router.mem_openIds]
  simp only [Router.mem_openUpstreams, placeFront, Slot.live.injEq, hnone, false_or]
  constructor
  · rintro ⟨v, rfl | hv, hid⟩
    · exact .inr hid.symm
    · exact .inl ⟨v, hv, hid⟩
  · rintro (⟨v, hv, hid⟩ | hid)
    · exact ⟨v, .inr hv, hid⟩
    · exact ⟨u, .inl rfl, hid.symm⟩

theorem installFront_grows (h : Held W P) (u : Upstream P) (hu : u.id = h.router.nextUpstream)
    (hfront : h.router.frontId = none) :
    Grows h ((h.number true).placeFront u) ∧ u.id ∈ ((h.number true).placeFront u).router.openIds := by
  have hopen : ∀ id, id ∈ ((h.number true).placeFront u).router.openIds ↔ id ∈ h.router.openIds ∨ id = u.id :=
    placeFront_openIds (h.number true) u hfront
  have hid := (hopen u.id).mpr (.inr rfl)
  have hlt : u.id < h.router.nextUpstream + 1 := by omega
  refine ⟨⟨rfl, rfl, rfl, rfl, rfl, Nat.le_succ _, ?_, ?_, ?_, ?_, ?_⟩, hid⟩
  · exact fun id hid => (hopen id).mpr (.inl hid)
  · intro id hid
    rcases (hopen id).mp hid with hid | rfl
    · exact .inl hid
    · exact .inr ⟨by omega, hlt⟩
  · intro id hid
    rw [hfront] at hid
    cases hid
  · intro id hid
    have he : u.id = id := Option.some.inj hid
    exact .inr (by omega)
  · intro p hp
    rcases mem_append.mp hp with hp | hp
    · exact .inl hp
    · rw [mem_singleton.mp hp, ← hu]
      exact .inr ⟨by omega, hlt, hid, by simp [placeFront, Router.frontId, Slot.live?]⟩

variable [DecidableEq P]

theorem installSub_grows (h : Held W P) (u : Upstream P) (hu : u.id = h.router.nextUpstream)
    (hn : h.router.Numbered) :
    Grows h ((h.number false).admitUpstream u) ∧ ((h.number false).admitUpstream u).sent = h.sent ∧
      u.id ∈ ((h.number false).admitUpstream u).router.openIds := by
  have hm := moves_admitUpstream (h.number false) u
  have hopen : ∀ id, id ∈ ((h.number false).admitUpstream u).router.openIds ↔ id ∈ h.router.openIds ∨ id = u.id := by
    intro id
    rw [hm.openIds]
    simp only [mem_singleton, exists_eq_left]
    exact or_congr_right eq_comm
  have hid := (hopen u.id).mpr (.inr rfl)
  rw [hm.frame] at hopen hid ⊢
  refine ⟨⟨rfl, rfl, rfl, rfl, rfl, Nat.le_succ _, fun id hid => (hopen id).mpr (.inl hid), ?_, fun _ hf => hf,
    fun _ hf => .inl hf, ?_⟩, rfl, hid⟩
  · intro id hid
    rcases (hopen id).mp hid with hid | rfl
    · exact .inl hid
    · exact .inr ⟨Nat.le_of_eq hu.symm, hu ▸ Nat.lt_succ_self _⟩
  · intro p hp
    rcases mem_append.mp hp with hp | hp
    · exact .inl hp
    · rw [mem_singleton.mp hp]
      refine .inr ⟨Nat.le_refl _, Nat.lt_succ_self _, hu ▸ hid, ?_⟩
      simp only [Bool.false_eq_true, false_iff]
      exact fun hf => absurd (hn.lt_next _ (Router.frontId_mem hf)) (Nat.lt_irrefl _)

theorem install_grows (h : Held W P) (target : P) (restart : Bool) (hn : h.router.Numbered)
    (hfront : target = h.router.root → h.router.frontId = none) :
    Grows h (h.install target restart).1 ∧ (h.install target restart).1.sent = h.sent ∧
      (h.install target restart).2.id ∈ (h.install target restart).1.router.openIds := by
  unfold install
  split
  next ht =>
    have hi := installFront_grows h ⟨h.router.nextUpstream, target⟩ rfl (hfront ht)
    have hm := markRestarted_grows ((h.number true).placeFront ⟨h.router.nextUpstream, target⟩) restart
      h.router.nextUpstream
    exact ⟨hi.1.trans hm.1, hm.2, hm.1.keeps _ hi.2⟩
  next =>
    have hi := installSub_grows h ⟨h.router.nextUpstream, target⟩ rfl hn
    have hm := markRestarted_grows ((h.number false).admitUpstream ⟨h.router.nextUpstream, target⟩) restart
      h.router.nextUpstream
    exact ⟨hi.1.trans hm.1, hm.2.trans hi.2.1, hm.1.keeps _ hi.2.2⟩

/-- A connect drops nothing, and the upstream that it returns is open. -/
theorem connect_grows (h : Held W P) (which : Which P) (replay restart : Bool)
    (hn : h.router.Numbered) (hfront : h.router.rootOf which = h.router.root → h.router.frontId = none) :
    Grows h (h.connect env which replay restart).1 ∧ (h.connect env which replay restart).1.sent = h.sent ∧
      ∀ u, (h.connect env which replay restart).2 = .ok u →
        u.id ∈ (h.connect env which replay restart).1.router.openIds := by
  unfold connect
  dsimp only
  split
  next => exact ⟨.refl h, rfl, by simp⟩
  next =>
    split
    next =>
      have hs := handshake_grows env h (h.router.rootOf which)
      split
      next shaken error he =>
        rw [he] at hs
        exact ⟨hs.1, hs.2.1, by simp⟩
      next shaken text he =>
        rw [he] at hs
        have hg := recordGuidance_grows shaken (h.router.rootOf which) text
        have hboth := hs.1.trans hg.1
        have hfree : h.router.rootOf which = (shaken.recordGuidance (h.router.rootOf which) text).router.root →
            (shaken.recordGuidance (h.router.rootOf which) text).router.frontId = none := by
          intro ht
          rw [hg.2.2, hs.2.2]
          exact hfront (ht.trans hboth.root)
        have hi := install_grows _ (h.router.rootOf which) restart (hboth.numbered hn) hfree
        exact ⟨hboth.trans hi.1, hi.2.1.trans (hg.2.1.trans hs.2.1), by simpa using hi.2.2⟩
    next =>
      have hi := install_grows h (h.router.rootOf which) restart hn hfront
      exact ⟨hi.1, hi.2.1, by simpa using hi.2.2⟩

end Held

/-- Answers the shim gives to requests it forwards nowhere. -/
def Why.isRefusal : Why P → Bool
  | .frontEnded => false
  | .ended _ _ _ => false
  | _ => true

namespace Held

/-- A frame gets an open upstream or, as a request, one answer of the shim's own. -/
structure Targets (h : Held W P) (request : Option (W × String)) (r : Held W P × Option (Upstream P)) : Prop where
  grows : Grows h r.1
  target : ∀ u, r.2 = some u → u.id ∈ r.1.router.openIds ∧ r.1.sent = h.sent
  answer : r.2 = none → ∀ id method, request = some (id, method) →
    ∃ why : Why P, why.isRefusal = true ∧ r.1.sent = h.sent ++ [.own (some id) method why]
  silent : r.2 = none → request = none → r.1.sent = h.sent

variable {h h' : Held W P}

theorem Targets.of_open {u : Upstream P} (g : Grows h h') (hs : h'.sent = h.sent)
    (hu : u.id ∈ h'.router.openIds) (request : Option (W × String)) : Targets h request (h', some u) := by
  refine ⟨g, ?_, by simp, by simp⟩
  rintro _ ⟨⟩
  exact ⟨hu, hs⟩

theorem Targets.of_grows {request : Option (W × String)} {r : Held W P × Option (Upstream P)}
    (g : Grows h h') (hs : h'.sent = h.sent) (ht : Targets h' request r) : Targets h request r where
  grows := g.trans ht.grows
  target u hu := by
    rw [← hs]
    exact ht.target u hu
  answer hnone id method hq := by
    rw [← hs]
    exact ht.answer hnone id method hq
  silent hnone hq := (ht.silent hnone hq).trans hs

theorem refuse_targets (h : Held W P) (request : Option (W × String)) {why : Why P} (hw : why.isRefusal) :
    Targets h request (h.refuse request why) := by
  unfold refuse
  split
  next id method =>
    refine ⟨.of_same rfl rfl rfl rfl rfl rfl rfl (fun _ => .rfl) rfl, by simp, ?_, by simp⟩
    intro _ id' method' hq
    obtain ⟨rfl, rfl⟩ := Prod.mk.inj (Option.some.inj hq)
    exact ⟨why, hw, rfl⟩
  next =>
    exact ⟨.refl h, by simp, by simp, fun _ _ => rfl⟩

variable [DecidableEq P]

theorem rootOf_front_free (hroot : h.router.root = root) (hn : h.router.Numbered)
    (hp : ∀ p, which = .project p → p ≠ root) (hl : h.router.liveSlot which = none)
    (ht : h.router.rootOf which = h.router.root) : h.router.frontId = none := by
  cases which with
  | front => exact Router.frontId_of_front hl
  | project p => exact absurd (ht.trans hroot) (hp p rfl)
  | current =>
    unfold Router.rootOf at ht
    unfold Router.liveSlot Router.slot at hl
    cases hs : h.router.selected with
    | none =>
      rw [hs] at hl
      exact Router.frontId_of_front hl
    | some p =>
      rw [hs] at ht
      have hne := hn.selected_ne
      rw [hs] at hne
      exact absurd (congrArg some ht) hne

variable (env : Surroundings root)

/-- A frame for a slot gets the upstream in it, or its request one answer. -/
theorem reach_targets (h : Held W P) (which : Which P) (replay : Bool) (request : Option (W × String))
    (hroot : h.router.root = root) (hn : h.router.Numbered) (hp : ∀ p, which = .project p → p ≠ root) :
    Targets h request (h.reach env which replay request) := by
  unfold reach
  split
  next u hu =>
    have htouch : Grows h { h with router := h.router.touch u.root } := by
      rw [touch_eq]
      exact .of_same rfl rfl rfl rfl rfl rfl rfl (fun _ => .rfl) rfl
    exact .of_open htouch rfl (htouch.keeps _ (Router.mem_openIds.mpr ⟨_, Router.liveSlot_mem hu, rfl⟩)) request
  next hl =>
    split
    next => exact ⟨.refl h, by simp, by simp, fun _ _ => rfl⟩
    next id method =>
      have hc := connect_grows env h which replay (h.router.slot which).isSome hn (rootOf_front_free hroot hn hp hl)
      split
      next connected u he =>
        rw [he] at hc
        exact .of_open hc.1 hc.2.1 (hc.2.2 _ rfl) _
      next failed error he =>
        rw [he] at hc
        have hr := refuse_targets failed (some (id, method))
          (show (Why.unreachable (failed.router.rootOf which) error).isRefusal from rfl)
        exact .of_grows hc.1 hc.2.1 hr

theorem reachForToolsList_targets (h : Held W P) (request : Option (W × String)) (hn : h.router.Numbered) :
    Targets h request (h.reachForToolsList env request) := by
  unfold reachForToolsList
  split
  next u hu =>
    exact .of_open (.refl h) rfl (Router.frontId_mem (Router.frontId_of_front hu)) request
  next hl =>
    have hc := connect_grows env h .front true true hn (fun _ => Router.frontId_of_front hl)
    split
    next connected u he =>
      rw [he] at hc
      exact .of_open hc.1 hc.2.1 (hc.2.2 _ rfl) request
    next failed error he =>
      rw [he] at hc
      split
      next sub hsub =>
        have hlive : failed.router.liveSlot .current = some sub := by
          obtain ⟨slot, hs, hl⟩ := Option.bind_eq_some_iff.mp hsub
          obtain ⟨p, hsel, hfind⟩ := Option.bind_eq_some_iff.mp hs
          unfold Router.liveSlot Router.slot
          rw [hsel]
          exact Option.bind_eq_some_iff.mpr ⟨slot, hfind, hl⟩
        exact .of_open hc.1 hc.2.1 (Router.mem_openIds.mpr ⟨_, Router.liveSlot_mem hlive, rfl⟩) request
      next =>
        have hr := refuse_targets failed request (show (Why.unreachable failed.router.root error).isRefusal from rfl)
        exact .of_grows hc.1 hc.2.1 hr

omit [DecidableEq P] in
/-- The choice of a slot opens nothing, and its errors are refusals. -/
theorem route_grows (h : Held W P) (project : Option String) :
    Grows h (h.route env project).1 ∧ (h.route env project).1.sent = h.sent ∧
      (∀ which, (h.route env project).2 = .ok which → ∀ p, which = .project p → p ≠ root) ∧
      ∀ why, (h.route env project).2 = .error why → why.isRefusal := by
  unfold route
  split
  next =>
    refine ⟨.refl h, rfl, by simp, ?_⟩
    rintro why ⟨rfl⟩
    rfl
  next name =>
    have hasked : Grows h { h with router := { h.router with
        folder := some (h.router.folder.getD (!h.router.selections.isEmpty || env.isFolder)) } } :=
      Grows.of_same rfl rfl rfl rfl rfl rfl rfl (fun _ => .rfl) rfl
    dsimp only
    split
    next =>
      split
      next =>
        refine ⟨hasked, rfl, ?_, by simp⟩
        rintro which ⟨rfl⟩ p hp
        cases hp
      next =>
        refine ⟨hasked, rfl, by simp, ?_⟩
        rintro why ⟨rfl⟩
        rfl
    next =>
      split
      next p hres =>
        refine ⟨hasked, rfl, ?_, by simp⟩
        rintro which ⟨rfl⟩ q hq
        cases hq
        exact env.resolve_ne_root name _ hres
      next reason _ =>
        refine ⟨hasked, rfl, by simp, ?_⟩
        rintro why ⟨rfl⟩
        rfl

end Held

end GMesh
