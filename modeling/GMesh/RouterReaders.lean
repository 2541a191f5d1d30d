import GMesh.RouterBooks

namespace GMesh

open KeyedTable

variable {W P : Type} {root : P} {x : W} {e : Event W P}

theorem Reader.hand_of_reading {r : Reader W P} (h : r.phase = .reading) : r.hand = none := by
  unfold hand
  rw [h]

theorem Reader.hand_taken (r : Reader W P) (f : UpstreamFrame W P) (stamps : List (Stamp P)) :
    ({ r with phase := if r.isFront then .settled f stamps else .passing f stamps } : Reader W P).hand =
      f.responseId := by
  cases h : r.isFront <;> rfl

namespace Session

variable {s : Session W P} {r : Reader W P} {phase : Phase W P}

theorem mem_setPhase {q : Reader W P} :
    q ∈ (s.setPhase r phase).readers ↔ q = { r with phase } ∨ (q ∈ s.readers ∧ q.id ≠ r.id) :=
  mem_put

theorem Wired.setPhase (b : Wired root s) (hr : r ∈ s.readers) : Wired root (s.setPhase r phase) where
  root_eq := b.root_eq
  numbered := b.numbered
  reader_open q hq := by
    rcases mem_setPhase.mp hq with rfl | hq
    · exact b.reader_open r hr
    · exact b.reader_open q hq.1
  reader_front q hq := by
    rcases mem_setPhase.mp hq with rfl | hq
    · exact b.reader_front r hr
    · exact b.reader_front q hq.1

section

variable (hr : r ∈ s.readers)

include hr

variable {q : Reader W P}

theorem reader_eq (hq : q ∈ s.readers) (hid : q.id = r.id) : q = r :=
  s.readers.key_injective hq hr hid

theorem exists_reader_of_setPhase (hq : q ∈ (s.setPhase r phase).readers) : ∃ p ∈ s.readers, p.id = q.id := by
  rcases mem_setPhase.mp hq with rfl | hq
  · exact ⟨r, hr, rfl⟩
  · exact ⟨q, hq.1, rfl⟩

theorem gone_setPhase {u : Nat} (hgone : ∀ q ∈ s.readers, q.id ≠ u) : ∀ q ∈ (s.setPhase r phase).readers, q.id ≠ u := by
  intro q hq
  obtain ⟨p, hp, hid⟩ := exists_reader_of_setPhase hr hq
  exact hid ▸ hgone p hp

theorem held_setPhase (hq : q ∈ s.readers) (hqx : q.hand = some x)
    (hleft : r.hand = some x → ({ r with phase } : Reader W P).hand = some x) :
    ∃ p ∈ (s.setPhase r phase).readers, p.id = q.id ∧ p.hand = some x := by
  by_cases hqr : q.id = r.id
  · rw [reader_eq hr hq hqr] at hqx
    exact ⟨_, mem_setPhase.mpr (.inl rfl), hqr.symm, hleft hqx⟩
  · exact ⟨q, mem_setPhase.mpr (.inr ⟨hq, hqr⟩), rfl, hqx⟩

theorem exists_held_setPhase (hleft : r.hand = some x → ({ r with phase } : Reader W P).hand = some x) :
    (∃ q ∈ s.readers, q.hand = some x) → ∃ p ∈ (s.setPhase r phase).readers, p.hand = some x := by
  rintro ⟨q, hq, hqx⟩
  obtain ⟨p, hp, _, hpx⟩ := held_setPhase hr hq hqx hleft
  exact ⟨p, hp, hpx⟩

end

variable [DecidableEq W] (b : Books root s)

include b

section

variable (hr : r ∈ s.readers)

include hr

theorem Books.hand_unique {q : Reader W P} (hq : q ∈ s.readers) (hrx : r.hand = some x)
    (hqx : q.hand = some x) : q = r := by
  have h1 := b.answered _ _ (b.hand_answered r hr x hrx)
  have h2 := b.answered _ _ (b.hand_answered q hq x hqx)
  exact reader_eq hr hq (b.unique x _ _ h2 h1)

theorem Books.hand_not_pending (hx : r.hand = some x) {f : InFlight W} (hf : f ∈ s.router.pending) : f.request ≠ x := by
  rintro rfl
  have h1 := b.hand_answered r hr _ hx
  have h2 := b.unique _ _ _ (b.pending_forwarded f hf) (b.answered _ _ h1)
  exact b.pending_unanswered f hf (h2 ▸ h1)

/-- A reader may move on as long as it lets go of nothing it holds. -/
theorem Books.setPhase
    (hhand : ∀ x, ({ r with phase } : Reader W P).hand = some x → (x, r.id) ∈ s.answered ∧ s.replies x = 0)
    (hpass : ∀ f stamps, phase = .passing f stamps → ∀ x, f.responseId = some x → some x ∉ s.router.selectIds)
    (hleft : ∀ x, r.hand = some x → ({ r with phase } : Reader W P).hand = some x) :
    Books root (s.setPhase r phase) := by
  exact { b with
    toWired := b.toWired.setPhase hr
    hand_answered q hq x hx := by
      rcases mem_setPhase.mp hq with rfl | hq
      · exact (hhand x hx).1
      · exact b.hand_answered q hq.1 x hx
    hand_silent q hq x hx := by
      rcases mem_setPhase.mp hq with rfl | hq
      · exact (hhand x hx).2
      · exact b.hand_silent q hq.1 x hx
    passing_unselected q hq f stamps hp x hx := by
      rcases mem_setPhase.mp hq with rfl | hq
      · exact hpass f stamps hp x hx
      · exact b.passing_unselected q hq.1 f stamps hp x hx
    select_held x u hx ha := by
      obtain ⟨q, hq, rfl, hqx⟩ := b.select_held x u hx ha
      exact held_setPhase hr hq hqx (hleft x)
    unanswered_silent q hq x hx hn := by
      rcases mem_setPhase.mp hq with rfl | hq
      · exact b.unanswered_silent r hr x hx hn
      · exact b.unanswered_silent q hq.1 x hx hn
    complete x hx := (b.complete x hx).imp_right (Or.imp_right (Or.imp_left (exists_held_setPhase hr (hleft x))))
    origin e he x hx := (b.origin e he x hx).congr (fun _ => Iff.rfl) fun u _ hgone => gone_setPhase hr hgone }

def takeAnswer (s : Session W P) (r : Reader W P) (x : W) (pending : KeyedTable (InFlight.request (W := W)))
    (phase : Phase W P) : Session W P :=
  { s with
    router := { s.router with pending }
    readers := s.readers.put { r with phase }
    answered := s.answered ++ [(x, r.id)] }

/-- A taken answer is in its reader's hand, and its request no longer pending. -/
theorem Books.takeAnswer (hreading : r.hand = none) (hd : (x, r.id) ∈ s.delivered)
    (hna : (x, r.id) ∉ s.answered) {pending : KeyedTable (InFlight.request (W := W))}
    (hp : ∀ f, f ∈ pending ↔ f ∈ s.router.pending ∧ f.request ≠ x)
    (hhand : ({ r with phase } : Reader W P).hand = some x)
    (hpass : ∀ f stamps, phase = .passing f stamps → some x ∉ s.router.selectIds) :
    Books root (s.takeAnswer r x pending phase) := by
  have hforwarded := b.delivered x r.id hd
  have hanswered : ∀ y u, (y, u) ∈ (s.takeAnswer r x pending phase).answered ↔
      (y, u) ∈ s.answered ∨ (y = x ∧ u = r.id) := by
    intro y u
    simp [Session.takeAnswer]
  have hreaders : ∀ q, q ∈ (s.takeAnswer r x pending phase).readers ↔
      q = { r with phase } ∨ (q ∈ s.readers ∧ q.id ≠ r.id) := fun q => mem_put
  have hleft : ∀ y, r.hand = some y → ({ r with phase } : Reader W P).hand = some y :=
    fun y hy => nomatch hreading.symm.trans hy
  have hsilent := b.unanswered_silent r hr x hforwarded hna
  have hwired : Wired root (s.setPhase r phase) := b.toWired.setPhase hr
  exact { b with
    numbered := ⟨b.numbered.lt_next, b.numbered.selected_ne⟩
    reader_open := hwired.reader_open
    reader_front := hwired.reader_front
    answered y u hy := by
      rcases (hanswered y u).mp hy with hy | ⟨rfl, rfl⟩
      · exact b.answered y u hy
      · exact hforwarded
    pending_forwarded f hf := b.pending_forwarded f ((hp f).mp hf).1
    pending_open f hf := b.pending_open f ((hp f).mp hf).1
    pending_unanswered f hf ha := by
      obtain ⟨hf, hne⟩ := (hp f).mp hf
      rcases (hanswered _ _).mp ha with ha | ⟨he, _⟩
      · exact b.pending_unanswered f hf ha
      · exact hne he
    pending_silent f hf := b.pending_silent f ((hp f).mp hf).1
    hand_answered q hq y hy := by
      rw [hanswered]
      rcases (hreaders q).mp hq with rfl | hq
      · rw [hhand] at hy
        exact .inr ⟨(Option.some.inj hy).symm, rfl⟩
      · exact .inl (b.hand_answered q hq.1 y hy)
    hand_silent q hq y hy := by
      rcases (hreaders q).mp hq with rfl | hq
      · rw [hhand] at hy
        rw [← Option.some.inj hy]
        exact hsilent
      · exact b.hand_silent q hq.1 y hy
    passing_unselected q hq f stamps hph y hy := by
      rcases (hreaders q).mp hq with rfl | hq
      · rw [← hy, ← Reader.hand_of_passing hph, hhand]
        exact hpass f stamps hph
      · exact b.passing_unselected q hq.1 f stamps hph y hy
    select_held y u hy ha := by
      rcases (hanswered y u).mp ha with ha | ⟨rfl, rfl⟩
      · obtain ⟨q, hq, rfl, hqy⟩ := b.select_held y u hy ha
        exact held_setPhase hr hq hqy (hleft y)
      · exact ⟨_, (hreaders _).mpr (.inl rfl), rfl, hhand⟩
    unanswered_silent q hq y hy hn := by
      have hn' : (y, q.id) ∉ s.answered := fun ha => hn ((hanswered y q.id).mpr (.inl ha))
      rcases (hreaders q).mp hq with rfl | hq
      · exact b.unanswered_silent r hr y hy hn'
      · exact b.unanswered_silent q hq.1 y hy hn'
    complete y hy := by
      by_cases hxy : y = x
      · subst hxy
        exact .inr (.inr (.inl ⟨_, (hreaders _).mpr (.inl rfl), hhand⟩))
      · refine (b.complete y hy).imp_right (Or.imp ?_ (Or.imp_left (exists_held_setPhase hr (hleft y))))
        rintro ⟨f, hf, hfy⟩
        exact ⟨f, (hp f).mpr ⟨hf, fun he => hxy (hfy.symm.trans he)⟩, hfy⟩
    origin e he y hy := (b.origin e he y hy).congr (fun _ => Iff.rfl) fun u _ hgone => gone_setPhase hr hgone }

end

def passOn (s : Session W P) (r : Reader W P) (e : Event W P) : Session W P :=
  { s.setPhase r .reading with out := s.out ++ [e] }

omit b in
theorem replies_passOn (y : W) : (s.passOn r e).replies y = s.replies y + if e.answers = some y then 1 else 0 :=
  countP_snoc s.out e y

/-- An answer that is passed on is the one reply to its request. -/
theorem Books.passOn (hr : r ∈ s.readers) (he : e.answers = r.hand)
    (hsel : ∀ x, r.hand = some x → some x ∉ s.router.selectIds) (hfrom : ∀ x, r.hand = some x → s.FromRight x e) :
    Books root (s.passOn r e) := by
  have hzero : ∀ y, r.hand ≠ some y → s.replies y = 0 → (s.passOn r e).replies y = 0 := by
    intro y hne h0
    rw [replies_passOn, he, if_neg hne, h0]
  have hwired : Wired root (s.setPhase r .reading) := b.toWired.setPhase hr
  have hreaders : ∀ q, q ∈ (s.passOn r e).readers ↔
      q = { r with phase := .reading } ∨ (q ∈ s.readers ∧ q.id ≠ r.id) := fun q => mem_put
  have hother : ∀ q ∈ (s.passOn r e).readers, ∀ y, q.hand = some y → q ∈ s.readers ∧ r.hand ≠ some y := by
    intro q hq y hy
    rcases (hreaders q).mp hq with rfl | hq
    · cases hy
    · exact ⟨hq.1, fun hry => hq.2 (congrArg Reader.id (b.hand_unique hr hq.1 hry hy))⟩
  exact { b with
    reader_open := hwired.reader_open
    reader_front := hwired.reader_front
    pending_silent f hf := hzero _ (fun hrx => b.hand_not_pending hr hrx hf rfl) (b.pending_silent f hf)
    hand_answered q hq y hy := b.hand_answered q (hother q hq y hy).1 y hy
    hand_silent q hq y hy := hzero y (hother q hq y hy).2 (b.hand_silent q (hother q hq y hy).1 y hy)
    passing_unselected q hq f stamps hp y hy := by
      have hqy := (Reader.hand_of_passing hp).trans hy
      exact b.passing_unselected q (hother q hq y hqy).1 f stamps hp y hy
    select_silent y hy := hzero y (fun hry => hsel y hry hy) (b.select_silent y hy)
    select_held y u hy ha := by
      obtain ⟨q, hq, rfl, hqy⟩ := b.select_held y u hy ha
      exact held_setPhase hr hq hqy fun hry => absurd hy (hsel y hry)
    unanswered_silent q hq y hy hn := by
      obtain ⟨p, hp, hid⟩ := exists_reader_of_setPhase hr hq
      rw [← hid] at hy hn
      refine hzero y (fun hry => ?_) (b.unanswered_silent p hp y hy hn)
      have ha := b.hand_answered r hr y hry
      rw [b.unique y p.id r.id hy (b.answered _ _ ha)] at hn
      exact hn ha
    complete y hy := by
      rw [replies_passOn, he]
      by_cases hry : r.hand = some y
      · rw [if_pos hry]
        exact .inr (.inr (.inr (Nat.le_add_left 1 _)))
      · rw [if_neg hry]
        exact (b.complete y hy).imp_right (Or.imp_right (Or.imp_left (exists_held_setPhase hr fun h => absurd h hry)))
    atMostOne y := by
      rw [replies_passOn, he]
      by_cases hry : r.hand = some y
      · have hsilent := b.hand_silent r hr y hry
        rw [if_pos hry]
        omega
      · rw [if_neg hry]
        exact b.atMostOne y
    fresh y hy := by
      refine hzero y (fun hry => ?_) (b.fresh y hy)
      exact hy (b.requested _ _ (b.answered _ _ (b.hand_answered r hr y hry)))
    origin f hf y hy := by
      rcases List.mem_append.mp hf with hf | hf
      · exact (b.origin f hf y hy).congr (fun _ => Iff.rfl) fun u _ hu => gone_setPhase hr hu
      · rw [List.mem_singleton.mp hf] at hy ⊢
        rw [he] at hy
        exact (hfrom y hy).congr (fun _ => Iff.rfl) fun u _ hu => gone_setPhase hr hu }

theorem Books.unselect (id : Option W) :
    Books root { s with router := { s.router with selectIds := s.router.selectIds.erase id } } := by
  have hmem : ∀ x, some x ∈ s.router.selectIds.erase id → some x ∈ s.router.selectIds :=
    fun x hx => List.mem_of_mem_erase hx
  refine { b with
    numbered := ⟨b.numbered.lt_next, b.numbered.selected_ne⟩, passing_unselected := ?_
    select_nodup := b.select_nodup.erase id, select_front := fun x hx => b.select_front x (hmem x hx)
    select_silent := fun x hx => b.select_silent x (hmem x hx)
    select_held := fun x u hx => b.select_held x u (hmem x hx) }
  exact fun q hq f stamps hp x hx hs => b.passing_unselected q hq f stamps hp x hx (hmem x hs)

theorem Books.reselect {t : P} (ht : t ≠ root) (selections guided : List P) :
    Books root { s with router := { s.router with selected := some t, selections, guided } } := by
  have hne : some t ≠ some s.router.root := by
    rw [b.root_eq]
    exact fun he => ht (Option.some.inj he)
  exact { b with numbered := ⟨b.numbered.lt_next, hne⟩ }

end Session

namespace Held

variable (h : Held W P) (upstream : Nat)

include h

theorem stamps_frame [DecidableEq P] (served : P) : (h.stamps upstream served).1 = { h with router := { h.router with
      restarted := (h.stamps upstream served).1.router.restarted
      guided := (h.stamps upstream served).1.router.guided } } := rfl

theorem releaseIfDrained_frame (id : Nat) :
    h.releaseIfDrained id = { h with halfClosed := (h.releaseIfDrained id).halfClosed } := by
  unfold releaseIfDrained
  split
  next => rfl
  next => split <;> rfl

variable [DecidableEq W] [DecidableEq P]

theorem settle_frame (x : W) :
    (h.settle upstream x).1 = { h with
      halfClosed := (h.settle upstream x).1.halfClosed
      router := { h.router with
        pending := (h.settle upstream x).1.router.pending
        restarted := (h.settle upstream x).1.router.restarted
        guided := (h.settle upstream x).1.router.guided } } := by
  unfold settle
  split
  next => rfl
  next f hf =>
    split
    next => rfl
    next =>
      dsimp only
      split
      next =>
        rw [releaseIfDrained_frame]
      next =>
        split
        next => rw [releaseIfDrained_frame]
        next => rw [stamps_frame, releaseIfDrained_frame]

theorem settle_pending (x : W) (hx : ∀ f ∈ h.router.pending, f.request = x → f.upstream = upstream)
    (f : InFlight W) : f ∈ (h.settle upstream x).1.router.pending ↔ f ∈ h.router.pending ∧ f.request ≠ x := by
  unfold settle
  split
  next hnone =>
    have hn := find?_eq_none_iff.mp hnone
    exact ⟨fun hf => ⟨hf, hn f hf⟩, fun hf => hf.1⟩
  next g hg =>
    obtain ⟨hm, hk⟩ := find?_eq_some_iff.mp hg
    rw [if_neg (not_not.mpr (hx g hm hk))]
    dsimp only
    have herase : ∀ f, f ∈ h.router.pending.erase x ↔ f ∈ h.router.pending ∧ f.request ≠ x :=
      fun f => mem_erase
    split
    next =>
      rw [releaseIfDrained_router]
      exact herase f
    next =>
      split
      next =>
        rw [releaseIfDrained_router]
        exact herase f
      next =>
        rw [stamps_frame, releaseIfDrained_router]
        exact herase f

end Held

namespace Session

variable {s : Session W P} {r : Reader W P} [DecidableEq W]

theorem Books.of_relabel (b : Books root s) {t : Session W P}
    (hrouter : Held.Grows s.held t.held) (hreaders : t.readers = s.readers) (hout : t.out = s.out)
    (hclient : t.client = s.client) (hreq : t.requested = s.requested) (hcan : t.cancelled = s.cancelled)
    (hfor : t.forwarded = s.forwarded) (hdel : t.delivered = s.delivered) (hans : t.answered = s.answered) :
    Books root t := by
  have hg := b.grow hrouter rfl
  have he : s.commit t.held = { t with halfClosed := (s.commit t.held).halfClosed } := by
    cases t
    subst hreaders hout hclient hreq hcan hfor hdel hans
    simp [commit, held]
  rw [he] at hg
  exact { hg with  }

variable {frame : UpstreamFrame W P}

/-- The answer of a daemon keeps the books. -/
theorem Books.daemonAnswer [DecidableEq P] (b : Books root s) (hr : r ∈ s.readers) (hreading : r.phase = .reading)
    (hx : frame.responseId = some x) (hd : (x, r.id) ∈ s.delivered) (hna : (x, r.id) ∉ s.answered) :
    let c := s.held.settle r.id x
    Books root { (s.commit c.1).setPhase r (if r.isFront then .settled frame c.2 else .passing frame c.2) with
      answered := s.answered ++ [(x, r.id)] } := by
  intro c
  have hhand := Reader.hand_of_reading hreading
  have hp := Held.settle_pending s.held r.id x (by
    rintro f hf rfl
    exact b.unique _ _ _ (b.pending_forwarded f hf) (b.delivered _ _ hd))
  have hpass : ∀ f stamps, (if r.isFront then Phase.settled frame c.2 else .passing frame c.2) = .passing f stamps →
      some x ∉ s.router.selectIds := by
    intro f stamps hph hsel
    obtain ⟨u, hu, hf⟩ := b.select_front x hsel
    have hid := b.unique x _ _ hf (b.delivered _ _ hd)
    have hfront := (b.reader_front r hr).mpr (hid ▸ hu)
    rw [if_pos hfront] at hph
    cases hph
  have ht := b.takeAnswer hr hhand hd hna hp ((r.hand_taken frame c.2).trans hx) hpass
  have hspawned : c.1.spawned = [] := congrArg Held.spawned (Held.settle_frame s.held r.id x)
  have hsent : c.1.sent = [] := congrArg Held.sent (Held.settle_frame s.held r.id x)
  refine ht.of_relabel ?_ ?_ ?_ rfl rfl rfl rfl rfl rfl
  · have hrouter : c.1.router = _ := congrArg Held.router (Held.settle_frame s.held r.id x)
    show Held.Grows { router := { s.router with pending := _ } } { router := c.1.router }
    rw [hrouter]
    exact Held.Grows.of_same rfl rfl rfl rfl rfl rfl rfl (fun _ => Iff.rfl) rfl
  · show (c.1.spawned.foldl (fun t q => t.put ({ id := q.1, isFront := q.2 } : Reader W P)) s.readers).put _ =
      s.readers.put _
    rw [hspawned]
    rfl
  · show s.out ++ c.1.sent = s.out
    rw [hsent, List.append_nil]

theorem Books.daemonNote (b : Books root s) (hr : r ∈ s.readers) (hreading : r.phase = .reading)
    (hx : frame.responseId = none) :
    Books root (s.setPhase r (if r.isFront then .settled frame [] else .passing frame [])) := by
  refine b.setPhase hr ?_ ?_ ?_
  · intro x h
    rw [Reader.hand_taken, hx] at h
    cases h
  · intro f stamps hph x hfx
    by_cases hf : r.isFront
    · rw [if_pos hf] at hph
      cases hph
    · rw [if_neg hf] at hph
      cases hph
      rw [hx] at hfx
      cases hfx
  · intro x h
    rw [Reader.hand_of_reading hreading] at h
    cases h

variable {stamps : List (Stamp P)} (b : Books root s) (env : Surroundings root) {id : Option W}

include b

theorem Books.forwardFrame (hr : r ∈ s.readers) (hp : r.phase = .passing frame stamps) :
    Books root (s.passOn r (.relayed r.id frame stamps)) := by
  have hhand := Reader.hand_of_passing hp
  refine b.passOn hr hhand.symm ?_ ?_
  · intro x hx
    exact b.passing_unselected r hr frame stamps hp x (hhand ▸ hx)
  · exact fun x hx => b.answered _ _ (b.hand_answered r hr x hx)

theorem Books.switch [DecidableEq P] (target : P) :
    Books root (s.commit (s.held.switch env target).1) ∧ (s.held.switch env target).1.sent = [] ∧
      (∀ q ∈ s.readers, q ∈ (s.commit (s.held.switch env target).1).readers) ∧
      (s.held.switch env target).1.router.selectIds = s.router.selectIds := by
  have hstay : Books root (s.commit s.held) := b.grow (Held.Grows.refl _) rfl
  unfold Held.switch
  split
  next => exact ⟨hstay, rfl, fun q hq => hq, rfl⟩
  next t _ =>
    split
    next => exact ⟨hstay, rfl, fun q hq => hq, rfl⟩
    next hbelow =>
      have hne : t ≠ s.router.root := (not_or.mp hbelow).1
      have hc := Held.connect_grows env s.held (.project t) true false b.numbered (fun ht => absurd ht hne)
      split
      next failed error he =>
        rw [he] at hc
        exact ⟨b.grow hc.1 hc.2.1, hc.2.1, fun q hq => b.reader_kept hc.1 hq, hc.1.selectIds⟩
      next connected u he =>
        rw [he] at hc
        have hg := b.grow hc.1 hc.2.1
        have hkept : ∀ q ∈ s.readers, q ∈ (s.commit connected).readers := fun q hq => b.reader_kept hc.1 hq
        exact ⟨hg.reselect (b.root_eq ▸ hne) _ _, hc.2.1, hkept, hc.1.selectIds⟩

omit [DecidableEq W] in
omit b in
theorem responseId_eq (hm : frame.hasMethod = false) (hid : frame.id = some id) : frame.responseId = id := by
  unfold UpstreamFrame.responseId
  rw [hm, hid]
  rfl

theorem Books.switchedFrame {h : Held W P}
    (hs : Books root (s.commit h) ∧ h.sent = [] ∧ (∀ q ∈ s.readers, q ∈ (s.commit h).readers) ∧
      h.router.selectIds = s.router.selectIds) {result : Except String P} (hr : r ∈ s.readers)
    (hhand : r.hand = id) (hid : id ∉ s.router.selectIds) :
    Books root ((s.commit (h.emit (.switched r.id id result))).setPhase r .reading) := by
  have hpass : Books root ((s.commit h).passOn r (.switched r.id id result)) := by
    refine hs.1.passOn (hs.2.2.1 r hr) hhand.symm ?_ ?_
    · intro x hx
      show some x ∉ h.router.selectIds
      rw [hs.2.2.2, ← hx, hhand]
      exact hid
    · exact fun x hx => b.answered _ _ (b.hand_answered r hr x hx)
  have hout : s.out ++ (h.sent ++ [Event.switched r.id id result]) = s.out ++ h.sent ++ [.switched r.id id result] :=
    (List.append_assoc _ _ _).symm
  unfold commit Held.emit
  rw [hout]
  exact hpass

variable [DecidableEq P]

theorem Books.frontFrame (hr : r ∈ s.readers) (hp : r.phase = .settled frame stamps) :
    let c := s.held.onFrontFrame env r.id frame
    Books root ((s.commit c.1).setPhase r (if c.2 then .passing frame stamps else .reading)) := by
  have hhand : r.hand = frame.responseId := by
    unfold Reader.hand
    rw [hp]
  have hkeep : ∀ t : Session W P, Books root t → r ∈ t.readers →
      (∀ x, frame.responseId = some x → some x ∉ t.router.selectIds) →
      Books root (t.setPhase r (.passing frame stamps)) := by
    intro t bt hrt hsel
    refine bt.setPhase hrt ?_ ?_ ?_
    · intro x hx
      have hrx : r.hand = some x := hhand.trans hx
      exact ⟨bt.hand_answered r hrt x hrx, bt.hand_silent r hrt x hrx⟩
    · rintro f st hph x hx
      cases hph
      exact hsel x hx
    · exact fun x hx => hhand.symm.trans hx
  have hstay : Books root (s.commit s.held) := b.grow (Held.Grows.refl _) rfl
  unfold Held.onFrontFrame
  split
  next hid =>
    refine hkeep _ hstay hr ?_
    intro x hx
    unfold UpstreamFrame.responseId at hx
    rw [hid] at hx
    split at hx <;> cases hx
  next id hid =>
    split
    next hsel =>
      have hu := b.unselect id
      have hout : id ∉ s.router.selectIds.erase id := b.select_nodup.not_mem_erase
      have hresp := responseId_eq hsel.1 hid
      split
      next =>
        refine hkeep _ (hu.grow (Held.Grows.refl _) rfl) hr ?_
        intro x hx
        rw [hresp] at hx
        rw [← hx]
        exact hout
      next target _ =>
        have hs := hu.switch env target
        exact hu.switchedFrame hs hr (hhand.trans hresp) hout
    next hsel =>
      refine hkeep _ hstay hr ?_
      intro x hx hmem
      unfold UpstreamFrame.responseId at hx
      split at hx
      next => cases hx
      next hm =>
        rw [hid] at hx
        have hidx : id = some x := hx
        exact hsel ⟨Bool.eq_false_iff.mpr hm, hidx ▸ hmem⟩

end Session

end GMesh
