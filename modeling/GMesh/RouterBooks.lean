import GMesh.RouterTargets

namespace GMesh

open KeyedTable List

variable {W P : Type} {root : P}

def Event.answers : Event W P → Option W
  | .relayed _ f _ => f.responseId
  | .switched _ id _ => id
  | .own id _ _ => id
  | .done => none

/-- The request whose answer a reader has taken and not yet passed on. -/
def Reader.hand (r : Reader W P) : Option W :=
  match r.phase with
  | .reading => none
  | .settled f _ => f.responseId
  | .passing f _ => f.responseId

theorem Reader.hand_of_passing {r : Reader W P} {f : UpstreamFrame W P} {stamps : List (Stamp P)}
    (h : r.phase = .passing f stamps) : r.hand = f.responseId := by
  unfold Reader.hand
  rw [h]

namespace Session

variable [DecidableEq W]

def replies (s : Session W P) (x : W) : Nat := s.out.countP (fun e => decide (e.answers = some x))

/-- An answer comes from where the request went, or from the shim in its place. -/
def FromRight (s : Session W P) (x : W) : Event W P → Prop
  | .relayed u _ _ => (x, u) ∈ s.forwarded
  | .switched u _ _ => (x, u) ∈ s.forwarded
  | .own _ _ why =>
    if why.isRefusal then ∀ u, (x, u) ∉ s.forwarded
    else ∃ u, (x, u) ∈ s.forwarded ∧ ∀ r ∈ s.readers, r.id ≠ u
  | .done => False

structure Wired (root : P) (s : Session W P) : Prop where
  root_eq : s.router.root = root
  numbered : s.router.Numbered
  reader_open : ∀ r ∈ s.readers, r.id ∈ s.router.openIds
  reader_front : ∀ r ∈ s.readers, r.isFront = true ↔ s.router.frontId = some r.id

structure Logged (s : Session W P) : Prop where
  requested : ∀ x u, (x, u) ∈ s.forwarded → x ∈ s.requested
  lt_next : ∀ x u, (x, u) ∈ s.forwarded → u < s.router.nextUpstream
  unique : ∀ x u v, (x, u) ∈ s.forwarded → (x, v) ∈ s.forwarded → u = v
  delivered : ∀ x u, (x, u) ∈ s.delivered → (x, u) ∈ s.forwarded
  answered : ∀ x u, (x, u) ∈ s.answered → (x, u) ∈ s.forwarded
  sending : ∀ u message on, s.client = .sending u message on →
    ∀ q, (classify message).2 = some q → (q.1, u.id) ∈ s.forwarded

/-- Nothing owed is answered yet, nothing answered twice, and nothing forgotten. -/
structure Accounted (s : Session W P) : Prop where
  pending_forwarded : ∀ f ∈ s.router.pending, (f.request, f.upstream) ∈ s.forwarded
  pending_open : ∀ f ∈ s.router.pending, f.upstream ∈ s.router.openIds
  pending_unanswered : ∀ f ∈ s.router.pending, (f.request, f.upstream) ∉ s.answered
  pending_silent : ∀ f ∈ s.router.pending, s.replies f.request = 0
  hand_answered : ∀ r ∈ s.readers, ∀ x, r.hand = some x → (x, r.id) ∈ s.answered
  hand_silent : ∀ r ∈ s.readers, ∀ x, r.hand = some x → s.replies x = 0
  passing_unselected : ∀ r ∈ s.readers, ∀ f stamps, r.phase = .passing f stamps →
    ∀ x, f.responseId = some x → some x ∉ s.router.selectIds
  select_nodup : s.router.selectIds.Nodup
  select_front : ∀ x, some x ∈ s.router.selectIds → ∃ u, s.router.frontId = some u ∧ (x, u) ∈ s.forwarded
  select_silent : ∀ x, some x ∈ s.router.selectIds → s.replies x = 0
  select_held : ∀ x u, some x ∈ s.router.selectIds → (x, u) ∈ s.answered →
    ∃ r ∈ s.readers, r.id = u ∧ r.hand = some x
  unanswered_silent : ∀ r ∈ s.readers, ∀ x, (x, r.id) ∈ s.forwarded → (x, r.id) ∉ s.answered → s.replies x = 0
  complete : ∀ x ∈ s.requested, x ∈ s.cancelled ∨ (∃ f ∈ s.router.pending, f.request = x) ∨
    (∃ r ∈ s.readers, r.hand = some x) ∨ 1 ≤ s.replies x
  atMostOne : ∀ x, s.replies x ≤ 1
  fresh : ∀ x, x ∉ s.requested → s.replies x = 0
  origin : ∀ e ∈ s.out, ∀ x, e.answers = some x → s.FromRight x e

structure Books (root : P) (s : Session W P) : Prop extends Wired root s, Logged s, Accounted s

variable {s : Session W P}

theorem countP_snoc (out : List (Event W P)) (e : Event W P) (x : W) :
    (out ++ [e]).countP (fun e => decide (e.answers = some x)) =
      out.countP (fun e => decide (e.answers = some x)) + if e.answers = some x then 1 else 0 := by
  rw [countP_append, countP_singleton]
  simp only [decide_eq_true_eq]

omit [DecidableEq W] in
theorem FromRight.congr {t : Session W P} {x : W} {e : Event W P} (h : s.FromRight x e)
    (hf : ∀ u, (x, u) ∈ t.forwarded ↔ (x, u) ∈ s.forwarded)
    (hr : ∀ u, (x, u) ∈ s.forwarded → (∀ r ∈ s.readers, r.id ≠ u) → ∀ r ∈ t.readers, r.id ≠ u) :
    t.FromRight x e := by
  cases e with
  | relayed u => exact (hf u).mpr h
  | switched u => exact (hf u).mpr h
  | done => exact h
  | own _ _ why =>
    show if why.isRefusal then _ else _
    have hs : if why.isRefusal then _ else _ := h
    by_cases hw : why.isRefusal
    · rw [if_pos hw] at hs ⊢
      exact fun u hu => hs u ((hf u).mp hu)
    · rw [if_neg hw] at hs ⊢
      obtain ⟨u, hu, hgone⟩ := hs
      exact ⟨u, (hf u).mpr hu, hr u hu hgone⟩

theorem Books.client (b : Books root s) {c : ClientPhase W P} (hc : ∀ u message on, c = .sending u message on →
    ∀ q, (classify message).2 = some q → (q.1, u.id) ∈ s.forwarded) : Books root { s with client := c } :=
  { b with sending := hc }

def answerSelf (s : Session W P) (x : W) (method : String) (why : Why P) : Session W P :=
  { s with requested := s.requested ++ [x], out := s.out ++ [.own (some x) method why] }

theorem replies_answerSelf (x y : W) (method : String) (why : Why P) :
    (s.answerSelf x method why).replies y = s.replies y + if x = y then 1 else 0 := by
  have h := countP_snoc s.out (.own (some x) method why) y
  simp only [Event.answers, Option.some.injEq] at h
  exact h

/-- A request that the shim refuses is answered once, by the shim. -/
theorem Books.answerSelf (b : Books root s) {x : W} {method : String} {why : Why P} (hx : x ∉ s.requested)
    (hw : why.isRefusal) : Books root (s.answerSelf x method why) := by
  have hother : ∀ y u, (y, u) ∈ s.forwarded → x ≠ y := by
    rintro y u hy rfl
    exact hx (b.requested _ u hy)
  have hzero : ∀ y, x ≠ y → s.replies y = 0 → (s.answerSelf x method why).replies y = 0 := by
    intro y hne h0
    rw [replies_answerSelf, if_neg hne, h0]
  refine { b with
      requested := ?_, pending_silent := ?_, hand_silent := ?_, select_silent := ?_, unanswered_silent := ?_
      complete := ?_, atMostOne := ?_, fresh := ?_, origin := ?_ }
  · exact fun y u hy => mem_append_left _ (b.requested y u hy)
  · exact fun f hf => hzero _ (hother _ _ (b.pending_forwarded f hf)) (b.pending_silent f hf)
  · exact fun r hr y hy => hzero _ (hother _ _ (b.answered _ _ (b.hand_answered r hr y hy))) (b.hand_silent r hr y hy)
  · intro y hy
    obtain ⟨u, _, hu⟩ := b.select_front y hy
    exact hzero _ (hother _ _ hu) (b.select_silent y hy)
  · exact fun r hr y hy hn => hzero _ (hother _ _ hy) (b.unanswered_silent r hr y hy hn)
  · intro y hy
    rw [replies_answerSelf]
    rcases mem_append.mp hy with hy | hy
    · exact (b.complete y hy).imp_right (.imp_right (.imp_right Nat.le_add_right_of_le))
    · rw [if_pos (mem_singleton.mp hy).symm]
      exact .inr (.inr (.inr (Nat.le_add_left 1 _)))
  · intro y
    rw [replies_answerSelf]
    by_cases hy : x = y
    · subst hy
      rw [b.fresh x hx]
      simp
    · simpa [hy] using b.atMostOne y
  · intro y hy
    have hy' : y ∉ s.requested ∧ y ≠ x := by
      simpa [Session.answerSelf, not_or] using hy
    exact hzero _ (Ne.symm hy'.2) (b.fresh y hy'.1)
  · intro e he y hy
    rcases mem_append.mp he with he | he
    · exact b.origin e he y hy
    · rw [mem_singleton.mp he] at hy ⊢
      have hxy : x = y := Option.some.inj hy
      subst hxy
      show if why.isRefusal then _ else _
      rw [if_pos hw]
      exact fun u hu => hx (b.requested _ u hu)

def forwardTo (s : Session W P) (x : W) (u : Nat) (method : String) : Session W P :=
  { s with
    requested := s.requested ++ [x]
    forwarded := s.forwarded ++ [(x, u)]
    router := { s.router with pending := s.router.pending.put ⟨x, u, method⟩ } }

/-- A forwarded request is pending with the upstream it went to. -/
theorem Books.forwardTo (b : Books root s) {x : W} {u : Nat} {method : String} (hx : x ∉ s.requested)
    (hu : u ∈ s.router.openIds) : Books root (s.forwardTo x u method) := by
  have hnew : ∀ v, (x, v) ∉ s.forwarded := fun v hv => hx (b.requested x v hv)
  have hmem : ∀ y v, (y, v) ∈ (s.forwardTo x u method).forwarded ↔ (y, v) ∈ s.forwarded ∨ (y = x ∧ v = u) := by
    intro y v
    simp [Session.forwardTo]
  have hpend : ∀ f ∈ (s.forwardTo x u method).router.pending, f = ⟨x, u, method⟩ ∨ f ∈ s.router.pending := by
    intro f hf
    rcases mem_put.mp hf with h | h
    · exact .inl h
    · exact .inr h.1
  exact { b with
    numbered := ⟨b.numbered.lt_next, b.numbered.selected_ne⟩
    requested y v hy := by
      rcases (hmem y v).mp hy with hy | ⟨rfl, _⟩
      · exact mem_append_left _ (b.requested y v hy)
      · simp [Session.forwardTo]
    lt_next y v hy := by
      rcases (hmem y v).mp hy with hy | ⟨_, rfl⟩
      · exact b.lt_next y v hy
      · exact b.numbered.lt_next _ hu
    unique y v w hv hw := by
      rcases (hmem y v).mp hv with hv' | ⟨hy, hvu⟩
      · rcases (hmem y w).mp hw with hw' | ⟨hy, _⟩
        · exact b.unique y v w hv' hw'
        · exact absurd (hy ▸ hv') (hnew v)
      · rcases (hmem y w).mp hw with hw' | ⟨_, hwu⟩
        · exact absurd (hy ▸ hw') (hnew w)
        · rw [hvu, hwu]
    delivered y v hy := (hmem y v).mpr (.inl (b.delivered y v hy))
    answered y v hy := (hmem y v).mpr (.inl (b.answered y v hy))
    sending v message on hc q hq := (hmem _ _).mpr (.inl (b.sending v message on hc q hq))
    pending_forwarded f hf := by
      rcases hpend f hf with rfl | hf
      · exact (hmem x u).mpr (.inr ⟨rfl, rfl⟩)
      · exact (hmem _ _).mpr (.inl (b.pending_forwarded f hf))
    pending_open f hf := by
      rcases hpend f hf with rfl | hf
      · exact hu
      · exact b.pending_open f hf
    pending_unanswered f hf := by
      rcases hpend f hf with rfl | hf
      · exact fun ha => hnew u (b.answered x u ha)
      · exact b.pending_unanswered f hf
    pending_silent f hf := by
      rcases hpend f hf with rfl | hf
      · exact b.fresh x hx
      · exact b.pending_silent f hf
    select_front y hy := by
      obtain ⟨v, hv, hf⟩ := b.select_front y hy
      exact ⟨v, hv, (hmem y v).mpr (.inl hf)⟩
    unanswered_silent r hr y hy hn := by
      rcases (hmem y r.id).mp hy with hy | ⟨rfl, _⟩
      · exact b.unanswered_silent r hr y hy hn
      · exact b.fresh y hx
    complete y hy := by
      rcases mem_append.mp hy with hy | hy
      · refine (b.complete y hy).imp_right (.imp_left ?_)
        rintro ⟨f, hf, hfy⟩
        have hne : f.request ≠ x := fun he => hnew _ (he ▸ b.pending_forwarded f hf)
        exact ⟨f, mem_put.mpr (.inr ⟨hf, hne⟩), hfy⟩
      · rw [mem_singleton.mp hy]
        exact .inr (.inl ⟨⟨x, u, method⟩, mem_put.mpr (.inl rfl), rfl⟩)
    fresh y hy := by
      have hy' : y ∉ s.requested := fun h => hy (mem_append_left _ h)
      exact b.fresh y hy'
    origin e he y hy := by
      have hr := b.origin e he y hy
      have hne : y ≠ x := by
        rintro rfl
        have h1 : 1 ≤ s.replies y := countP_pos_iff.mpr ⟨e, he, by simp [hy]⟩
        rw [b.fresh y hx] at h1
        omega
      refine hr.congr ?_ fun v _ hgone => hgone
      intro v
      rw [hmem]
      exact or_iff_left fun h => hne h.1 }

end Session

open Held Option

namespace Session

variable {s : Session W P} {readers : KeyedTable (Reader.id (W := W) (P := P))} {spawned : List (Nat × Bool)}

theorem mem_spawn {r : Reader W P}
    (hr : r ∈ spawned.foldl (fun t q => t.put ({ id := q.1, isFront := q.2 } : Reader W P)) readers) :
    r ∈ readers ∨ ∃ q ∈ spawned, r = { id := q.1, isFront := q.2 } := by
  induction spawned generalizing readers with
  | nil => exact .inl hr
  | cons q _ ih =>
    rcases ih hr with hr | ⟨q', hq, he⟩
    · rcases mem_put.mp hr with he | hr
      · exact .inr ⟨q, mem_cons_self, he⟩
      · exact .inl hr.1
    · exact .inr ⟨q', mem_cons_of_mem _ hq, he⟩

theorem mem_spawn_old {r : Reader W P} (hr : r ∈ readers) (hnew : ∀ q ∈ spawned, q.1 ≠ r.id) :
    r ∈ spawned.foldl (fun t q => t.put ({ id := q.1, isFront := q.2 } : Reader W P)) readers := by
  induction spawned generalizing readers with
  | nil => exact hr
  | cons q _ ih =>
    have hq : r.id ≠ q.1 := Ne.symm (hnew q mem_cons_self)
    have hput : r ∈ readers.put ({ id := q.1, isFront := q.2 } : Reader W P) :=
      mem_put.mpr (.inr ⟨hr, hq⟩)
    exact ih hput fun q' hq' => hnew q' (mem_cons_of_mem _ hq')

variable [DecidableEq W]

namespace Books

variable (b : Books root s)

include b

variable {h : Held W P} (g : Held.Grows s.held h)

include g

omit [DecidableEq W] b in
theorem spawned_new {q : Nat × Bool} (hq : q ∈ h.spawned) : s.router.nextUpstream ≤ q.1 ∧ q.1 ∈ h.router.openIds ∧
    (q.2 ↔ h.router.frontId = some q.1) := by
  rcases g.spawned q hq with hq | ⟨h1, _, h3, h4⟩
  · exact nomatch hq
  · exact ⟨h1, h3, h4⟩

theorem reader_kept {r : Reader W P} (hr : r ∈ s.readers) : r ∈ (s.commit h).readers := by
  refine mem_spawn_old hr fun q hq he => ?_
  have hlt := b.numbered.lt_next _ (b.reader_open r hr)
  have hle := (spawned_new g hq).1
  omega

theorem commit_wired : Wired root (s.commit h) where
  root_eq := g.root.trans b.root_eq
  numbered := g.numbered b.numbered
  reader_open r hr := by
    rcases mem_spawn hr with hr | ⟨q, hq, rfl⟩
    · exact g.keeps _ (b.reader_open r hr)
    · exact (spawned_new g hq).2.1
  reader_front r hr := by
    rcases mem_spawn hr with hr | ⟨q, hq, rfl⟩
    · rw [b.reader_front r hr]
      refine ⟨g.front_kept r.id, fun hf => (g.front_new r.id hf).resolve_right ?_⟩
      exact Nat.not_le.mpr (b.numbered.lt_next _ (b.reader_open r hr))
    · exact (spawned_new g hq).2.2

theorem commit_accounted (hs : h.sent = []) : Accounted (s.commit h) := by
  have hout : (s.commit h).out = s.out := by
    show s.out ++ h.sent = s.out
    rw [hs, append_nil]
  have hrep : ∀ x, (s.commit h).replies x = s.replies x := by
    intro x
    unfold replies
    rw [hout]
  have hhand : ∀ r ∈ (s.commit h).readers, ∀ x, r.hand = some x → r ∈ s.readers := by
    intro r hr x hx
    rcases mem_spawn hr with hr | ⟨q, _, rfl⟩
    · exact hr
    · cases hx
  exact {
    pending_forwarded := fun f hf => b.pending_forwarded f (g.pending ▸ hf)
    pending_open := fun f hf => g.keeps _ (b.pending_open f (g.pending ▸ hf))
    pending_unanswered := fun f hf => b.pending_unanswered f (g.pending ▸ hf)
    pending_silent := fun f hf => (hrep _).trans (b.pending_silent f (g.pending ▸ hf))
    hand_answered := fun r hr x hx => b.hand_answered r (hhand r hr x hx) x hx
    hand_silent := fun r hr x hx => (hrep x).trans (b.hand_silent r (hhand r hr x hx) x hx)
    passing_unselected := by
      intro r hr f stamps hp x hx hsel
      have hrx := (Reader.hand_of_passing hp).trans hx
      exact b.passing_unselected r (hhand r hr x hrx) f stamps hp x hx (g.selectIds ▸ hsel)
    select_nodup := g.selectIds.symm ▸ b.select_nodup
    select_front := by
      intro x hx
      obtain ⟨u, hu, hf⟩ := b.select_front x (g.selectIds ▸ hx)
      exact ⟨u, g.front_kept u hu, hf⟩
    select_silent := fun x hx => (hrep x).trans (b.select_silent x (g.selectIds ▸ hx))
    select_held := by
      intro x u hx ha
      obtain ⟨r, hr, hid, hh⟩ := b.select_held x u (g.selectIds ▸ hx) ha
      exact ⟨r, b.reader_kept g hr, hid, hh⟩
    unanswered_silent := by
      intro r hr x hx hn
      rw [hrep]
      rcases mem_spawn hr with hr | ⟨q, hq, rfl⟩
      · exact b.unanswered_silent r hr x hx hn
      · exact absurd (b.lt_next x q.1 hx) (Nat.not_lt.mpr (spawned_new g hq).1)
    complete := by
      intro x hx
      rw [hrep]
      refine (b.complete x hx).imp_right (.imp ?_ (.imp_left ?_))
      · rintro ⟨f, hf, hfx⟩
        exact ⟨f, g.pending.symm ▸ hf, hfx⟩
      · rintro ⟨r, hr, hrx⟩
        exact ⟨r, b.reader_kept g hr, hrx⟩
    atMostOne := fun x => hrep x ▸ b.atMostOne x
    fresh := fun x hx => hrep x ▸ b.fresh x hx
    origin := by
      intro e he x hx
      rw [hout] at he
      refine (b.origin e he x hx).congr (fun _ => .rfl) ?_
      rintro u hu hgone r hr rfl
      rcases mem_spawn hr with hr | ⟨q, hq, rfl⟩
      · exact hgone r hr rfl
      · exact absurd (b.lt_next x q.1 hu) (Nat.not_lt.mpr (spawned_new g hq).1) }

/-- Connections that routing opens bring readers of their own and leave every account as it stands. -/
theorem grow (hs : h.sent = []) : Books root (s.commit h) :=
  { b.commit_wired g, b.commit_accounted g hs with
    toLogged := { b with lt_next := fun x u hx => Nat.lt_of_lt_of_le (b.lt_next x u hx) g.next_le } }

omit g

theorem markSelect (id : Option W) (hid : ∀ x, id = some x → ∃ u,
    s.router.frontId = some u ∧ (x, u) ∈ s.forwarded ∧ s.replies x = 0 ∧ (x, u) ∉ s.answered) :
    Books root { s with router := { s.router with selectIds := s.router.selectIds.insert id } } := by
  have hcases : ∀ x, some x ∈ s.router.selectIds.insert id → some x = id ∨ some x ∈ s.router.selectIds :=
    fun x hx => mem_insert_iff.mp hx
  have hnone : ∀ x u, some x = id → (x, u) ∉ s.answered := by
    rintro x u rfl ha
    obtain ⟨v, _, hf, _, hna⟩ := hid x rfl
    rw [b.unique x u v (b.answered x u ha) hf] at ha
    exact hna ha
  refine { b with
    numbered := ⟨b.numbered.lt_next, b.numbered.selected_ne⟩, passing_unselected := ?_
    select_nodup := b.select_nodup.insert, select_front := ?_, select_silent := ?_, select_held := ?_ }
  · intro r hr f stamps hp x hx hsel
    rcases hcases x hsel with he | hsel
    · exact hnone x r.id he (b.hand_answered r hr x ((Reader.hand_of_passing hp).trans hx))
    · exact b.passing_unselected r hr f stamps hp x hx hsel
  · intro x hsel
    rcases hcases x hsel with he | hsel
    · obtain ⟨u, hu, hf, _⟩ := hid x he.symm
      exact ⟨u, hu, hf⟩
    · exact b.select_front x hsel
  · intro x hsel
    rcases hcases x hsel with he | hsel
    · obtain ⟨_, _, _, h0, _⟩ := hid x he.symm
      exact h0
    · exact b.select_silent x hsel
  · intro x u hsel ha
    rcases hcases x hsel with he | hsel
    · exact absurd ha (hnone x u he)
    · exact b.select_held x u hsel ha

theorem leave (cancelled : List W) {c : ClientPhase W P}
    (hc : ∀ u message on, c = .sending u message on → ∀ q, (classify message).2 = some q →
      (q.1, u.id) ∈ s.forwarded) : Books root { s with cancelled := s.cancelled ++ cancelled, client := c } := by
  refine { b with sending := hc, complete := ?_ }
  exact fun x hx => (b.complete x hx).imp_left (mem_append_left _)

theorem dropPending (y : W) (hy : y ∈ s.cancelled) :
    Books root { s with router := { s.router with pending := s.router.pending.erase y } } := by
  have hmem : ∀ f, f ∈ s.router.pending.erase y → f ∈ s.router.pending :=
    fun f hf => (mem_erase.mp hf).1
  refine { b with
    numbered := ⟨b.numbered.lt_next, b.numbered.selected_ne⟩
    pending_forwarded := fun f hf => b.pending_forwarded f (hmem f hf)
    pending_open := fun f hf => b.pending_open f (hmem f hf)
    pending_unanswered := fun f hf => b.pending_unanswered f (hmem f hf)
    pending_silent := fun f hf => b.pending_silent f (hmem f hf), complete := ?_ }
  intro x hx
  by_cases hxy : x = y
  · rw [hxy]
    exact .inl hy
  · refine (b.complete x hx).imp_right (.imp_left ?_)
    rintro ⟨f, hf, hfx⟩
    exact ⟨f, mem_erase.mpr ⟨hf, fun he => hxy (hfx.symm.trans he)⟩, hfx⟩

/-- A routed request is forwarded or answered by the shim. -/
theorem routed {request : Option (W × String)} {r : Held W P × Option (Upstream P)}
    (ht : Held.Targets s.held request r) (hx : ∀ q, request = some q → q.1 ∉ s.requested) :
    Books root { s.commit (r.1.record r.2 request) with
      requested := s.requested ++ (request.map Prod.fst).toList
      forwarded := s.forwarded ++ (match request.map Prod.fst, r.2 with
        | some id, some u => [(id, u.id)]
        | _, _ => []) } := by
  obtain ⟨h, target⟩ := r
  cases target with
  | some u =>
    obtain ⟨hopen, hsent⟩ := ht.target u rfl
    have hg := b.grow ht.grows hsent
    cases request with
    | some q => exact hg.forwardTo (hx q rfl) hopen
    | none =>
      simp only [record, map_none, toList_none, append_nil]
      exact hg
  | none =>
    cases request with
    | some q =>
      obtain ⟨why, hw, hsent⟩ := ht.answer rfl q.1 q.2 rfl
      have hg := b.grow (h := { h with sent := [] }) { ht.grows with } rfl
      have ha : Books root ((s.commit { h with sent := [] }).answerSelf q.1 q.2 why) := hg.answerSelf (hx q rfl) hw
      have hs : h.sent = [.own (some q.1) q.2 why] := hsent
      simpa [Session.answerSelf, commit, record, hs] using ha
    | none =>
      have hsent := ht.silent rfl rfl
      simp only [record, map_none, toList_none, append_nil]
      exact b.grow ht.grows hsent

end Books

omit [DecidableEq W] in
theorem after_sending {out : Option (Held.Outgoing W P)} {u : Upstream P} {message : Option (ClientMessage W)}
    {on : Option Nat} (h : ClientPhase.after out = .sending u message on) :
    ∃ o, out = some o ∧ o.target = some u ∧ o.message = message := by
  unfold ClientPhase.after at h
  split at h
  next => cases h
  next o =>
    split at h
    next v on' hv =>
      cases h
      exact ⟨o, rfl, hv, rfl⟩
    next => cases h
    next => cases h

theorem answered_targets {h answered : Held W P} {kind : ClientFrame W} {request : Option (W × String)}
    (ha : h.answeredBeforeSession kind request = some answered) : Held.Targets h request (answered, none) := by
  have hown : ∀ id method (why : Why P), why.isRefusal → request = some (id, method) →
      Held.Targets h request (h.emit (.own (some id) method why), none) := by
    rintro id method why hw rfl
    exact refuse_targets h (some (id, method)) hw
  unfold answeredBeforeSession at ha
  split at ha
  next => cases ha
  next =>
    split at ha
    next id method =>
      split at ha
      next => exact some.inj ha ▸ hown id method .pong rfl rfl
      next =>
        split at ha
        next => cases ha
        next => exact some.inj ha ▸ hown id method .methodNotFound rfl rfl
    next =>
      split at ha
      next => cases ha
      next =>
        rw [← some.inj ha]
        exact refuse_targets h none (show (Why.pong : Why P).isRefusal from rfl)

omit [DecidableEq W] in
theorem sending_recorded {frame message : Option (ClientMessage W)} {c : Held.Outgoing W P} {u : Upstream P}
    {on : Option Nat} (hmessage : (classify c.message).2 = (classify frame).2)
    (hc : ClientPhase.after (some c) = .sending u message on) {q : W × String} (hq : (classify message).2 = some q) :
    (q.1, u.id) ∈ s.forwarded ++ (match (classify frame).2.map Prod.fst, c.target with
      | some id, some u => [(id, u.id)]
      | _, _ => []) := by
  obtain ⟨o, ho, htarget, hm⟩ := after_sending hc
  cases ho
  rw [← hm, hmessage] at hq
  rw [hq, htarget]
  exact mem_append_right _ (mem_singleton.mpr rfl)

theorem record_none (h : Held W P) (target : Option (Upstream P)) : h.record target none = h := by
  cases target <;> rfl

variable (b : Books root s)

include b

variable [DecidableEq P]

theorem Books.cancelFrame {id : Option W} (frame : Option (ClientMessage W))
    (hk : (classify frame).1 = .cancelled id) (hq : (classify frame).2 = none) {c : Held.Outgoing W P}
    (hm : c.message = frame) :
    Books root { (s.commit (s.held.cancel id).1).logFrame frame (some c) with
      client := ClientPhase.after (some c) } := by
  have hsending : ∀ u message on, ClientPhase.after (some c) = .sending u message on →
      ∀ q, (classify message).2 = some q → (q.1, u.id) ∈ s.forwarded := by
    intro u message on hc q hmq
    obtain ⟨o, ho, _, hom⟩ := after_sending hc
    cases ho
    rw [← hom, hm, hq] at hmq
    cases hmq
  unfold cancel
  split
  next f hf =>
    obtain ⟨y, rfl, hfind⟩ := bind_eq_some_iff.mp hf
    have hy : f.request = y := (find?_eq_some_iff.mp hfind).2
    have hd := (b.leave [y] hsending).dropPending y (by simp)
    simpa [commit, logFrame, hk, hq, held, hy] using hd
  next =>
    cases id with
    | none =>
      have hd := b.leave [] hsending
      simpa [commit, logFrame, hk, hq, held] using hd
    | some y =>
      have hd := b.leave [y] hsending
      simpa [commit, logFrame, hk, hq, held] using hd

theorem Books.selectFrame {id : Option W} (env : Surroundings root) (frame : Option (ClientMessage W))
    (hk : (classify frame).1 = .selectProject id) (hx : ∀ q, (classify frame).2 = some q → q.1 ∉ s.requested) :
    let c := s.held.chooseTarget env frame (classify frame).1 (classify frame).2
    Books root { (s.commit (c.1.record c.2.target (classify frame).2)).logFrame frame (some c.2) with
      client := ClientPhase.after (some c.2) } := by
  have hq := kind_selectProject hk
  have ht := reach_targets env s.held .front true (classify frame).2 b.root_eq b.numbered (fun p hp => nomatch hp)
  have hr := b.routed ht hx
  have hfront := fun u => Held.reach_front (u := u) env s.held true (classify frame).2
  have hsend : ∀ c : Held.Outgoing W P, c.message = frame → ∀ u message on,
      ClientPhase.after (some c) = .sending u message on → ∀ q, (classify message).2 = some q →
      (q.1, u.id) ∈ s.forwarded ++ (match (classify frame).2.map Prod.fst, c.target with
        | some id, some u => [(id, u.id)]
        | _, _ => []) :=
    fun c hc u message on ha q hmq => sending_recorded (by rw [hc]) ha hmq
  unfold logFrame chooseTarget
  rw [hk]
  dsimp only
  rw [hq] at ht hr hx hfront hsend ⊢
  cases htarget : (s.held.reach env .front true (id.map fun x => (x, "tools/call"))).2 with
  | none =>
    rw [htarget] at hr
    exact Books.leave hr _ fun u message on hc => nomatch hc
  | some u =>
    rw [htarget] at hr
    have hsent : (s.held.reach env .front true (id.map fun x => (x, "tools/call"))).1.sent = [] :=
      (ht.target u htarget).2
    cases id with
    | none =>
      have hsel := Books.markSelect hr none (fun x hx => nomatch hx)
      exact Books.leave hsel _ (hsend _ rfl)
    | some x =>
      have hnew : x ∉ s.requested := hx (x, "tools/call") rfl
      have hsel := Books.markSelect hr (some x) (by
        intro y hy
        cases hy
        refine ⟨u.id, hfront u htarget, mem_append_right _ (mem_singleton.mpr rfl), ?_, ?_⟩
        · show List.countP _ (s.out ++ (s.held.reach env .front true (some (x, "tools/call"))).1.sent) = 0
          rw [show (s.held.reach env .front true (some (x, "tools/call"))).1.sent = [] from hsent, append_nil]
          exact b.fresh x hnew
        · exact fun ha => hnew (b.requested _ _ (b.answered _ _ ha)))
      exact Books.leave hsel _ (hsend _ rfl)

/-- Every frame of the client keeps the books. -/
theorem Books.clientFrame (env : Surroundings root) (frame : Option (ClientMessage W))
    (hplain : ∀ id, (classify frame).1 = .cancelled id → (classify frame).2 = none)
    (hx : ∀ q, (classify frame).2 = some q → q.1 ∉ s.requested) :
    Books root { (s.commit (s.held.onClientFrame env frame).1).logFrame frame (s.held.onClientFrame env frame).2 with
      client := ClientPhase.after (s.held.onClientFrame env frame).2 } := by
  unfold onClientFrame
  dsimp only
  cases ha : s.held.answeredBeforeSession (classify frame).1 (classify frame).2 with
  | some answered =>
    refine Books.leave (b.routed (answered_targets ha) hx) _ ?_
    intro u message on hc
    cases hc
  | none =>
    by_cases hcancel : ∃ id, (classify frame).1 = .cancelled id
    · obtain ⟨id, hk⟩ := hcancel
      have hq := hplain id hk
      rw [hk, hq]
      rw [record_none]
      exact b.cancelFrame frame hk hq rfl
    · by_cases hselect : ∃ id, (classify frame).1 = .selectProject id
      · obtain ⟨id, hk⟩ := hselect
        exact b.selectFrame env frame hk hx
      · have ht := chooseTarget_targets env s.held frame (classify frame).1 (classify frame).2 b.root_eq
          b.numbered (fun id hid => hcancel ⟨id, hid⟩) (fun id hid => hselect ⟨id, hid⟩)
        refine Books.leave (b.routed ht.1 hx) _ ?_
        intro u message on hc q hq
        exact sending_recorded ht.2.2 hc hq

end Session

end GMesh
