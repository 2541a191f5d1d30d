import GMesh.RouterReaders

namespace GMesh

variable {W P : Type} [DecidableEq W] {root : P} {u : Nat} {x : W}

namespace Session

variable {s : Session W P} {r : Reader W P}

/-- The requests an upstream owes and, for the front, the `select_project` calls. -/
def OwedBy (s : Session W P) (u : Nat) (x : W) : Prop :=
  (s.router.frontId = some u ∧ some x ∈ s.router.selectIds) ∨ ∃ f ∈ s.router.pending, f.upstream = u ∧ f.request = x

theorem Books.owed_silent (b : Books root s) (hx : s.OwedBy u x) : (x, u) ∈ s.forwarded ∧ s.replies x = 0 := by
  rcases hx with ⟨hf, hs⟩ | ⟨f, hf, hu, rfl⟩
  · obtain ⟨v, hv, hfor⟩ := b.select_front x hs
    have he : u = v := Option.some.inj (hf.symm.trans hv)
    rw [he]
    exact ⟨hfor, b.select_silent x hs⟩
  · rw [← hu]
    exact ⟨b.pending_forwarded f hf, b.pending_silent f hf⟩

structure Closes (s : Session W P) (u : Nat) (events : List (Event W P)) (t : Session W P) : Prop where
  root : t.router.root = s.router.root
  next : t.router.nextUpstream = s.router.nextUpstream
  selected : t.router.selected = s.router.selected
  kept : ∀ id ∈ s.router.openIds, id ≠ u → id ∈ t.router.openIds
  stillOpen : ∀ id ∈ t.router.openIds, id ∈ s.router.openIds
  front : ∀ id, id ≠ u → (t.router.frontId = some id ↔ s.router.frontId = some id)
  selects : ∀ id ∈ t.router.selectIds, id ∈ s.router.selectIds ∧ s.router.frontId ≠ some u
  selects_nodup : t.router.selectIds.Nodup
  pending : ∀ f, f ∈ t.router.pending ↔ f ∈ s.router.pending ∧ ¬ s.OwedBy u f.request
  readers : ∀ q, q ∈ t.readers ↔ q ∈ s.readers ∧ q.id ≠ u
  out : t.out = s.out ++ events
  once : ∀ x, s.OwedBy u x → events.countP (fun e => decide (e.answers = some x)) = 1
  nothingElse : ∀ e ∈ events, ∀ x, e.answers = some x → s.OwedBy u x ∧
    ∃ id method why, e = .own id method why ∧ why.isRefusal = false
  client : t.client = s.client
  requested : t.requested = s.requested
  cancelled : t.cancelled = s.cancelled
  forwarded : t.forwarded = s.forwarded
  delivered : t.delivered = s.delivered
  answered : t.answered = s.answered

variable {events : List (Event W P)} {t : Session W P}

theorem Closes.replies_owed (c : Closes s u events t) (hx : s.OwedBy u x) : t.replies x = s.replies x + 1 := by
  unfold replies
  rw [c.out, List.countP_append, c.once x hx]

theorem Closes.replies_other (c : Closes s u events t) (hx : ¬ s.OwedBy u x) : t.replies x = s.replies x := by
  have h0 : events.countP (fun e => decide (e.answers = some x)) = 0 := by
    rw [List.countP_eq_zero]
    intro e he ha
    exact hx (c.nothingElse e he x (of_decide_eq_true ha)).1
  unfold replies
  rw [c.out, List.countP_append, h0, Nat.add_zero]

omit [DecidableEq W] in
theorem hand_ne {q : Reader W P} (hr : r ∈ s.readers) (hhand : r.hand = none) (hq : q ∈ s.readers)
    (hqx : q.hand = some x) : q.id ≠ r.id := by
  intro he
  rw [reader_eq hr hq he, hhand] at hqx
  cases hqx

section Close

variable (b : Books root s) (hr : r ∈ s.readers) (hhand : r.hand = none) (c : Closes s r.id events t)

include b c

theorem Books.close_wired : Wired root t where
  root_eq := c.root.trans b.root_eq
  numbered.lt_next id hid := c.next.symm ▸ b.numbered.lt_next id (c.stillOpen id hid)
  numbered.selected_ne := by
    rw [c.selected, c.root]
    exact b.numbered.selected_ne
  reader_open q hq := by
    obtain ⟨hq, hid⟩ := (c.readers q).mp hq
    exact c.kept _ (b.reader_open q hq) hid
  reader_front q hq := by
    obtain ⟨hq, hid⟩ := (c.readers q).mp hq
    rw [b.reader_front q hq, c.front q.id hid]

theorem Books.close_logged : Logged t where
  requested := by rw [c.forwarded, c.requested]; exact b.requested
  lt_next := by rw [c.forwarded, c.next]; exact b.lt_next
  unique := by rw [c.forwarded]; exact b.unique
  delivered := by rw [c.forwarded, c.delivered]; exact b.delivered
  answered := by rw [c.forwarded, c.answered]; exact b.answered
  sending := by rw [c.forwarded, c.client]; exact b.sending

/-- Only what the closing reader's upstream owes gets a new reply. -/
theorem Books.close_replies {v : Nat} (hx : (x, v) ∈ s.forwarded) (hv : v ≠ r.id) : t.replies x = s.replies x :=
  c.replies_other fun ho => hv (b.unique x v r.id hx (b.owed_silent ho).1)

include hr hhand

theorem Books.close_accounted : Accounted t where
  pending_forwarded f hf := c.forwarded ▸ b.pending_forwarded f ((c.pending f).mp hf).1
  pending_open f hf := by
    obtain ⟨hf, ho⟩ := (c.pending f).mp hf
    exact c.kept _ (b.pending_open f hf) fun hu => ho (.inr ⟨f, hf, hu, rfl⟩)
  pending_unanswered f hf := c.answered ▸ b.pending_unanswered f ((c.pending f).mp hf).1
  pending_silent f hf := by
    obtain ⟨hf, ho⟩ := (c.pending f).mp hf
    rw [c.replies_other ho]
    exact b.pending_silent f hf
  hand_answered q hq x hx := c.answered ▸ b.hand_answered q ((c.readers q).mp hq).1 x hx
  hand_silent q hq x hx := by
    obtain ⟨hq, hid⟩ := (c.readers q).mp hq
    rw [b.close_replies c (b.answered _ _ (b.hand_answered q hq x hx)) hid]
    exact b.hand_silent q hq x hx
  passing_unselected q hq f stamps hp x hx hs :=
    b.passing_unselected q ((c.readers q).mp hq).1 f stamps hp x hx (c.selects _ hs).1
  select_nodup := c.selects_nodup
  select_front x hx := by
    obtain ⟨hx, hf⟩ := c.selects _ hx
    obtain ⟨u, hu, hfor⟩ := b.select_front x hx
    have hne : u ≠ r.id := fun he => hf (he ▸ hu)
    rw [c.forwarded]
    exact ⟨u, (c.front u hne).mpr hu, hfor⟩
  select_silent x hx := by
    obtain ⟨hx, hf⟩ := c.selects _ hx
    obtain ⟨u, hu, hfor⟩ := b.select_front x hx
    rw [b.close_replies c hfor fun he => hf (he ▸ hu)]
    exact b.select_silent x hx
  select_held x v hx ha := by
    rw [c.answered] at ha
    obtain ⟨q, hq, hid, hqx⟩ := b.select_held x v (c.selects _ hx).1 ha
    exact ⟨q, (c.readers q).mpr ⟨hq, hand_ne hr hhand hq hqx⟩, hid, hqx⟩
  unanswered_silent q hq x hx hn := by
    rw [c.forwarded] at hx
    rw [c.answered] at hn
    obtain ⟨hq, hid⟩ := (c.readers q).mp hq
    rw [b.close_replies c hx hid]
    exact b.unanswered_silent q hq x hx hn
  complete x hx := by
    rw [c.requested] at hx
    rw [c.cancelled]
    by_cases ho : s.OwedBy r.id x
    · rw [c.replies_owed ho]
      exact .inr (.inr (.inr (Nat.le_add_left 1 _)))
    · rw [c.replies_other ho]
      refine (b.complete x hx).imp_right (Or.imp ?_ (Or.imp_left ?_))
      · rintro ⟨f, hf, rfl⟩
        exact ⟨f, (c.pending f).mpr ⟨hf, ho⟩, rfl⟩
      · rintro ⟨q, hq, hqx⟩
        exact ⟨q, (c.readers q).mpr ⟨hq, hand_ne hr hhand hq hqx⟩, hqx⟩
  atMostOne x := by
    by_cases ho : s.OwedBy r.id x
    · have hreplies := c.replies_owed ho
      have hsilent := (b.owed_silent ho).2
      omega
    · rw [c.replies_other ho]
      exact b.atMostOne x
  fresh x hx := by
    rw [c.requested] at hx
    rw [c.replies_other fun ho => hx (b.requested _ _ (b.owed_silent ho).1)]
    exact b.fresh x hx
  origin e he x hx := by
    rw [c.out] at he
    rcases List.mem_append.mp he with he | he
    · refine (b.origin e he x hx).congr (fun u => by rw [c.forwarded]) ?_
      exact fun u _ hgone q hq => hgone q ((c.readers q).mp hq).1
    · obtain ⟨ho, id, method, why, rfl, hw⟩ := c.nothingElse e he x hx
      show if why.isRefusal then _ else _
      rw [if_neg (by rw [hw]; exact Bool.false_ne_true), c.forwarded]
      exact ⟨r.id, (b.owed_silent ho).1, fun q hq => ((c.readers q).mp hq).2⟩

/-- An upstream's end answers what it owes once and leaves every other account as it stands. -/
theorem Books.close : Books root t :=
  { b.close_wired c, b.close_logged c, b.close_accounted hr hhand c with }

end Close

end Session

open KeyedTable Router

namespace Held

omit [DecidableEq W] in
theorem foldl_answer {α : Type} (drop : α → KeyedTable (InFlight.request (W := W)) → KeyedTable InFlight.request)
    (event : α → Event W P) (as : List α) (h : Held W P) :
    as.foldl (fun h a => emit { h with router := { h.router with pending := drop a h.router.pending } } (event a)) h =
      { h with
        sent := h.sent ++ as.map event
        router := { h.router with pending := as.foldl (fun p a => drop a p) h.router.pending } } := by
  induction as generalizing h with
  | nil => simp
  | cons _ _ ih =>
    rw [List.foldl_cons, ih]
    simp [emit]

omit [DecidableEq W] in
theorem mem_foldl_drop {α : Type} (drop : α → KeyedTable (InFlight.request (W := W)) → KeyedTable InFlight.request)
    (drops : α → InFlight W → Prop) (hdrop : ∀ a p f, f ∈ drop a p ↔ f ∈ p ∧ ¬ drops a f) (as : List α)
    (p : KeyedTable (InFlight.request (W := W))) (f : InFlight W) :
    f ∈ as.foldl (fun p a => drop a p) p ↔ f ∈ p ∧ ∀ a ∈ as, ¬ drops a f := by
  induction as generalizing p with
  | nil => simp
  | cons _ _ ih => rw [List.foldl_cons, ih, hdrop, List.forall_mem_cons, and_assoc]

theorem loseFront_frame (h : Held W P) :
    h.loseFront = { h with
      sent := h.sent ++ h.router.selectIds.map (fun id => .own id "tools/call" .frontEnded)
      router := { h.router with
        front := .lost h.router.root
        selectIds := []
        pending := h.loseFront.router.pending } } := by
  have hfold := foldl_answer (fun (id : Option W) p => p.filter (fun f => decide (some f.request ≠ id)))
    (fun id => Event.own id "tools/call" (Why.frontEnded (P := P))) h.router.selectIds
    { h with router := { h.router with front := .lost h.router.root, selectIds := [] } }
  unfold loseFront
  rw [hfold]

variable {h : Held W P} {f : InFlight W}

theorem mem_loseFront_pending :
    f ∈ h.loseFront.router.pending ↔ f ∈ h.router.pending ∧ some f.request ∉ h.router.selectIds := by
  have hmem := mem_foldl_drop (fun (id : Option W) p => p.filter (fun f => decide (some f.request ≠ id)))
    (fun id f => some f.request = id)
    (fun id p f => by rw [mem_filter, decide_eq_true_eq]) h.router.selectIds h.router.pending f
  unfold loseFront
  rw [foldl_answer (fun (id : Option W) p => p.filter (fun f => decide (some f.request ≠ id)))]
  rw [hmem]
  constructor
  · exact fun ⟨hf, hn⟩ => ⟨hf, fun hs => hn _ hs rfl⟩
  · exact fun ⟨hf, hn⟩ => ⟨hf, fun id hid he => hn (he ▸ hid)⟩

def owed (h : Held W P) (id : Nat) : List (InFlight W) := h.router.pending.rows.filter (fun f => decide (f.upstream = id))

variable {id : Nat}

omit [DecidableEq W] in
theorem mem_owed : f ∈ h.owed id ↔ f ∈ h.router.pending ∧ f.upstream = id := by
  unfold owed
  rw [List.mem_filter, decide_eq_true_eq]
  rfl

theorem answerOwed_frame (h : Held W P) (id : Nat) (served : P) (evicted : Bool) :
    h.answerOwed id served evicted = { h with
      sent := h.sent ++ (h.owed id).map (fun f => .own (some f.request) f.method (.ended id served evicted))
      router := { h.router with pending := (h.answerOwed id served evicted).router.pending } } := by
  have hfold := foldl_answer (fun (f : InFlight W) p => p.erase f.request)
    (fun f => Event.own (some f.request) f.method (Why.ended id served evicted)) (h.owed id) h
  show List.foldl _ h (h.owed id) = _
  show _ = { h with router := { h.router with pending := (List.foldl _ h (h.owed id)).router.pending }, sent := _ }
  rw [hfold]

theorem mem_answerOwed_pending {served : P} {evicted : Bool} :
    f ∈ (h.answerOwed id served evicted).router.pending ↔ f ∈ h.router.pending ∧ f.upstream ≠ id := by
  have hmem := mem_foldl_drop (fun (g : InFlight W) p => p.erase g.request)
    (fun g f => f.request = g.request) (fun g p f => mem_erase) (h.owed id) h.router.pending f
  show f ∈ (List.foldl _ h (h.owed id)).router.pending ↔ _
  rw [foldl_answer (fun (f : InFlight W) p => p.erase f.request)]
  rw [hmem]
  constructor
  · exact fun ⟨hf, hn⟩ => ⟨hf, fun hu => hn f (mem_owed.mpr ⟨hf, hu⟩) rfl⟩
  · rintro ⟨hf, hu⟩
    refine ⟨hf, fun g hg he => ?_⟩
    obtain ⟨hg, hid⟩ := mem_owed.mp hg
    rw [h.router.pending.key_injective hf hg he] at hu
    exact hu hid

def leaveFront (h : Held W P) (id : Nat) : Held W P := if h.router.frontId = some id then h.loseFront else h

def frontAnswers (r : Router W P) (id : Nat) : List (Event W P) :=
  if r.frontId = some id then r.selectIds.map (fun x => .own x "tools/call" .frontEnded) else []

theorem leaveFront_frame (h : Held W P) (id : Nat) :
    h.leaveFront id = { h with
      sent := h.sent ++ frontAnswers h.router id
      router := { h.router with
        front := (h.leaveFront id).router.front
        selectIds := (h.leaveFront id).router.selectIds
        pending := (h.leaveFront id).router.pending } } := by
  unfold leaveFront frontAnswers
  split
  next => rw [loseFront_frame]
  next => rw [List.append_nil]

theorem leaveFront_front (h : Held W P) (id : Nat) {other : Nat} :
    (h.leaveFront id).router.frontId = some other ↔ h.router.frontId = some other ∧ other ≠ id := by
  unfold leaveFront
  split
  next hid =>
    rw [loseFront_frame, hid]
    constructor
    · exact fun hn => nomatch hn
    · rintro ⟨he, hne⟩
      exact absurd (Option.some.inj he).symm hne
  next hid =>
    constructor
    · refine fun ho => ⟨ho, ?_⟩
      rintro rfl
      exact hid ho
    · exact fun ho => ho.1

theorem mem_leaveFront_selectIds {x : Option W} :
    x ∈ (h.leaveFront id).router.selectIds ↔ x ∈ h.router.selectIds ∧ h.router.frontId ≠ some id := by
  unfold leaveFront
  split
  next hid =>
    rw [loseFront_frame]
    simp [hid]
  next hid => simp [hid]

theorem mem_leaveFront_pending :
    f ∈ (h.leaveFront id).router.pending ↔
      f ∈ h.router.pending ∧ ¬ (h.router.frontId = some id ∧ some f.request ∈ h.router.selectIds) := by
  unfold leaveFront
  split
  next hid =>
    rw [mem_loseFront_pending]
    simp [hid]
  next hid => simp [hid]

theorem mem_lose {subs : KeyedTable (Slot.root (P := P))} {u : Upstream P} :
    Slot.live u ∈ subs.update (Slot.lose id) (Slot.lose_root id) ↔ Slot.live u ∈ subs ∧ u.id ≠ id := by
  rw [mem_update]
  constructor
  · rintro ⟨slot, hs, hl⟩
    cases slot with
    | lost p => cases hl
    | live v =>
      have hl : (if v.id = id then Slot.lost v.root else .live v) = .live u := hl
      split at hl
      next => cases hl
      next hne =>
        cases hl
        exact ⟨hs, hne⟩
  · rintro ⟨hs, hne⟩
    exact ⟨.live u, hs, if_neg hne⟩

def lastEvents (r : Router W P) : List (Event W P) :=
  if r.clientDone ∧ r.openUpstreams = [] then [.done] else []

omit [DecidableEq W] in
theorem endIfDone_frame (h : Held W P) : h.endIfDone = { h with sent := h.sent ++ lastEvents h.router } := by
  unfold endIfDone lastEvents
  split
  next => rfl
  next => rw [List.append_nil]

/-- What the end of an upstream changes, with the answers the shim gives in its place. -/
theorem upstreamEnded_frame (h : Held W P) (id : Nat) : ∃ served evicted,
    h.upstreamEnded id = { h with
      sent := h.sent ++ (frontAnswers h.router id ++
        ((h.leaveFront id).owed id).map (fun f => .own (some f.request) f.method (.ended id served evicted)) ++
        lastEvents (h.upstreamEnded id).router)
      router := { (h.leaveFront id).router with
        subs := h.router.subs.update (Slot.lose id) (Slot.lose_root id)
        restarted := h.router.restarted.filter (fun u => decide (u ≠ id))
        retired := h.router.retired.eraseP (fun u => decide (u.id = id))
        pending := (h.upstreamEnded id).router.pending } } ∧
    ∀ f, f ∈ (h.upstreamEnded id).router.pending ↔ f ∈ (h.leaveFront id).router.pending ∧ f.upstream ≠ id := by
  let served := ((h.router.upstream id).map Upstream.root).getD h.router.root
  let evicted := h.router.retired.any (fun u => decide (u.id = id))
  have he : h.upstreamEnded id = (((h.leaveFront id).dropUpstream id).answerOwed id served evicted).endIfDone := rfl
  refine ⟨served, evicted, ?_, ?_⟩
  · have hr : (h.upstreamEnded id).router =
        (((h.leaveFront id).dropUpstream id).answerOwed id served evicted).router := by
      rw [he, endIfDone_frame]
    rw [hr, he, endIfDone_frame, answerOwed_frame]
    have hf := leaveFront_frame h id
    have hsent : (h.leaveFront id).sent = _ := congrArg Held.sent hf
    have hspawned : (h.leaveFront id).spawned = _ := congrArg Held.spawned hf
    have hclosed : (h.leaveFront id).halfClosed = _ := congrArg Held.halfClosed hf
    have hsubs : (h.leaveFront id).router.subs = _ := congrArg (fun g => g.router.subs) hf
    have hagain : (h.leaveFront id).router.restarted = _ := congrArg (fun g => g.router.restarted) hf
    have hretired : (h.leaveFront id).router.retired = _ := congrArg (fun g => g.router.retired) hf
    unfold dropUpstream owed
    rw [hsent, hspawned, hclosed, hsubs, hagain, hretired]
    simp only [List.append_assoc]
  · intro f
    rw [he, endIfDone_frame]
    exact mem_answerOwed_pending

theorem upstreamEnded_open (h : Held W P) (id : Nat) :
    (∀ other ∈ h.router.openIds, other ≠ id → other ∈ (h.upstreamEnded id).router.openIds) ∧
      ∀ other ∈ (h.upstreamEnded id).router.openIds, other ∈ h.router.openIds := by
  obtain ⟨served, evicted, hf, _⟩ := upstreamEnded_frame h id
  have hmem : ∀ u, u ∈ (h.upstreamEnded id).router.openUpstreams ↔ (h.leaveFront id).router.front = .live u ∨
      (Slot.live u ∈ h.router.subs ∧ u.id ≠ id) ∨ u ∈ h.router.retired.eraseP (fun u => decide (u.id = id)) := by
    intro u
    rw [hf, mem_openUpstreams, mem_lose]
  constructor
  · intro other ho hne
    obtain ⟨u, hu, rfl⟩ := mem_openIds.mp ho
    refine mem_openIds.mpr ⟨u, (hmem u).mpr ?_, rfl⟩
    rcases mem_openUpstreams.mp hu with hu | hu | hu
    · left
      have hid : h.router.frontId = some u.id := frontId_of_front (congrArg Slot.live? hu)
      unfold leaveFront
      rw [if_neg fun he => hne (Option.some.inj (hid.symm.trans he))]
      exact hu
    · exact .inr (.inl ⟨hu, hne⟩)
    · exact .inr (.inr ((List.mem_eraseP_of_neg (by simpa using hne)).mpr hu))
  · intro other ho
    obtain ⟨u, hu, rfl⟩ := mem_openIds.mp ho
    rcases (hmem u).mp hu with hu | hu | hu
    · have hid : (h.leaveFront id).router.frontId = some u.id := frontId_of_front (congrArg Slot.live? hu)
      exact frontId_mem ((leaveFront_front h id).mp hid).1
    · exact mem_openIds.mpr ⟨u, mem_openUpstreams.mpr (.inr (.inl hu.1)), rfl⟩
    · exact mem_openIds.mpr ⟨u, mem_openUpstreams.mpr (.inr (.inr (List.mem_of_mem_eraseP hu))), rfl⟩

end Held

namespace Session

theorem countP_answers {α : Type} (event : α → Event W P) (id : α → Option W)
    (hevent : ∀ a, (event a).answers = id a) {as : List α} (hnodup : (as.map id).Nodup) (x : W) :
    (as.map event).countP (fun e => decide (e.answers = some x)) = if some x ∈ as.map id then 1 else 0 := by
  have hcount : (as.map event).countP (fun e => decide (e.answers = some x)) = (as.map id).count (some x) := by
    rw [List.countP_map, List.count, List.countP_map]
    congr 1
    funext a
    rw [Bool.eq_iff_iff]
    simp [hevent]
  rw [hcount]
  exact hnodup.count

end Session

open List

namespace Session

variable {s : Session W P} {r : Reader W P}

theorem count_frontAnswers (b : Books root s) (u : Nat) (x : W) :
    (Held.frontAnswers s.router u).countP (fun e => decide (e.answers = some x)) =
      if s.router.frontId = some u ∧ some x ∈ s.router.selectIds then 1 else 0 := by
  unfold Held.frontAnswers
  by_cases hf : s.router.frontId = some u
  · have hid : s.router.selectIds.map (fun y => y) = s.router.selectIds := map_id' _
    have hcount := countP_answers (P := P) (fun y => .own y "tools/call" .frontEnded) (fun y => y) (fun _ => rfl)
      (by rw [hid]; exact b.select_nodup) x
    rw [if_pos hf, hcount, hid]
    simp [hf]
  · rw [if_neg hf, if_neg fun h => hf h.1]
    rfl

theorem count_owedAnswers (h : Held W P) (u : Nat) (why : Why P) (x : W) :
    ((h.owed u).map (fun f => Event.own (some f.request) f.method why)).countP
        (fun e => decide (e.answers = some x)) = if x ∈ (h.owed u).map InFlight.request then 1 else 0 := by
  have hmap : (h.owed u).map (fun f => some f.request) = ((h.owed u).map InFlight.request).map some :=
    map_map.symm
  have hnodup : ((h.owed u).map (fun f => some f.request)).Nodup := by
    rw [hmap]
    exact (h.router.pending.nodup.sublist (List.filter_sublist.map _)).map fun _ _ => Option.some.inj
  have hcount := countP_answers (fun f : InFlight W => .own (some f.request) f.method why) (fun f => some f.request)
    (fun _ => rfl) hnodup x
  rw [hcount, hmap]
  simp only [mem_map, Option.some.injEq, exists_eq_right]

omit [DecidableEq W] in
theorem lastEvents_answers {router : Router W P} {e : Event W P} (he : e ∈ Held.lastEvents router) :
    e.answers = none := by
  unfold Held.lastEvents at he
  split at he
  next => rw [mem_singleton.mp he]; rfl
  next => exact nomatch he

theorem count_lastEvents (router : Router W P) (x : W) :
    (Held.lastEvents router).countP (fun e => decide (e.answers = some x)) = 0 := by
  rw [countP_eq_zero]
  intro e he
  rw [lastEvents_answers he]
  simp

theorem mem_owed_leaveFront (s : Session W P) (u : Nat) (x : W) :
    x ∈ ((s.held.leaveFront u).owed u).map InFlight.request ↔
      (∃ f ∈ s.router.pending, f.upstream = u ∧ f.request = x) ∧
        ¬ (s.router.frontId = some u ∧ some x ∈ s.router.selectIds) := by
  rw [mem_map]
  constructor
  · rintro ⟨f, hfo, rfl⟩
    obtain ⟨hfp, hfu⟩ := Held.mem_owed.mp hfo
    obtain ⟨hfp, hns⟩ := Held.mem_leaveFront_pending.mp hfp
    exact ⟨⟨f, hfp, hfu, rfl⟩, hns⟩
  · rintro ⟨⟨f, hfp, hfu, rfl⟩, hns⟩
    exact ⟨f, Held.mem_owed.mpr ⟨Held.mem_leaveFront_pending.mpr ⟨hfp, hns⟩, hfu⟩, rfl⟩

def afterEnd (s : Session W P) (u : Nat) : Session W P :=
  { s.commit (s.held.upstreamEnded u) with readers := s.readers.erase u }

section

variable (b : Books root s)

include b

/-- The end of an upstream answers what it owed, each request once. -/
theorem Books.closes (u : Nat) : Closes s u (s.held.upstreamEnded u).sent (s.afterEnd u) := by
  obtain ⟨served, evicted, hf, hp⟩ := Held.upstreamEnded_frame s.held u
  obtain ⟨hkept, hopen⟩ := Held.upstreamEnded_open s.held u
  have hrouter : (s.afterEnd u).router = _ := congrArg Held.router hf
  have hsent : (s.held.upstreamEnded u).sent = _ := congrArg Held.sent hf
  have hfront := Held.leaveFront_frame s.held u
  exact {
    kept := hkept
    stillOpen := hopen
    root := by rw [hrouter, hfront]; rfl
    next := by rw [hrouter, hfront]; rfl
    selected := by rw [hrouter, hfront]; rfl
    front id hid := by
      rw [hrouter]
      exact (Held.leaveFront_front s.held u).trans (and_iff_left hid)
    selects id hid := by
      rw [hrouter] at hid
      exact Held.mem_leaveFront_selectIds.mp hid
    selects_nodup := by
      rw [hrouter]
      unfold Held.leaveFront
      split
      next =>
        rw [Held.loseFront_frame]
        exact nodup_nil
      next => exact b.select_nodup
    pending f := by
      have hpf : f ∈ (s.afterEnd u).router.pending ↔ _ := (hp f).trans (and_congr_left' Held.mem_leaveFront_pending)
      rw [hpf, and_assoc]
      refine and_congr_right fun hfp => ?_
      have hown : f.upstream = u ↔ ∃ g ∈ s.router.pending, g.upstream = u ∧ g.request = f.request := by
        constructor
        · exact fun hu => ⟨f, hfp, hu, rfl⟩
        · rintro ⟨g, hg, hu, hgf⟩
          rw [s.router.pending.key_injective hfp hg hgf.symm]
          exact hu
      unfold OwedBy
      rw [← hown, not_or]
      rfl
    readers q := KeyedTable.mem_erase
    once x hx := by
      rw [hsent]
      show List.countP _ ([] ++ _) = 1
      rw [nil_append, countP_append, countP_append, count_lastEvents]
      have h1 := count_frontAnswers b u x
      have h2 := count_owedAnswers (s.held.leaveFront u) u (.ended u served evicted) x
      rw [show s.held.router = s.router from rfl, h1, h2]
      by_cases hc : s.router.frontId = some u ∧ some x ∈ s.router.selectIds
      · rw [if_pos hc, if_neg fun h => ((mem_owed_leaveFront s u x).mp h).2 hc]
      · rw [if_neg hc, if_pos ((mem_owed_leaveFront s u x).mpr ⟨hx.resolve_left hc, hc⟩)]
    nothingElse e he x hx := by
      rw [hsent] at he
      rcases mem_append.mp he with he | he
      · cases he
      rcases mem_append.mp he with he | he
      · rcases mem_append.mp he with he | he
        · unfold Held.frontAnswers at he
          split at he
          next hfr =>
            obtain ⟨y, hy, rfl⟩ := mem_map.mp he
            have hyx : y = some x := hx
            rw [hyx] at hy
            exact ⟨Or.inl ⟨hfr, hy⟩, _, _, _, rfl, rfl⟩
          next => cases he
        · obtain ⟨f, hfo, rfl⟩ := mem_map.mp he
          have hfx : f.request = x := Option.some.inj hx
          have hm := (mem_owed_leaveFront s u x).mp (mem_map.mpr ⟨f, hfo, hfx⟩)
          exact ⟨Or.inr hm.1, _, _, _, rfl, rfl⟩
      · rw [lastEvents_answers he] at hx
        cases hx
    out := rfl
    client := rfl
    requested := rfl
    cancelled := rfl
    forwarded := rfl
    delivered := rfl
    answered := rfl }

theorem Books.deliver {delivered : List (W × Nat)} (hd : ∀ p ∈ delivered, p ∈ s.forwarded) {c : ClientPhase W P}
    (hc : ∀ u message on, c ≠ .sending u message on) :
    Books root { s with delivered := s.delivered ++ delivered, client := c } := by
  refine { b with delivered := ?_, sending := fun u message on h => absurd h (hc u message on) }
  intro x u hx
  rcases mem_append.mp hx with hx | hx
  · exact b.delivered x u hx
  · exact hd _ hx

theorem Books.finish : Books root { s.commit s.held.clientEof with client := .finished } := by
  have he := Held.endIfDone_frame { s.held with
    router := { s.router with clientDone := true }
    halfClosed := s.held.halfClosed ++ s.router.openUpstreams.map Upstream.id }
  have hrouter : s.held.clientEof.router = { s.router with clientDone := true } := congrArg Held.router he
  have hspawned : s.held.clientEof.spawned = [] := congrArg Held.spawned he
  have hsent : s.held.clientEof.sent = [] ++ Held.lastEvents { s.router with clientDone := true } :=
    congrArg Held.sent he
  unfold commit
  rw [hrouter, hspawned, hsent, nil_append, foldl_nil]
  have hrep : ∀ x, (s.out ++ Held.lastEvents { s.router with clientDone := true }).countP
      (fun e => decide (e.answers = some x)) = s.replies x := by
    intro x
    rw [countP_append, count_lastEvents, Nat.add_zero, replies]
  refine { b with
    numbered := ⟨b.numbered.lt_next, b.numbered.selected_ne⟩, sending := fun u message on h => nomatch h
    pending_silent := ?_, hand_silent := ?_, select_silent := ?_, unanswered_silent := ?_, complete := ?_
    atMostOne := ?_, fresh := ?_, origin := ?_ }
  · exact fun f hf => (hrep _).trans (b.pending_silent f hf)
  · exact fun q hq x hx => (hrep x).trans (b.hand_silent q hq x hx)
  · exact fun x hx => (hrep x).trans (b.select_silent x hx)
  · exact fun q hq x hx hn => (hrep x).trans (b.unanswered_silent q hq x hx hn)
  · intro x hx
    have hc := b.complete x hx
    rw [← hrep x] at hc
    exact hc
  · exact fun x => Nat.le_trans (Nat.le_of_eq (hrep x)) (b.atMostOne x)
  · exact fun x hx => (hrep x).trans (b.fresh x hx)
  · intro e hm x hx
    rcases mem_append.mp hm with hm | hm
    · exact (b.origin e hm x hx).congr (fun u => Iff.rfl) fun u _ hgone => hgone
    · rw [lastEvents_answers hm] at hx
      cases hx

theorem Books.release (id : Nat) : Books root { s.commit (s.held.releaseIfDrained id) with client := .idle } := by
  refine Books.client (b.grow ?_ (Held.releaseIfDrained_sent s.held id)) fun u message on h => nomatch h
  refine Held.Grows.of_same ?_ ?_ ?_ ?_ ?_ ?_ ?_ ?_ (Held.releaseIfDrained_spawned s.held id)
  all_goals rw [Held.releaseIfDrained_router]
  exact fun _ => Iff.rfl

end

omit [DecidableEq W] in
theorem start_reader {q : Reader W P} (hq : q ∈ (Session.start root : Session W P).readers) :
    q = { id := 0, isFront := true } := by
  rcases KeyedTable.mem_put.mp hq with hq | hq
  · exact hq
  · exact absurd hq.1 not_mem_nil

theorem Books.start (root : P) : Books root (Session.start root : Session W P) := by
  have hreplies : ∀ x, (Session.start root : Session W P).replies x = 0 := fun _ => rfl
  refine ⟨⟨rfl, ⟨?_, nofun⟩, ?_, ?_⟩, ⟨nofun, nofun, nofun, nofun, nofun, nofun⟩,
    ⟨nofun, nofun, nofun, nofun, ?_, fun _ _ x _ => hreplies x, ?_, nodup_nil, nofun, nofun, nofun,
      fun _ _ x _ _ => hreplies x, nofun, fun x => by rw [hreplies x]; exact Nat.zero_le 1,
      fun x _ => hreplies x, nofun⟩⟩
  · intro id hid
    rw [mem_singleton.mp hid]
    exact Nat.one_pos
  · intro q hq
    rw [start_reader hq]
    exact mem_singleton_self 0
  · intro q hq
    rw [start_reader hq]
    exact ⟨fun _ => rfl, fun _ => rfl⟩
  · intro q hq x hx
    rw [start_reader hq] at hx
    cases hx
  · intro q hq f stamps hp
    rw [start_reader hq] at hp
    cases hp

end Session

end GMesh
