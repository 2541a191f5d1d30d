import GMesh.RouterRuns
import GMesh.RouterRoutes

namespace GMesh

open List Option

variable {W P : Type} {root : P}

def Action.Plain : Action W root → Prop
  | .clientFrame _ frame => ∀ id, (classify frame).1 = .cancelled id → (classify frame).2 = none
  | _ => True

namespace Session

variable {s t : Session W P} [DecidableEq W] [DecidableEq P]

inductive Steps (s : Session W P) : Action W root → Session W P → Prop
  | clientFrame (env : Surroundings root) (frame : Option (ClientMessage W))
    (fresh : ∀ q, (classify frame).2 = some q → q.1 ∉ s.requested) :
    Steps s (.clientFrame env frame)
      { (s.commit (s.held.onClientFrame env frame).1).logFrame frame (s.held.onClientFrame env frame).2 with
        client := ClientPhase.after (s.held.onClientFrame env frame).2 }
  | clientSend (ok : Bool) {delivered : List (W × Nat)} {c : ClientPhase W P} {u : Upstream P}
    {message : Option (ClientMessage W)} {on : Option Nat} (sending : s.client = .sending u message on)
    (sent : ∀ p ∈ delivered, ∃ q, (classify message).2 = some q ∧ p = (q.1, u.id))
    (free : ∀ u message on, c ≠ .sending u message on) :
    Steps s (.clientSend ok) { s with delivered := s.delivered ++ delivered, client := c }
  | clientRelease (id : Nat) : Steps s .clientRelease { s.commit (s.held.releaseIfDrained id) with client := .idle }
  | clientEof : Steps s .clientEof { s.commit s.held.clientEof with client := .finished }
  | note {r : Reader W P} {f : UpstreamFrame W P} (hr : r ∈ s.readers) (hp : r.phase = .reading)
    (hx : f.responseId = none) :
    Steps s (.daemonFrame r.id f) (s.setPhase r (if r.isFront then .settled f [] else .passing f []))
  | answer {r : Reader W P} {f : UpstreamFrame W P} {x : W} (hr : r ∈ s.readers) (hp : r.phase = .reading)
    (hx : f.responseId = some x) (hd : (x, r.id) ∈ s.delivered) (hna : (x, r.id) ∉ s.answered) :
    Steps s (.daemonFrame r.id f)
      { (s.commit (s.held.settle r.id x).1).setPhase r (if r.isFront then .settled f (s.held.settle r.id x).2
          else .passing f (s.held.settle r.id x).2) with
        answered := s.answered ++ [(x, r.id)] }
  | frontFrame (env : Surroundings root) {r : Reader W P} {f : UpstreamFrame W P} {stamps : List (Stamp P)}
    (hr : r ∈ s.readers) (hp : r.phase = .settled f stamps) :
    Steps s (.frontFrame env r.id) ((s.commit (s.held.onFrontFrame env r.id f).1).setPhase r
      (if (s.held.onFrontFrame env r.id f).2 then .passing f stamps else .reading))
  | forward {r : Reader W P} {f : UpstreamFrame W P} {stamps : List (Stamp P)} (hr : r ∈ s.readers)
    (hp : r.phase = .passing f stamps) : Steps s (.forward r.id) (s.passOn r (.relayed r.id f stamps))
  | upstreamEnd {r : Reader W P} (hr : r ∈ s.readers) (hp : r.phase = .reading) :
    Steps s (.upstreamEnd r.id) (s.afterEnd r.id)

/-- A step of a session is a step of one of its threads, in the phase it starts from. -/
theorem step_cases {a : Action W root} (hs : s.step a = some t) : Steps s a t := by
  unfold step at hs
  cases a with
  | clientFrame env frame =>
    dsimp only at hs
    split at hs
    next =>
      split at hs
      next => cases hs
      next hfresh =>
        cases hs
        refine .clientFrame env frame fun q hq hm => hfresh ?_
        rw [hq]
        simpa using hm
    next => cases hs
  | clientSend ok =>
    dsimp only at hs
    split at hs
    next u message on hc =>
      cases hs
      refine .clientSend ok hc (fun p hp => ?_) fun _ _ _ h => ?_
      · split at hp
        next =>
          obtain ⟨x, hx, rfl⟩ := mem_map.mp hp
          obtain ⟨q, hq, rfl⟩ := map_eq_some_iff.mp (mem_toList.mp hx)
          exact ⟨q, hq, rfl⟩
        next => cases hp
      · cases on <;> cases h
    next => cases hs
  | clientRelease =>
    dsimp only at hs
    split at hs
    next id _ =>
      cases hs
      exact .clientRelease id
    next => cases hs
  | clientEof =>
    dsimp only at hs
    split at hs
    next =>
      cases hs
      exact .clientEof
    next => cases hs
  | daemonFrame v f =>
    dsimp only at hs
    split at hs
    next r hr =>
      obtain ⟨hm, rfl⟩ := KeyedTable.find?_eq_some_iff.mp hr
      split at hs
      next hp hx =>
        cases hs
        exact .note hm hp hx
      next x hp hx =>
        split at hs
        next hd =>
          cases hs
          exact .answer hm hp hx hd.1 hd.2
        next => cases hs
      next => cases hs
    next => cases hs
  | frontFrame env v =>
    dsimp only at hs
    split at hs
    next r hr =>
      obtain ⟨hm, rfl⟩ := KeyedTable.find?_eq_some_iff.mp hr
      split at hs
      next f stamps hp =>
        cases hs
        exact .frontFrame env hm hp
      next => cases hs
    next => cases hs
  | forward v =>
    dsimp only at hs
    split at hs
    next r hr =>
      obtain ⟨hm, rfl⟩ := KeyedTable.find?_eq_some_iff.mp hr
      split at hs
      next f stamps hp =>
        cases hs
        exact .forward hm hp
      next => cases hs
    next => cases hs
  | upstreamEnd v =>
    dsimp only at hs
    split at hs
    next r hr =>
      obtain ⟨hm, rfl⟩ := KeyedTable.find?_eq_some_iff.mp hr
      split at hs
      next hp =>
        cases hs
        exact .upstreamEnd hm hp
      next => cases hs
    next => cases hs

variable (b : Books root s)

include b

/-- Every step keeps the books. -/
theorem Books.step {a : Action W root} (ha : a.Plain) (hs : s.step a = some t) : Books root t := by
  cases step_cases hs with
  | clientFrame env frame fresh => exact b.clientFrame env frame ha fresh
  | clientSend _ sending sent free =>
    refine b.deliver (fun p hp => ?_) free
    obtain ⟨q, hq, rfl⟩ := sent p hp
    exact b.sending _ _ _ sending q hq
  | clientRelease id => exact b.release id
  | clientEof => exact b.finish
  | note hr hp hx => exact b.daemonNote hr hp hx
  | answer hr hp hx hd hna => exact b.daemonAnswer hr hp hx hd hna
  | frontFrame env hr hp => exact b.frontFrame env hr hp
  | forward hr hp => exact b.forwardFrame hr hp
  | @upstreamEnd r hr hp =>
    refine b.close hr ?_ (b.closes r.id)
    unfold Reader.hand
    rw [hp]

/-- Every run keeps the books. -/
theorem Books.run {actions : List (Action W root)} (ha : ∀ a ∈ actions, a.Plain) (hs : s.run actions = some t) :
    Books root t := by
  induction actions generalizing s with
  | nil =>
    cases hs
    exact b
  | cons a _ ih =>
    obtain ⟨s', hstep, hrun⟩ := bind_eq_some_iff.mp hs
    exact ih (b.step (ha a mem_cons_self) hstep) (fun a' h' => ha a' (mem_cons_of_mem a h')) hrun

omit [DecidableEq P] in
/-- A request that is neither cancelled nor answered keeps an upstream open. -/
theorem Books.answered_at_end (hend : s.router.openUpstreams = []) {x : W} (hx : x ∈ s.requested)
    (hc : x ∉ s.cancelled) : s.replies x = 1 := by
  have hopen : s.router.openIds = [] := by
    unfold Router.openIds
    rw [hend, map_nil]
  have hle := b.atMostOne x
  rcases b.complete x hx with h | ⟨f, hf, _⟩ | ⟨q, hq, _⟩ | h
  · exact absurd h hc
  · have ho := b.pending_open f hf
    rw [hopen] at ho
    exact nomatch ho
  · have ho := b.reader_open q hq
    rw [hopen] at ho
    exact nomatch ho
  · omega

end Session

/-- In every interleaving a request is answered at most once, from where it went or by the shim in its place. When the
session is over every request that was not cancelled has its answer. -/
theorem requests_answered_once [DecidableEq W] [DecidableEq P] (root : P) (actions : List (Action W root))
    (hplain : ∀ a ∈ actions, a.Plain)
    {s : Session W P} (hs : (Session.start root).run actions = some s) :
    (∀ x, s.replies x ≤ 1) ∧
      (∀ e ∈ s.out, ∀ x, e.answers = some x → s.FromRight x e) ∧
      (s.router.clientDone = true → s.router.openUpstreams = [] →
        ∀ x ∈ s.requested, x ∉ s.cancelled → s.replies x = 1) ∧
      ∀ f ∈ s.router.pending, f.upstream ∈ s.router.openIds := by
  have b := (Session.Books.start root).run hplain hs
  exact ⟨b.atMostOne, b.origin, fun _ hend x hx hc => b.answered_at_end hend hx hc, b.pending_open⟩

def subEnv : Surroundings "/r" where
  resolve := fun _ => .ok "/r/sub"
  resolve_ne_root := by rintro _ _ ⟨⟩; decide

def endedSub : List (Action Nat "/r") :=
  let opening : ClientMessage Nat := { id := some (some 1), method := some "initialize" }
  let opened : ClientMessage Nat := { method := some "notifications/initialized" }
  let call : ClientMessage Nat :=
    { id := some (some 2), method := some "tools/call", toolName := some "find", project := some (some "sub") }
  [.clientFrame subEnv (some opening), .clientSend true, .daemonFrame 0 { id := some (some 1) }, .frontFrame subEnv 0,
    .forward 0, .clientFrame subEnv (some opened), .clientSend true, .clientFrame subEnv (some call), .clientSend true,
    .upstreamEnd 1, .clientEof, .upstreamEnd 0]

theorem requests_answered_once_endedSub : ∃ s, (Session.start "/r").run endedSub = some s ∧
    s.requested = [1, 2] ∧ s.forwarded = [(1, 0), (2, 1)] ∧ s.replies 1 = 1 ∧ s.replies 2 = 1 := by
  have hplain : ∀ a ∈ endedSub, a.Plain := by
    simp [endedSub, Action.Plain, classify, ClientMessage.kind]
  obtain ⟨s, hs, hp⟩ := (any_eq_true (fun s : Session Nat String => decide (s.requested = [1, 2] ∧
    s.forwarded = [(1, 0), (2, 1)] ∧ s.cancelled = [] ∧ s.router.clientDone = true ∧ s.router.openUpstreams = []))
    ((Session.start "/r").run endedSub)).mp (by decide +kernel)
  obtain ⟨hreq, hfor, hcan, hdone, hend⟩ := of_decide_eq_true hp
  have hall := (requests_answered_once "/r" endedSub hplain hs).2.2.1 hdone hend
  refine ⟨s, hs, hreq, hfor, hall 1 ?_ ?_, hall 2 ?_ ?_⟩
  · simp [hreq]
  · simp [hcan]
  · simp [hreq]
  · simp [hcan]

/-- In every interleaving a request that was not cancelled is in one place: owed by an open upstream, in the hand of the
reader of the upstream it was sent to, or answered. -/
theorem request_in_one_place [DecidableEq W] [DecidableEq P] (root : P) (actions : List (Action W root))
    (hplain : ∀ a ∈ actions, a.Plain)
    {s : Session W P} (hs : (Session.start root).run actions = some s) {x : W} (hx : x ∈ s.requested)
    (hc : x ∉ s.cancelled) :
    let owed := ∃ f ∈ s.router.pending, f.request = x ∧ f.upstream ∈ s.router.openIds
    let held := ∃ r ∈ s.readers, r.hand = some x ∧ (x, r.id) ∈ s.forwarded
    (owed ∨ held ∨ s.replies x = 1) ∧ ¬ (owed ∧ held) ∧ (owed ∨ held → s.replies x = 0) := by
  have b := (Session.Books.start root).run hplain hs
  refine ⟨?_, ?_, ?_⟩
  · rcases b.complete x hx with h | ⟨f, hf, hreq⟩ | ⟨r, hr, hhand⟩ | h
    · exact absurd h hc
    · exact .inl ⟨f, hf, hreq, b.pending_open f hf⟩
    · exact .inr (.inl ⟨r, hr, hhand, b.answered _ _ (b.hand_answered r hr x hhand)⟩)
    · exact .inr (.inr (Nat.le_antisymm (b.atMostOne x) h))
  · rintro ⟨⟨f, hf, rfl, _⟩, r, hr, hhand, hsent⟩
    have hsame := b.unique _ _ _ (b.pending_forwarded f hf) hsent
    exact b.pending_unanswered f hf (hsame ▸ b.hand_answered r hr _ hhand)
  · rintro (⟨f, hf, rfl, _⟩ | ⟨r, hr, hhand, _⟩)
    · exact b.pending_silent f hf
    · exact b.hand_silent r hr x hhand

theorem request_in_one_place_opening : ∃ s, (Session.start "/r").run (endedSub.take 3) = some s ∧
    (∃ r ∈ s.readers, r.hand = some 1 ∧ (1, r.id) ∈ s.forwarded) ∧ s.replies 1 = 0 := by
  obtain ⟨s, hs, hp⟩ := (any_eq_true (fun s : Session Nat String => decide (1 ∈ s.requested ∧ 1 ∉ s.cancelled ∧
    ∃ r ∈ s.readers.rows, r.hand = some 1 ∧ (1, r.id) ∈ s.forwarded)) ((Session.start "/r").run (endedSub.take 3))).mp
    (by decide +kernel)
  obtain ⟨hx, hc, hheld⟩ := of_decide_eq_true hp
  have hplain : ∀ a ∈ endedSub.take 3, a.Plain := by simp [endedSub, Action.Plain, classify, ClientMessage.kind]
  exact ⟨s, hs, hheld, (request_in_one_place "/r" _ hplain hs hx hc).2.2 (.inr hheld)⟩

/-- After the front is gone a cancellation comes with an id of its own. -/
def cancelsGone : List (Action Nat "/r") := endedSub.take 7 ++ [.upstreamEnd 0, .clientFrame subEnv
  (some { id := some (some 2), method := some "notifications/cancelled", requestId := some (some 1) }), .clientEof]

/-- A ping before the session is open is answered by the shim, and a cancellation that is a request by nobody. -/
theorem ping_answered_by_shim : (¬ ∀ (actions : List (Action Nat "/r")) (s : Session Nat String),
    (∀ a ∈ actions, a.Plain) → (Session.start "/r").run actions = some s →
      ∀ e ∈ s.out, ∀ x, e.answers = some x →
        (∃ u, (x, u) ∈ s.forwarded) ∨ ∃ id method p error, e = .own id method (.unreachable p error)) ∧
    ∃ s, (Session.start "/r").run cancelsGone = some s ∧ s.router.clientDone ∧ s.router.openUpstreams = [] ∧
      2 ∈ s.requested ∧ 2 ∉ s.cancelled ∧ s.replies 2 = 0 := by
  refine ⟨?_, ?_⟩
  swap
  · obtain ⟨s, hs, hp⟩ := (any_eq_true (fun s : Session Nat String => decide (s.router.clientDone ∧
      s.router.openUpstreams = [] ∧ 2 ∈ s.requested ∧ 2 ∉ s.cancelled ∧ s.replies 2 = 0))
      ((Session.start "/r").run cancelsGone)).mp (by decide +kernel)
    exact ⟨s, hs, of_decide_eq_true hp⟩
  intro hclaim
  let ping : Action Nat "/r" := .clientFrame {} (some { id := some (some 1), method := some "ping" })
  have hplain : ∀ a ∈ [ping], a.Plain := by
    simp [ping, Action.Plain, classify, ClientMessage.kind]
  have hrun : (Session.start "/r").run [ping] =
      some { Session.start "/r" with requested := [1], out := [.own (some 1) "ping" .pong] } := rfl
  rcases hclaim [ping] _ hplain hrun _ mem_cons_self 1 rfl with ⟨u, hu⟩ | ⟨_, _, _, _, he⟩
  · exact nomatch hu
  · cases he

def Event.isOwn : Event W P → Bool
  | .own _ _ _ => true
  | .done => true
  | _ => false

namespace Router

variable [DecidableEq P]

/-- A new connection for a project that is selected from then on. -/
structure Selects (r r' : Router W P) (u : Upstream P) : Prop where
  ne_root : u.root ≠ r.root
  opens : ∃ mid, r.Opens mid u true false ∧ r' = { mid with
    selected := some u.root
    selections := if u.root ∈ mid.selections then mid.selections else mid.selections ++ [u.root]
    guided := u.root :: mid.guided }

/-- An answer to a call is settled: the notices it carries are given. -/
structure Settles (r r' : Router W P) (v : Nat) (p : P) : Prop where
  root : r'.root = r.root
  front : r'.front = r.front
  opens : r'.openUpstreams = r.openUpstreams
  selected : r'.selected = r.selected
  selections : r'.selections = r.selections
  guidance : r'.guidance = r.guidance
  guided : r'.guided = if p ≠ r.root ∧ p ∉ r.guided then p :: r.guided else r.guided
  restarted : r'.restarted = r.restarted.filter (fun id => decide (id ≠ v))
  next : r'.nextUpstream = r.nextUpstream

structure Ends (r r' : Router W P) (v : Nat) : Prop where
  root : r'.root = r.root
  front : r'.front = r.front ∨ r'.front = .lost r.root
  sub : ∀ u ∈ r'.openUpstreams, u ∈ r.openUpstreams
  selected : r'.selected = r.selected
  selections : r'.selections = r.selections
  guidance : r'.guidance = r.guidance
  guided : r'.guided = r.guided
  restarted : r'.restarted = r.restarted.filter (fun id => decide (id ≠ v))
  next : r'.nextUpstream = r.nextUpstream

end Router

namespace Held

variable {h : Held W P} {request : Option (W × String)} {r : Held W P × Option (Upstream P)}

/-- Only new readers start, and the shim says nothing in a daemon's name and owes nothing more. -/
structure Quiet (h h' : Held W P) : Prop where
  own : ∀ e ∈ h'.sent, e.isOwn = true
  fresh : ∀ q ∈ h'.spawned, h.router.nextUpstream ≤ q.1
  owed : ∀ q ∈ h'.router.pending, q ∈ h.router.pending

theorem Targets.quiet (ht : Targets h request r) (hs : h.sent = []) (hn : h.spawned = []) : Quiet h r.1 where
  own e he := by
    cases htarget : r.2 with
    | some u =>
      rw [(ht.target u htarget).2, hs] at he
      exact nomatch he
    | none =>
      cases hr : request with
      | none =>
        rw [ht.silent htarget hr, hs] at he
        exact nomatch he
      | some q =>
        obtain ⟨why, _, hsent⟩ := ht.answer htarget q.1 q.2 hr
        rw [hsent, hs, nil_append, mem_singleton] at he
        rw [he]
        rfl
  fresh q hq := by
    rcases ht.grows.spawned q hq with hq | hq
    · rw [hn] at hq
      exact nomatch hq
    · exact hq.1
  owed q hq := ht.grows.pending ▸ hq

variable [DecidableEq W] [DecidableEq P]

theorem chooseTarget_quiet (env : Surroundings root) (frame : Option (ClientMessage W))
    (hroot : h.router.root = root) (hn : h.router.Numbered) (hsent : h.sent = []) (hspawned : h.spawned = []) :
    Quiet h (h.chooseTarget env frame (classify frame).1 (classify frame).2).1 := by
  by_cases hcancel : ∃ id, (classify frame).1 = .cancelled id
  · obtain ⟨id, hk⟩ := hcancel
    rw [hk]
    show Quiet h (h.cancel id).1
    unfold cancel
    split
    next => exact ⟨hsent ▸ nofun, hspawned ▸ nofun, fun q hq => (KeyedTable.mem_erase.mp hq).1⟩
    next => exact ⟨hsent ▸ nofun, hspawned ▸ nofun, fun q hq => hq⟩
  · by_cases hselect : ∃ id, (classify frame).1 = .selectProject id
    · obtain ⟨id, hk⟩ := hselect
      have hq := (reach_targets env h .front true (classify frame).2 hroot hn nofun).quiet hsent hspawned
      rw [hk]
      unfold chooseTarget
      dsimp only
      split
      next => exact { hq with }
      next => exact hq
    · exact (chooseTarget_targets env h frame (classify frame).1 (classify frame).2 hroot hn
        (fun id hid => hcancel ⟨id, hid⟩) (fun id hid => hselect ⟨id, hid⟩)).1.quiet hsent hspawned

theorem onClientFrame_quiet (env : Surroundings root) (frame : Option (ClientMessage W))
    (hroot : h.router.root = root) (hn : h.router.Numbered) (hsent : h.sent = []) (hspawned : h.spawned = []) :
    (∀ e ∈ (h.onClientFrame env frame).1.sent, e.isOwn) ∧
      (∀ q ∈ (h.onClientFrame env frame).1.spawned, h.router.nextUpstream ≤ q.1) ∧
      ∀ q ∈ (h.onClientFrame env frame).1.router.pending,
        q ∈ h.router.pending ∨ (classify frame).2 = some (q.request, q.method) := by
  unfold onClientFrame
  dsimp only
  split
  next answered ha =>
    have hq := (Session.answered_targets ha).quiet hsent hspawned
    exact ⟨hq.own, hq.fresh, fun q h => .inl (hq.owed q h)⟩
  next =>
    have hq := chooseTarget_quiet env frame hroot hn hsent hspawned
    unfold record
    split
    next u id method _ hrequest =>
      refine ⟨hq.own, hq.fresh, fun q h => ?_⟩
      rcases KeyedTable.mem_put.mp h with rfl | h
      · exact .inr hrequest
      · exact .inl (hq.owed q h.1)
    next => exact ⟨hq.own, hq.fresh, fun q h => .inl (hq.owed q h)⟩

end Held

namespace Session

variable {s t : Session W P}

def Holds (s : Session W P) (v : Nat) (f : UpstreamFrame W P) (stamps : List (Stamp P)) : Prop :=
  ∃ r ∈ s.readers, r.id = v ∧ (r.phase = .settled f stamps ∨ r.phase = .passing f stamps)

/-- A reader holds a frame that may still turn out to switch projects. -/
def Settling (s : Session W P) (v : Nat) : Prop := ∃ r ∈ s.readers, r.id = v ∧ ∃ f stamps, r.phase = .settled f stamps

def Running (s : Session W P) (v : Nat) : Prop := ∃ r ∈ s.readers, r.id = v

variable {w : Nat} {g : UpstreamFrame W P} {st : List (Stamp P)} {phase : Phase W P} {r : Reader W P} {h : Held W P}

theorem holds_setPhase :
    (s.setPhase r phase).Holds w g st ↔
      (w = r.id ∧ (phase = .settled g st ∨ phase = .passing g st)) ∨ (w ≠ r.id ∧ s.Holds w g st) := by
  unfold Holds
  simp only [mem_setPhase]
  constructor
  · rintro ⟨q, hq | ⟨hq, hne⟩, rfl, hphase⟩
    · subst hq
      exact .inl ⟨rfl, hphase⟩
    · exact .inr ⟨hne, q, hq, rfl, hphase⟩
  · rintro (⟨rfl, hphase⟩ | ⟨hne, q, hq, rfl, hphase⟩)
    · exact ⟨{ r with phase }, .inl rfl, rfl, hphase⟩
    · exact ⟨q, .inr ⟨hq, hne⟩, rfl, hphase⟩

theorem running_setPhase (hr : r ∈ s.readers) (h : (s.setPhase r phase).Running w) : s.Running w := by
  obtain ⟨q, hq, rfl⟩ := h
  exact exists_reader_of_setPhase hr hq

theorem holds_commit (hnew : ∀ q ∈ h.spawned, ∀ r ∈ s.readers, q.1 ≠ r.id) :
    (s.commit h).Holds w g st ↔ s.Holds w g st := by
  constructor
  · rintro ⟨r, hr, rfl, hphase⟩
    rcases mem_spawn hr with hr | ⟨q, _, rfl⟩
    · exact ⟨r, hr, rfl, hphase⟩
    · rcases hphase with h | h <;> cases h
  · rintro ⟨r, hr, rfl, hphase⟩
    exact ⟨r, mem_spawn_old hr fun q hq => hnew q hq r hr, rfl, hphase⟩

theorem running_commit (hw : (s.commit h).Running w) : s.Running w ∨ ∃ q ∈ h.spawned, q.1 = w := by
  obtain ⟨r, hr, rfl⟩ := hw
  rcases mem_spawn hr with hr | ⟨q, hq, rfl⟩
  · exact .inl ⟨r, hr, rfl⟩
  · exact .inr ⟨q, hq, rfl⟩

theorem holds_unique {f : UpstreamFrame W P} {st' : List (Stamp P)} (h : s.Holds w f st) (h' : s.Holds w g st') :
    g = f ∧ st' = st := by
  obtain ⟨r, hr, hid, hp⟩ := h
  obtain ⟨q, hq, hid', hp'⟩ := h'
  obtain rfl := reader_eq hr hq (hid'.trans hid.symm)
  rcases hp with hp | hp <;> rcases hp' with hp' | hp' <;> rw [hp] at hp' <;> cases hp' <;> exact ⟨rfl, rfl⟩

/-- The readers go on with what they hold, and new ones hold nothing. -/
structure KeepsHands (s t : Session W P) : Prop where
  holds : ∀ w g st, t.Holds w g st ↔ s.Holds w g st
  running : ∀ w, t.Running w → s.Running w ∨ s.router.nextUpstream ≤ w

structure EmptiesHand (s t : Session W P) (v : Nat) : Prop where
  holds : ∀ w g st, t.Holds w g st ↔ w ≠ v ∧ s.Holds w g st
  running : ∀ w, t.Running w → s.Running w ∨ s.router.nextUpstream ≤ w

structure FillsHand (s t : Session W P) (v : Nat) (f : UpstreamFrame W P) (stamps : List (Stamp P)) : Prop where
  empty : ∀ g st, ¬ s.Holds v g st
  reader : s.Running v
  holds : ∀ w g st, t.Holds w g st ↔ (w = v ∧ g = f ∧ st = stamps) ∨ s.Holds w g st
  running : ∀ w, t.Running w → s.Running w

def Adds (s t : Session W P) : Prop := ∃ own, t.out = s.out ++ own ∧ ∀ e ∈ own, e.isOwn = true

variable [DecidableEq P]

/-- What a step does to connections, selection and notices, to what readers hold and what is said. -/
inductive Change (s t : Session W P) : Action W root → Prop
  | stays {a : Action W root} (router : s.router.Same t.router) (hands : KeepsHands s t) (out : Adds s t) :
    Change s t a
  | opens {a : Action W root} (u : Upstream P) (replay restart : Bool) (router : s.router.Opens t.router u replay restart)
    (marked : s.router.Lost u.root → restart = true)
    (uninstructed : replay = false → u.root = s.router.root ∨ s.router.selected = some u.root)
    (hands : KeepsHands s t) (out : Adds s t) : Change s t a
  | notes (v : Nat) (f : UpstreamFrame W P) (router : s.router.Same t.router) (hands : FillsHand s t v f [])
    (unowed : ∀ x, f.responseId = some x → (x, v) ∈ s.delivered ∧ (x, v) ∉ s.answered ∧
      ∀ q ∈ s.router.pending, q.request = x → q.method ≠ "tools/call")
    (out : t.out = s.out) : Change s t (.daemonFrame v f)
  | settles (v : Nat) (f : UpstreamFrame W P) (x : W) (p : P) (hx : f.responseId = some x)
    (owed : ∃ q ∈ s.router.pending, q.request = x ∧ q.upstream = v ∧ q.method = "tools/call")
    (served : ⟨v, p⟩ ∈ s.router.openUpstreams) (router : s.router.Settles t.router v p)
    (hands : FillsHand s t v f (s.held.stamps v p).2) (out : t.out = s.out) : Change s t (.daemonFrame v f)
  | passes (v : Nat) (f : UpstreamFrame W P) (stamps : List (Stamp P)) (had : s.Holds v f stamps)
    (router : t.router = s.router) (hands : EmptiesHand s t v) (out : t.out = s.out ++ [.relayed v f stamps]) :
    Change s t (.forward v)
  | fails (env : Surroundings root) (v : Nat) (f : UpstreamFrame W P) (stamps : List (Stamp P)) (id : Option W)
    (error : String) (had : s.Holds v f stamps) (front : s.Settling v) (switch : f.switchRoot.isSome)
    (router : s.router.Same t.router)
    (hands : EmptiesHand s t v) (out : t.out = s.out ++ [.switched v id (.error error)]) :
    Change s t (.frontFrame env v)
  | selects (env : Surroundings root) (v : Nat) (f : UpstreamFrame W P) (stamps : List (Stamp P)) (id : Option W)
    (u : Upstream P) (had : s.Holds v f stamps) (front : s.Settling v)
    (switch : ∃ target, f.switchRoot = some target ∧ env.canonicalize target = some u.root)
    (router : s.router.Selects t.router u)
    (hands : EmptiesHand s t v) (out : t.out = s.out ++ [.switched v id (.ok u.root)]) : Change s t (.frontFrame env v)
  | ends (v : Nat) (router : s.router.Ends t.router v) (empty : ∀ g st, ¬ s.Holds v g st)
    (holds : ∀ w g st, t.Holds w g st ↔ s.Holds w g st) (running : ∀ w, t.Running w → s.Running w ∧ w ≠ v)
    (out : Adds s t) : Change s t (.upstreamEnd v)

/-- A frame that is no answer to a call still owed. -/
def Unowed (s : Session W P) (v : Nat) (f : UpstreamFrame W P) : Prop :=
  ∀ x, f.responseId = some x → (x, v) ∈ s.delivered ∧ (x, v) ∉ s.answered ∧
    ∀ q ∈ s.router.pending, q.request = x → q.method ≠ "tools/call"

structure TakesAnswer (s t : Session W P) (v : Nat) (f : UpstreamFrame W P) (x : W) (p : P) : Prop where
  id : f.responseId = some x
  owed : ∃ q ∈ s.router.pending, q.request = x ∧ q.upstream = v ∧ q.method = "tools/call"
  served : ⟨v, p⟩ ∈ s.router.openUpstreams
  router : s.router.Settles t.router v p
  hands : FillsHand s t v f (s.held.stamps v p).2

namespace Change

variable {a : Action W root} (hc : Change s t a) {v : Nat} {f : UpstreamFrame W P} {st : List (Stamp P)}

include hc

theorem spoken : ∃ more, t.out = s.out ++ more ∧ ∀ e ∈ more, e.isOwn ∨
    (∃ v f st, e = .relayed v f st ∧ s.Holds v f st ∧ ∀ g st', ¬ t.Holds v g st') ∨
    ∃ v id r f st, e = .switched v id r ∧ s.Settling v ∧ s.Holds v f st ∧ f.switchRoot.isSome := by
  cases hc with
  | stays _ _ out | opens _ _ _ _ _ _ _ out | ends _ _ _ _ _ out =>
    obtain ⟨own, hout, hown⟩ := out
    exact ⟨own, hout, fun e he => .inl (hown e he)⟩
  | notes _ _ _ _ _ out | settles _ _ _ _ _ _ _ _ _ out => exact ⟨[], out.trans (append_nil _).symm, nofun⟩
  | passes v f st had _ hands out =>
    refine ⟨_, out, fun e he => .inr (.inl ⟨v, f, st, mem_singleton.mp he, had, fun g st' hh => ?_⟩)⟩
    exact ((hands.holds _ _ _).mp hh).1 rfl
  | fails _ v f st id _ had front switch _ _ out =>
    exact ⟨_, out, fun e he => .inr (.inr ⟨v, id, _, f, st, mem_singleton.mp he, front, had, switch⟩)⟩
  | selects _ v f st id _ had front switch _ _ out =>
    obtain ⟨target, htarget, _⟩ := switch
    refine ⟨_, out, fun e he => .inr (.inr ⟨v, id, _, f, st, mem_singleton.mp he, front, had, ?_⟩)⟩
    rw [htarget, isSome_some]

theorem took (hh : t.Holds v f st) : s.Holds v f st ∨ a = .daemonFrame v f ∧ s.Running v ∧
    (st = [] ∧ s.Unowed v f ∨ ∃ x p, TakesAnswer s t v f x p ∧ st = (s.held.stamps v p).2) := by
  cases hc with
  | stays _ hands | opens _ _ _ _ _ _ hands => exact .inl ((hands.holds _ _ _).mp hh)
  | passes _ _ _ _ _ hands | fails _ _ _ _ _ _ _ _ _ _ hands | selects _ _ _ _ _ _ _ _ _ _ hands =>
    exact .inl ((hands.holds _ _ _).mp hh).2
  | ends _ _ _ holds => exact .inl ((holds _ _ _).mp hh)
  | notes _ _ _ hands unowed =>
    refine ((hands.holds _ _ _).mp hh).symm.imp_right ?_
    rintro ⟨rfl, rfl, rfl⟩
    exact ⟨rfl, hands.reader, .inl ⟨rfl, unowed⟩⟩
  | settles _ _ x p hx owed served router hands =>
    refine ((hands.holds _ _ _).mp hh).symm.imp_right ?_
    rintro ⟨rfl, rfl, rfl⟩
    exact ⟨rfl, hands.reader, .inr ⟨x, p, ⟨hx, owed, served, router, hands⟩, rfl⟩⟩

/-- A held frame stays held, is passed on, or is taken for a switch. -/
theorem keeps (hh : s.Holds v f st) : t.Holds v f st ∨
    (t.out = s.out ++ [.relayed v f st] ∧ ∀ g st', ¬ t.Holds v g st') ∨ s.Settling v ∧ f.switchRoot.isSome := by
  cases hc with
  | stays _ hands | opens _ _ _ _ _ _ hands => exact .inl ((hands.holds _ _ _).mpr hh)
  | notes _ _ _ hands | settles _ _ _ _ _ _ _ _ hands => exact .inl ((hands.holds _ _ _).mpr (.inr hh))
  | ends _ _ _ holds => exact .inl ((holds _ _ _).mpr hh)
  | passes w g st' had _ hands out =>
    by_cases hw : v = w
    · subst hw
      obtain ⟨rfl, rfl⟩ := holds_unique hh had
      exact .inr (.inl ⟨out, fun g st' hh => ((hands.holds _ _ _).mp hh).1 rfl⟩)
    · exact .inl ((hands.holds _ _ _).mpr ⟨hw, hh⟩)
  | fails _ w _ _ _ _ had front switch _ hands =>
    by_cases hw : v = w
    · subst hw
      exact .inr (.inr ⟨front, (holds_unique hh had).1 ▸ switch⟩)
    · exact .inl ((hands.holds _ _ _).mpr ⟨hw, hh⟩)
  | selects _ w _ _ _ _ had front switch _ hands =>
    by_cases hw : v = w
    · subst hw
      obtain ⟨target, htarget, _⟩ := switch
      exact .inr (.inr ⟨front, by rw [← (holds_unique hh had).1, htarget, isSome_some]⟩)
    · exact .inl ((hands.holds _ _ _).mpr ⟨hw, hh⟩)

end Change

end Session

end GMesh
