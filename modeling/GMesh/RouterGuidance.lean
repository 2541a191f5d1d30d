import GMesh.RouterProjects

namespace GMesh

variable {W P : Type} {root : P}

def requests (actions : List (Action W root)) : List (W × String) :=
  actions.filterMap fun a => match a with
    | .clientFrame _ frame => (classify frame).2
    | _ => none

variable (calls : List (W × String))

/-- An answer to a call with a content array. -/
def UpstreamFrame.IsResult (f : UpstreamFrame W P) : Prop :=
  f.hasContent = true ∧ ∃ x, f.responseId = some x ∧ (x, "tools/call") ∈ calls

def Event.ResultOf (v : Nat) : Event W P → Prop
  | .relayed w f _ => w = v ∧ f.IsResult calls
  | .switched w _ _ => w = v
  | _ => False

def Event.Carries (stamp : Stamp P) : Event W P → Prop
  | .relayed _ f stamps => stamp ∈ f.stamped stamps
  | _ => False

variable {calls} {st : List (Stamp P)} {x : W}

theorem Event.isOwn_resultOf {v : Nat} {e : Event W P} (h : e.isOwn) : ¬ e.ResultOf calls v := by
  cases e with
  | relayed => cases h
  | switched => cases h
  | own => exact fun h' => h'
  | done => exact fun h' => h'

theorem Event.carries_iff {v : Nat} {f : UpstreamFrame W P} {stamp : Stamp P} (h : f.hasContent) :
    (Event.relayed v f st).Carries stamp ↔ stamp ∈ st := by
  show stamp ∈ UpstreamFrame.stamped f st ↔ _
  rw [UpstreamFrame.stamped, if_pos h]

namespace Session

variable {s t : Session W P} {v : Nat} {f : UpstreamFrame W P}

theorem Holds.running (h : s.Holds v f st) : s.Running v := by
  obtain ⟨r, hr, hid, _⟩ := h
  exact ⟨r, hr, hid⟩

theorem Books.running_lt [DecidableEq W] (b : Books root s) (h : s.Running v) : v < s.router.nextUpstream := by
  obtain ⟨r, hr, rfl⟩ := h
  exact b.numbered.lt_next _ (b.reader_open r hr)

/-- A notice waits for the next answer of an upstream. -/
def Due (root : P) (s : Session W P) (v : Nat) : Prop :=
  v ∈ s.router.restarted ∨ ∃ p, ⟨v, p⟩ ∈ s.router.openUpstreams ∧ p ≠ root ∧ p ∉ s.router.guided

variable [DecidableEq P]

/-- The condition on a step under which no notice is lost. While one waits, an owed call gets a result, no cancelled
call's result comes and a restarted front switches nothing. Two connections of a project do not hand over results at
once, and no switch goes to a lost connection. -/
def Orderly (s : Session W P) : Action W root → Prop
  | .daemonFrame v f =>
    (v ∈ s.router.restarted → f.switchRoot = none) ∧ ∀ x, f.responseId = some x →
      (s.Due root v → (x ∈ s.cancelled → f.hasContent = false) ∧
        ((∃ q ∈ s.router.pending, q.request = x ∧ q.method = "tools/call") → f.hasContent = true)) ∧
      ∀ p w, ⟨v, p⟩ ∈ s.router.openUpstreams → ⟨w, p⟩ ∈ s.router.openUpstreams → w ≠ v → ∀ g st, ¬ s.Holds w g st
  | .frontFrame env v => ∀ f st target p, s.Holds v f st → f.switchRoot = some target →
    env.canonicalize target = some p → ¬ s.router.Lost p
  | _ => True

/-- The calls of a run known in advance: each request has one method. -/
structure Foreseen (calls : List (W × String)) (s : Session W P) : Prop where
  once : ∀ x m m', (x, m) ∈ calls → (x, m') ∈ calls → m = m'
  pending : ∀ q ∈ s.router.pending, (q.request, q.method) ∈ calls

theorem Foreseen.step [DecidableEq W] (h : Foreseen calls s) (b : Books root s) {a : Action W root}
    (ha : ∀ env frame q, a = .clientFrame env frame → (classify frame).2 = some q → q ∈ calls)
    (hs : s.step a = some t) : Foreseen calls t := by
  refine ⟨h.once, fun q hq => ?_⟩
  rcases (step_extends b hs).pending q hq with hq | ⟨env, frame, he, hclass, _⟩
  · exact h.pending q hq
  · exact ha env frame _ he hclass

theorem Foreseen.not_result [DecidableEq W] (h : Foreseen calls s) (b : Books root s)
    (ho : s.Orderly (.daemonFrame v f : Action W root)) (hv : s.Running v) (hdue : s.Due root v) (hu : s.Unowed v f) :
    ¬ f.IsResult calls := by
  rintro ⟨hcontent, x, hx, hcall⟩
  obtain ⟨hd, ha, hmethod⟩ := hu x hx
  rcases b.owed hd ha hv with hcancel | ⟨q, hq, hqx⟩
  · have hnone := ((ho.2 x hx).1 hdue).1 hcancel
    rw [hcontent] at hnone
    cases hnone
  · exact hmethod q hq hqx (h.once x _ _ (hqx ▸ h.pending q hq) hcall)

theorem TakesAnswer.result {p : P} (k : TakesAnswer s t v f x p) (fs : Foreseen calls s)
    (ho : s.Orderly (.daemonFrame v f : Action W root)) (hdue : s.Due root v) : f.IsResult calls := by
  have hcontent := ((ho.2 x k.id).1 hdue).2 (k.owed.imp fun q hq => ⟨hq.1, hq.2.1, hq.2.2.2⟩)
  obtain ⟨q, hq, hqx, _, hmethod⟩ := k.owed
  refine ⟨hcontent, x, k.id, ?_⟩
  rw [← hqx, ← hmethod]
  exact fs.pending q hq

section Restart

variable {u : Upstream P}

variable (calls u) in
/-- Nothing was heard of a restarted upstream yet. -/
structure Unheard (s : Session W P) : Prop where
  said : ∀ e ∈ s.out, ¬ e.ResultOf calls u.id
  held : ∀ f st, s.Holds u.id f st → ¬ f.IsResult calls ∧ f.switchRoot = none

variable (calls u) in
/-- What becomes of the mark on an upstream that replaced a lost connection. -/
inductive Noticed (s : Session W P) : Prop
  | due (marked : u.id ∈ s.router.restarted) (unheard : Unheard calls u s)
  | inHand (f : UpstreamFrame W P) (st : List (Stamp P)) (holds : s.Holds u.id f st) (result : f.IsResult calls)
    (carries : .restarted u.root ∈ st) (switch : f.switchRoot = none) (said : ∀ e ∈ s.out, ¬ e.ResultOf calls u.id)
  | given (before : List (Event W P)) (e : Event W P) (after : List (Event W P)) (out : s.out = before ++ e :: after)
    (result : e.ResultOf calls u.id) (carries : e.Carries (.restarted u.root))
    (first : ∀ e' ∈ before, ¬ e'.ResultOf calls u.id)
  | gone (ended : ¬ s.Running u.id) (said : ∀ e ∈ s.out, ¬ e.ResultOf calls u.id)

variable {v : Nat} {a : Action W root}

section

variable (hc : Change s t a)

include hc

theorem Change.running (h : t.Running v) : s.Running v ∨ s.router.nextUpstream ≤ v := by
  cases hc with
  | stays _ hands | opens _ _ _ _ _ _ hands | passes _ _ _ _ _ hands | fails _ _ _ _ _ _ _ _ _ _ hands
  | selects _ _ _ _ _ _ _ _ _ _ hands => exact hands.running v h
  | notes _ _ _ hands | settles _ _ _ _ _ _ _ _ hands => exact .inl (hands.running v h)
  | ends _ _ _ _ running => exact .inl (running v h).1

theorem Change.unsaid (hs : ∀ e ∈ s.out, ¬ e.ResultOf calls v)
    (hpass : ∀ f st, s.Holds v f st → (∀ g st', ¬ t.Holds v g st') → ¬ f.IsResult calls)
    (hswitch : ∀ f st, s.Settling v → s.Holds v f st → f.switchRoot.isSome ≠ true) :
    ∀ e ∈ t.out, ¬ e.ResultOf calls v := by
  obtain ⟨more, hout, hmore⟩ := hc.spoken
  intro e he hr
  rw [hout] at he
  rcases List.mem_append.mp he with he | he
  · exact hs e he hr
  · rcases hmore e he with hown | ⟨w, f, st, rfl, hh, hgone⟩ | ⟨w, id, r, f, st, rfl, hfront, hh, hswitched⟩
    · exact Event.isOwn_resultOf hown hr
    · obtain ⟨rfl, hr⟩ := hr
      exact hpass f st hh hgone hr
    · obtain rfl : w = v := hr
      exact hswitch f st hfront hh hswitched

theorem Change.unsaid_gone (hv : ¬ s.Running v) (hs : ∀ e ∈ s.out, ¬ e.ResultOf calls v) :
    ∀ e ∈ t.out, ¬ e.ResultOf calls v :=
  hc.unsaid hs (fun _ _ hh => absurd hh.running hv) fun _ _ _ hh => absurd hh.running hv

/-- The mark of a restart stays until an answer takes it or its reader is gone. -/
theorem Change.restarted (hv : v ∈ s.router.restarted) :
    v ∈ t.router.restarted ∨ (∃ f x p, a = .daemonFrame v f ∧ TakesAnswer s t v f x p) ∨ ¬ t.Running v := by
  cases hc with
  | stays router | notes _ _ router | fails _ _ _ _ _ _ _ _ _ router => exact .inl (router.restarted ▸ hv)
  | opens _ _ _ router =>
    rw [router.restarted]
    exact .inl (List.mem_append_left _ hv)
  | settles w f x p hx owed served router hands =>
    by_cases hw : w = v
    · subst hw
      exact .inr (.inl ⟨f, x, p, rfl, hx, owed, served, router, hands⟩)
    · rw [router.restarted]
      exact .inl (List.mem_filter.mpr ⟨hv, decide_eq_true (Ne.symm hw)⟩)
  | passes _ _ _ _ router => exact .inl (router ▸ hv)
  | selects _ _ _ _ _ _ _ _ _ router =>
    obtain ⟨mid, hopens, hr⟩ := router.opens
    rw [hr]
    exact .inl (hopens.restarted ▸ List.mem_append_left _ hv)
  | ends w router _ _ running =>
    by_cases hw : w = v
    · subst hw
      exact .inr (.inr fun h => (running _ h).2 rfl)
    · rw [router.restarted]
      exact .inl (List.mem_filter.mpr ⟨hv, decide_eq_true (Ne.symm hw)⟩)

end

theorem stamps_restarted {h : Held W P} {p : P} (hv : v ∈ h.router.restarted) : .restarted p ∈ (h.stamps v p).2 := by
  unfold Held.stamps
  simp [hv]

theorem Noticed.step_inHand (hc : Change s t a) {f : UpstreamFrame W P}
    (holds : s.Holds u.id f st) (result : f.IsResult calls) (carries : .restarted u.root ∈ st)
    (switch : f.switchRoot = none) (said : ∀ e ∈ s.out, ¬ e.ResultOf calls u.id) : Noticed calls u t := by
  rcases hc.keeps holds with hholds | ⟨hout, _⟩ | ⟨_, hswitch⟩
  · refine .inHand f st hholds result carries switch
      (hc.unsaid said (fun g st' _ hgone => absurd hholds (hgone f st)) fun g st' _ hh hswitch => ?_)
    rw [(holds_unique holds hh).1, switch] at hswitch
    cases hswitch
  · exact .given s.out _ [] hout ⟨rfl, result⟩ ((Event.carries_iff result.1).mpr carries) said
  · rw [switch] at hswitch
    cases hswitch

variable [DecidableEq W]

theorem Noticed.step_due (b : Books root s) (fs : Foreseen calls s) (hc : Change s t a) (ho : s.Orderly a)
    (rooted : ∀ v ∈ s.router.openUpstreams, v.id = u.id → v = u) (marked : u.id ∈ s.router.restarted)
    (unheard : Unheard calls u s) : Noticed calls u t := by
  have hdue : s.Due root u.id := .inl marked
  have hsaid : ∀ e ∈ t.out, ¬ e.ResultOf calls u.id := by
    refine hc.unsaid unheard.said (fun f st hh _ => (unheard.held f st hh).1) fun f st _ hh hswitch => ?_
    rw [(unheard.held f st hh).2] at hswitch
    cases hswitch
  rcases hc.restarted marked with hmarked | ⟨g, x, p, rfl, took⟩ | hended
  · refine .due hmarked ⟨hsaid, fun f st hh => ?_⟩
    rcases hc.took hh with hh | ⟨rfl, hreader, ⟨rfl, unowed⟩ | ⟨x, p, took, _⟩⟩
    · exact unheard.held f st hh
    · exact ⟨fs.not_result b ho hreader hdue unowed, ho.1 marked⟩
    · rw [took.router.restarted] at hmarked
      exact absurd rfl (of_decide_eq_true (List.mem_filter.mp hmarked).2)
  · have hp := congrArg Upstream.root (rooted _ took.served rfl)
    refine .inHand g _ ((took.hands.holds _ _ _).mpr (.inl ⟨rfl, rfl, rfl⟩)) (took.result fs ho hdue) ?_ (ho.1 marked)
      hsaid
    rw [← hp]
    exact stamps_restarted marked
  · exact .gone hended hsaid

/-- Every step keeps to what becomes of a mark. -/
theorem Noticed.step (n : Noticed calls u s) (b : Books root s) (fs : Foreseen calls s) (hc : Change s t a)
    (ho : s.Orderly a) (rooted : ∀ v ∈ s.router.openUpstreams, v.id = u.id → v = u)
    (number : u.id < s.router.nextUpstream) : Noticed calls u t := by
  cases n with
  | due marked unheard => exact step_due b fs hc ho rooted marked unheard
  | inHand _ _ holds result carries switch said => exact step_inHand hc holds result carries switch said
  | given before e after out result carries first =>
    obtain ⟨more, hmore, _⟩ := hc.spoken
    refine .given before e (after ++ more) ?_ result carries first
    rw [hmore, out, List.append_assoc]
    rfl
  | gone ended said =>
    refine .gone (fun h => ?_) (hc.unsaid_gone ended said)
    rcases hc.running h with h | h
    · exact ended h
    · omega

end Restart

end Session

open List

variable {calls : List (W × String)}

namespace Router

variable [DecidableEq P]

theorem Selects.guided_iff {r r' : Router W P} {u : Upstream P} {p : P} (h : r.Selects r' u) (hu : u.root ≠ p) :
    p ∈ r'.guided ↔ p ∈ r.guided := by
  obtain ⟨mid, ho, hr⟩ := h.opens
  rw [hr]
  rw [mem_cons, ho.guided]
  exact or_iff_right (Ne.symm hu)

end Router

namespace Session

variable {s t : Session W P}

/-- Only the front's reader looks for a switch in what it took. -/
def FrontSettles (s : Session W P) : Prop :=
  ∀ r ∈ s.readers, ∀ f stamps, r.phase = .settled f stamps → r.isFront = true

theorem FrontSettles.commit (h : FrontSettles s) (g : Held W P) : FrontSettles (s.commit g) := by
  intro r hr f stamps hp
  rcases mem_spawn hr with hr | ⟨q, _, rfl⟩
  · exact h r hr f stamps hp
  · cases hp

theorem FrontSettles.setPhase (h : FrontSettles s) {r : Reader W P} {phase : Phase W P}
    (hphase : ∀ f stamps, phase = .settled f stamps → r.isFront) : FrontSettles (s.setPhase r phase) := by
  intro q hq f stamps hp
  rcases mem_setPhase.mp hq with hq | hq
  · subst hq
    exact hphase f stamps hp
  · exact h q hq.1 f stamps hp

theorem FrontSettles.step [DecidableEq W] [DecidableEq P] (h : FrontSettles s) {a : Action W root}
    (hs : s.step a = some t) : FrontSettles t := by
  have hbranch : ∀ (r : Reader W P) (f : UpstreamFrame W P) (st : List (Stamp P)) (g : UpstreamFrame W P)
      (st' : List (Stamp P)), (if r.isFront then Phase.settled f st else .passing f st) = .settled g st' →
      r.isFront := by
    intro r f st g st' hp
    split at hp
    next hf => exact hf
    next => cases hp
  cases step_cases hs with
  | clientFrame | clientRelease | clientEof => exact h.commit _
  | clientSend => exact h
  | @note r f => exact h.setPhase (hbranch r f [])
  | @answer r f => exact (h.commit _).setPhase (hbranch r f _)
  | frontFrame _ _ hp =>
    refine (h.commit _).setPhase fun g st' hp => ?_
    split at hp <;> cases hp
  | forward hr hp => exact h.setPhase nofun
  | upstreamEnd hr hp => exact fun q hq => h q (KeyedTable.mem_erase.mp hq).1

variable {v : Nat} {text : String}

theorem Charted.settling [DecidableEq W] (c : Charted root s) (b : Books root s) (h : FrontSettles s)
    (hv : s.Settling v) :
    ⟨v, root⟩ ∈ s.router.openUpstreams := by
  obtain ⟨r, hr, rfl, f, stamps, hp⟩ := hv
  have hid := (b.reader_front r hr).mp (h r hr f stamps hp)
  have hfront := c.rooted.front
  unfold Router.frontId at hid
  rw [Router.mem_openUpstreams]
  cases hs : s.router.front with
  | lost q =>
    rw [hs] at hid
    cases hid
  | live u =>
    rw [hs] at hid hfront
    have hid : u.id = r.id := Option.some.inj hid
    exact .inl (by rw [← hid, ← show u.root = root from hfront])

theorem Books.running_open [DecidableEq W] (b : Books root s) (h : s.Running v) :
    ∃ q, ⟨v, q⟩ ∈ s.router.openUpstreams := by
  obtain ⟨r, hr, rfl⟩ := h
  obtain ⟨u, hu, hid⟩ := Router.mem_openIds.mp (b.reader_open r hr)
  exact ⟨u.root, by rw [← hid]; exact hu⟩

variable [DecidableEq P]

theorem stamps_guidance {h : Held W P} {p q : P} (hm : Stamp.guidance p text ∈ (h.stamps v q).2) :
    q = p ∧ p ∉ h.router.guided := by
  unfold Held.stamps at hm
  rcases mem_append.mp hm with hm | hm
  · rcases mem_append.mp hm with hm | hm
    · split at hm
      next => exact nomatch mem_singleton.mp hm
      next => exact nomatch hm
    · split at hm
      next => exact nomatch mem_singleton.mp hm
      next => exact nomatch hm
  · split at hm
    next hfresh =>
      obtain ⟨_, _, he⟩ := mem_map.mp hm
      cases he
      exact ⟨rfl, of_decide_eq_true (Bool.and_eq_true_iff.mp hfresh).2⟩
    next => exact nomatch hm

theorem stamps_instructs {h : Held W P} {p : P} (hp : p ≠ h.router.root) (hg : p ∉ h.router.guided)
    (hi : (h.router.guidance p).isSome) : ∃ text, Stamp.guidance p text ∈ (h.stamps v p).2 := by
  obtain ⟨text, htext⟩ := Option.isSome_iff_exists.mp hi
  refine ⟨text, ?_⟩
  unfold Held.stamps
  simp [hp, hg, htext]

section Guidance

variable {p : P} {serves : Nat → Prop}

def Instructed (p : P) (s : Session W P) : Prop :=
  ∀ u ∈ s.router.openUpstreams, u.root = p → (s.router.guidance p).isSome

variable {a : Action W root}

/-- The open connections of a project that was not selected keep its instructions. -/
theorem Instructed.step (h : Instructed p s) (c : Charted root s) (hp : p ≠ root) (hn : ¬ s.SwitchedTo p)
    (hc : Change s t a) : Instructed p t := by
  have hopens : ∀ {r : Router W P} {u : Upstream P} {replay restart : Bool}, s.router.Opens r u replay restart →
      (replay = false → u.root = s.router.root ∨ s.router.selected = some u.root) →
      ∀ v ∈ r.openUpstreams, v.root = p → (r.guidance p).isSome := by
    intro r u replay restart ho hreplay v hv hvp
    rcases ho.adds v hv with hv | rfl
    · exact ho.guidance p (h v hv hvp)
    · cases replay with
      | true =>
        rw [← hvp]
        exact ho.instructed rfl (by rw [hvp, c.rooted.root_eq]; exact hp)
      | false =>
        rcases hreplay rfl with hroot | hsel
        · exact absurd (hvp.symm.trans (hroot.trans c.rooted.root_eq)) hp
        · rw [hvp] at hsel
          exact absurd ((c.switched p).mp (c.selected p hsel)) hn
  cases hc with
  | opens _ _ _ router _ uninstructed => exact hopens router uninstructed
  | settles _ _ _ _ _ _ _ router =>
    intro v hv hvp
    rw [router.guidance]
    exact h v (router.opens ▸ hv) hvp
  | passes _ _ _ _ router =>
    intro v hv hvp
    rw [router] at hv ⊢
    exact h v hv hvp
  | stays router | notes _ _ router
  | fails _ _ _ _ _ _ _ _ _ router =>
    intro v hv hvp
    rw [router.guidance]
    exact h v (router.openUpstreams ▸ hv) hvp
  | selects _ _ _ _ _ _ _ _ _ router =>
    obtain ⟨mid, ho, hr⟩ := router.opens
    have hmid := hopens ho nofun
    rw [Instructed, hr]
    exact hmid
  | ends _ router =>
    intro v hv hvp
    rw [router.guidance]
    exact h v (router.sub v hv) hvp

/-- A held frame that is no result and carries no guidance of the project. -/
def Bare (calls : List (W × String)) (p : P) (f : UpstreamFrame W P) (st : List (Stamp P)) : Prop :=
  ¬ f.IsResult calls ∧ ∀ text, .guidance p text ∉ st

variable (calls serves p) in
/-- The guidance of a project that is never selected is given with its first result. -/
inductive Told (s : Session W P) : Prop
  | untold (unguided : p ∉ s.router.guided) (said : ∀ v, serves v → ∀ e ∈ s.out, ¬ e.ResultOf calls v)
    (held : ∀ v, serves v → ∀ f st, s.Holds v f st → Bare calls p f st)
  | inHand (guided : p ∈ s.router.guided) (v : Nat) (f : UpstreamFrame W P) (st : List (Stamp P)) (text : String)
    (sv : serves v) (holds : s.Holds v f st) (result : f.IsResult calls) (carries : .guidance p text ∈ st)
    (said : ∀ w, serves w → ∀ e ∈ s.out, ¬ e.ResultOf calls w)
    (others : ∀ w, serves w → w ≠ v → ∀ g st', s.Holds w g st' → Bare calls p g st')
  | given (guided : p ∈ s.router.guided) (before : List (Event W P)) (e : Event W P) (after : List (Event W P))
    (v : Nat) (text : String) (out : s.out = before ++ e :: after) (sv : serves v) (result : e.ResultOf calls v)
    (carries : e.Carries (.guidance p text)) (first : ∀ w, serves w → ∀ e' ∈ before, ¬ e'.ResultOf calls w)
    (once : ∀ w, serves w → ∀ e' ∈ after, e'.ResultOf calls w → ∀ text', ¬ e'.Carries (.guidance p text'))
    (held : ∀ w, serves w → ∀ g st', s.Holds w g st' → ∀ text', .guidance p text' ∉ st')

/-- What is known of the readers that serve a project, before a step. -/
structure Served (root p : P) (serves : Nat → Prop) (s : Session W P) : Prop where
  ne_root : p ≠ root
  opened : ∀ v, s.Running v → (serves v ↔ ⟨v, p⟩ ∈ s.router.openUpstreams)
  front : ∀ v, s.Settling v → ¬ serves v
  instructed : Instructed p s

variable {v : Nat} {f : UpstreamFrame W P}

section

variable (h : Served root p serves s)

include h

omit [DecidableEq P] in
theorem Served.project (c : Charted root s) {q : P} (hv : s.Running v) (hq : ⟨v, q⟩ ∈ s.router.openUpstreams) :
    serves v ↔ q = p := by
  rw [h.opened v hv]
  refine ⟨fun hp => ?_, fun hp => hp ▸ hq⟩
  exact congrArg Upstream.root (c.ids _ hq _ hp rfl)

omit [DecidableEq P] in
theorem Served.due (hv : s.Running v) (hs : serves v) (hg : p ∉ s.router.guided) : s.Due root v :=
  Or.inr ⟨p, (h.opened v hv).mp hs, h.ne_root, hg⟩

theorem Served.idle {w : Nat} {g : UpstreamFrame W P}
    (ho : s.Orderly (.daemonFrame w g : Action W root)) (hw : s.Running w) (hsw : serves w) (hs : serves v)
    (hh : s.Holds v f st) (hne : v ≠ w) (hx : g.responseId = some x) : False :=
  (ho.2 x hx).2 p v ((h.opened w hw).mp hsw) ((h.opened v hh.running).mp hs) hne f st hh

end

omit [DecidableEq P] in
theorem selected_ne {id : Option W} {u : Upstream P} (hout : t.out = s.out ++ [.switched v id (.ok u.root)])
    (hn : ¬ t.SwitchedTo p) : u.root ≠ p := by
  rintro rfl
  exact hn ((switchedTo_append hout _).mpr (.inr ⟨v, id, rfl⟩))

theorem Change.guided (hc : Change s t a) (hp : p ∈ s.router.guided) : p ∈ t.router.guided := by
  cases hc with
  | stays router | opens _ _ _ router | notes _ _ router | fails _ _ _ _ _ _ _ _ _ router | ends _ router =>
    exact router.guided ▸ hp
  | settles _ _ _ _ _ _ _ router =>
    rw [router.guided]
    split
    next => exact mem_cons_of_mem _ hp
    next => exact hp
  | passes _ _ _ _ router => exact router ▸ hp
  | selects _ _ _ _ _ _ _ _ _ router =>
    obtain ⟨mid, ho, hr⟩ := router.opens
    rw [hr]
    exact mem_cons_of_mem _ (ho.guided ▸ hp)

theorem Change.guided_of (hc : Change s t a) (hn : ¬ t.SwitchedTo p) (hp : p ∈ t.router.guided) :
    p ∈ s.router.guided ∨ ∃ v f x, a = .daemonFrame v f ∧ TakesAnswer s t v f x p := by
  cases hc with
  | stays router | opens _ _ _ router | notes _ _ router | fails _ _ _ _ _ _ _ _ _ router | ends _ router =>
    exact .inl (router.guided ▸ hp)
  | settles v f x _ hx owed served router hands =>
    rw [router.guided] at hp
    split at hp
    next =>
      rcases mem_cons.mp hp with rfl | hp
      · exact .inr ⟨v, f, x, rfl, hx, owed, served, router, hands⟩
      · exact .inl hp
    next => exact .inl hp
  | passes _ _ _ _ router => exact .inl (router ▸ hp)
  | selects _ _ _ _ _ _ _ _ _ router _ out => exact .inl ((router.guided_iff (selected_ne out hn)).mp hp)

theorem TakesAnswer.guided (k : TakesAnswer s t v f x p) (hp : p ≠ s.router.root) : p ∈ t.router.guided := by
  rw [k.router.guided]
  split
  next => exact mem_cons_self
  next hg => exact not_not.mp fun hn => hg ⟨hp, hn⟩

theorem Told.step_untold [DecidableEq W] (h : Served root p serves s) (b : Books root s) (c : Charted root s)
    (fs : Foreseen calls s) (hc : Change s t a) (ho : s.Orderly a) (hn : ¬ t.SwitchedTo p)
    (unguided : p ∉ s.router.guided) (said : ∀ v, serves v → ∀ e ∈ s.out, ¬ e.ResultOf calls v)
    (held : ∀ v, serves v → ∀ f st, s.Holds v f st → Bare calls p f st) : Told calls p serves t := by
  have hroot : p ≠ s.router.root := c.rooted.root_eq ▸ h.ne_root
  have hsaid : ∀ v, serves v → ∀ e ∈ t.out, ¬ e.ResultOf calls v := fun v hv =>
    hc.unsaid (said v hv) (fun f st hh _ => (held v hv f st hh).1) fun f st hfront _ _ => h.front v hfront hv
  by_cases hg : p ∈ t.router.guided
  · obtain ⟨w, g, x, rfl, took⟩ := (hc.guided_of hn hg).resolve_left unguided
    have hw : serves w := (h.opened w took.hands.reader).mpr took.served
    obtain ⟨text, htext⟩ := stamps_instructs (h := s.held) (v := w) hroot unguided (h.instructed _ took.served rfl)
    refine .inHand hg w g _ text hw ((took.hands.holds _ _ _).mpr (.inl ⟨rfl, rfl, rfl⟩))
      (took.result fs ho (h.due took.hands.reader hw unguided)) htext hsaid fun v hv hne f st hh => ?_
    exact held v hv f st (((took.hands.holds _ _ _).mp hh).resolve_left fun he => hne he.1)
  · refine .untold hg hsaid fun v hv f st hh => ?_
    rcases hc.took hh with hh | ⟨rfl, hreader, ⟨rfl, unowed⟩ | ⟨x, q, took, _⟩⟩
    · exact held v hv f st hh
    · exact ⟨fs.not_result b ho hreader (h.due hreader hv unguided) unowed, fun _ => not_mem_nil⟩
    · obtain rfl := (h.project c hreader took.served).mp hv
      exact absurd (took.guided hroot) hg

theorem Told.step_inHand (h : Served root p serves s) (hc : Change s t a) (ho : s.Orderly a)
    (guided : p ∈ s.router.guided) (sv : serves v) (holds : s.Holds v f st)
    (result : f.IsResult calls) (carries : .guidance p text ∈ st)
    (said : ∀ w, serves w → ∀ e ∈ s.out, ¬ e.ResultOf calls w)
    (others : ∀ w, serves w → w ≠ v → ∀ g st', s.Holds w g st' → Bare calls p g st') : Told calls p serves t := by
  have hnew : ∀ w, serves w → w ≠ v → ∀ g st', t.Holds w g st' → Bare calls p g st' := by
    intro w hw hne g st' hh
    rcases hc.took hh with hh | ⟨rfl, hreader, ⟨rfl, _⟩ | ⟨x, q, took, _⟩⟩
    · exact others w hw hne g st' hh
    · refine ⟨fun hr => ?_, fun _ => not_mem_nil⟩
      obtain ⟨_, x, hx, _⟩ := hr
      exact h.idle ho hreader hw sv holds (Ne.symm hne) hx
    · exact (h.idle ho hreader hw sv holds (Ne.symm hne) took.id).elim
  rcases hc.keeps holds with hholds | ⟨hout, hgone⟩ | ⟨hfront, _⟩
  · refine .inHand (hc.guided guided) v f st text sv hholds result carries (fun w hw => ?_) hnew
    refine hc.unsaid (said w hw) (fun g st' hh hgone => ?_) fun g st' hfront _ _ => h.front w hfront hw
    have hne : w ≠ v := by
      rintro rfl
      exact hgone f st hholds
    exact (others w hw hne g st' hh).1
  · refine .given (hc.guided guided) s.out _ [] v text hout sv ⟨rfl, result⟩
      ((Event.carries_iff result.1).mpr carries) said nofun fun w hw g st' hh text' => ?_
    have hne : w ≠ v := by
      rintro rfl
      exact hgone g st' hh
    exact (hnew w hw hne g st' hh).2 text'
  · exact absurd sv (h.front v hfront)

variable (calls) in
theorem Told.step_given (hc : Change s t a) (guided : p ∈ s.router.guided)
    (held : ∀ w, serves w → ∀ g st', s.Holds w g st' → ∀ text', .guidance p text' ∉ st') :
    (∃ more, t.out = s.out ++ more ∧ ∀ w, serves w → ∀ e ∈ more, e.ResultOf calls w →
      ∀ text', ¬ e.Carries (.guidance p text')) ∧
      ∀ w, serves w → ∀ g st', t.Holds w g st' → ∀ text', .guidance p text' ∉ st' := by
  obtain ⟨more, hout, hmore⟩ := hc.spoken
  refine ⟨⟨more, hout, fun w hw e he hr text' hcarries => ?_⟩, fun w hw g st' hh text' hm => ?_⟩
  · rcases hmore e he with hown | ⟨v, f, st, rfl, hh, _⟩ | ⟨v, id, r, f, st, rfl, _⟩
    · exact Event.isOwn_resultOf hown hr
    · obtain ⟨rfl, hr⟩ := hr
      exact held v hw f st hh text' ((Event.carries_iff hr.1).mp hcarries)
    · exact hcarries
  · rcases hc.took hh with hh | ⟨rfl, _, ⟨rfl, _⟩ | ⟨x, q, _, rfl⟩⟩
    · exact held w hw g st' hh text' hm
    · exact not_mem_nil hm
    · exact (stamps_guidance hm).2 guided

variable [DecidableEq W]

/-- Every step keeps to how a project's guidance is given. -/
theorem Told.step (n : Told calls p serves s) (h : Served root p serves s) (b : Books root s) (c : Charted root s)
    (fs : Foreseen calls s) (hc : Change s t a) (ho : s.Orderly a) (hn : ¬ t.SwitchedTo p) :
    Told calls p serves t := by
  cases n with
  | untold unguided said held => exact step_untold h b c fs hc ho hn unguided said held
  | inHand guided _ _ _ _ sv holds result carries said others =>
    exact step_inHand h hc ho guided sv holds result carries said others
  | given guided before e after v text out sv result carries first once held =>
    obtain ⟨⟨more, hmore, hquiet⟩, hheld⟩ := step_given calls hc guided held
    refine .given (hc.guided guided) before e (after ++ more) v text ?_ sv result carries first (fun w hw e' he' => ?_) hheld
    · rw [hmore, out, append_assoc]
      rfl
    · rcases mem_append.mp he' with he' | he'
      · exact once w hw e' he'
      · exact hquiet w hw e' he'

end Guidance

end Session

end GMesh
