import GMesh.RouterInversion
import Mathlib.Data.List.Induction

namespace GMesh

open List

variable {W P : Type} [DecidableEq W] [DecidableEq P] {root : P}

namespace Held

omit [DecidableEq W] in
theorem switch_pending (env : Surroundings root) (h : Held W P) (hn : h.router.Numbered) (target : P) :
    (h.switch env target).1.router.pending = h.router.pending := by
  unfold switch
  split
  next => rfl
  next p _ =>
    split
    next => rfl
    next hbelow =>
      have hg := connect_grows env h (.project p) true false hn (fun hp => absurd hp (not_or.mp hbelow).1)
      split
      next failed error he =>
        rw [he] at hg
        exact hg.1.pending
      next connected u he =>
        rw [he] at hg
        exact hg.1.pending

theorem onFrontFrame_pending (env : Surroundings root) (h : Held W P) (hn : h.router.Numbered) (v : Nat)
    (f : UpstreamFrame W P) : (h.onFrontFrame env v f).1.router.pending = h.router.pending := by
  unfold onFrontFrame
  split
  next => rfl
  next id _ =>
    split
    next =>
      split
      next => rfl
      next target _ =>
        exact switch_pending env
          { h with router := { h.router with selectIds := h.router.selectIds.erase id } } ⟨hn.lt_next, hn.selected_ne⟩
          target
    next => rfl

end Held

variable {x : W} {before after : List (Action W root)} {v : Nat}

namespace Session

variable {s t : Session W P}

/-- What is logged stays logged, and only a new request becomes owed. -/
structure Extends (s t : Session W P) (a : Action W root) : Prop where
  forwarded : ∀ p ∈ s.forwarded, p ∈ t.forwarded
  cancelled : ∀ x ∈ s.cancelled, x ∈ t.cancelled
  requested : t.requested = s.requested ++ (match a with
    | .clientFrame _ frame => ((classify frame).2.map Prod.fst).toList
    | _ => [])
  pending : ∀ q ∈ t.router.pending, q ∈ s.router.pending ∨ ∃ env frame, a = .clientFrame env frame ∧
    (classify frame).2 = some (q.request, q.method) ∧ q.request ∉ s.requested

variable {a : Action W root}

/-- A step adds to the log and owes only what is new. -/
theorem step_extends (b : Books root s) (hs : s.step a = some t) : Extends s t a := by
  cases step_cases hs with
  | clientFrame env frame fresh =>
    refine ⟨fun p hp => mem_append_left _ hp, fun x hx => mem_append_left _ hx, rfl, fun q hq => ?_⟩
    rcases (Held.onClientFrame_quiet env (h := s.held) frame b.root_eq b.numbered rfl rfl).2.2 q hq with hq | hq
    · exact .inl hq
    · exact .inr ⟨env, frame, rfl, hq, fresh _ hq⟩
  | clientSend | note | forward => exact ⟨fun _ h => h, fun _ h => h, (append_nil _).symm, fun _ h => .inl h⟩
  | clientRelease id =>
    refine ⟨fun _ h => h, fun _ h => h, (append_nil _).symm, fun q hq => .inl ?_⟩
    have hr : (s.held.releaseIfDrained id).router = s.router := Held.releaseIfDrained_router _ _
    exact hr ▸ hq
  | clientEof =>
    refine ⟨fun _ h => h, fun _ h => h, (append_nil _).symm, fun q hq => .inl ?_⟩
    unfold Held.clientEof at hq
    rw [Held.endIfDone_frame] at hq
    exact hq
  | @answer r f x _ _ hx hd =>
    refine ⟨fun _ h => h, fun _ h => h, (append_nil _).symm, fun q hq => .inl ?_⟩
    refine ((Held.settle_pending s.held r.id x (fun f hf hx => ?_) q).mp hq).1
    exact b.unique _ _ _ (hx ▸ b.pending_forwarded f hf) (b.delivered _ _ hd)
  | @frontFrame env r f =>
    refine ⟨fun _ h => h, fun _ h => h, (append_nil _).symm, fun q hq => .inl ?_⟩
    exact Held.onFrontFrame_pending env s.held b.numbered r.id f ▸ hq
  | @upstreamEnd r _ hp =>
    refine ⟨fun _ h => h, fun _ h => h, (append_nil _).symm, fun q hq => .inl ?_⟩
    obtain ⟨_, _, _, hp⟩ := Held.upstreamEnded_frame s.held r.id
    exact (Held.mem_leaveFront_pending.mp ((hp q).mp hq).1).1

omit [DecidableEq P] in
theorem Books.owed (b : Books root s) (hd : (x, v) ∈ s.delivered) (ha : (x, v) ∉ s.answered)
    (hv : s.Running v) : x ∈ s.cancelled ∨ ∃ q ∈ s.router.pending, q.request = x := by
  have hf := b.delivered _ _ hd
  obtain ⟨r, hr, rfl⟩ := hv
  rcases b.complete x (b.requested _ _ hf) with h | h | ⟨q, hq, hx⟩ | h
  · exact .inl h
  · exact .inr h
  · have hq := b.hand_answered q hq x hx
    rw [b.unique _ _ _ (b.answered _ _ hq) hf] at hq
    exact absurd hq ha
  · have := b.unanswered_silent r hr x hf ha
    omega

/-- A call sent to a sub-project's upstream: its answer names the project, or it was cancelled. -/
structure Tracked (x : W) (u : Upstream P) (s : Session W P) : Prop where
  forwarded : (x, u.id) ∈ s.forwarded
  number : u.id < s.router.nextUpstream
  rooted : ∀ v ∈ s.router.openUpstreams, v.id = u.id → v = u
  method : ∀ q ∈ s.router.pending, q.request = x → q.method = "tools/call"
  held : ∀ v f st, s.Holds v f st → f.responseId = some x →
    x ∈ s.cancelled ∨ st.head? = some (.answeredFrom u.root)
  said : ∀ v f st, .relayed v f st ∈ s.out → f.responseId = some x →
    x ∈ s.cancelled ∨ st.head? = some (.answeredFrom u.root)

omit [DecidableEq W] in
theorem stamps_head {h : Held W P} {p : P} (hp : p ≠ h.router.root) :
    (h.stamps v p).2.head? = some (.answeredFrom p) := by
  unfold Held.stamps
  simp [hp]

omit [DecidableEq W] in
theorem Change.numbers (hc : Change s t a) :
    s.router.nextUpstream ≤ t.router.nextUpstream ∧
    ∀ v ∈ t.router.openUpstreams, v ∈ s.router.openUpstreams ∨ s.router.nextUpstream ≤ v.id := by
  have hopens : ∀ {r : Router W P} {u : Upstream P} {replay restart : Bool}, s.router.Opens r u replay restart →
      s.router.nextUpstream ≤ r.nextUpstream ∧
        ∀ v ∈ r.openUpstreams, v ∈ s.router.openUpstreams ∨ s.router.nextUpstream ≤ v.id := by
    intro r u replay restart ho
    refine ⟨by rw [ho.next]; omega, fun v hv => (ho.adds v hv).imp_right ?_⟩
    rintro rfl
    exact Nat.le_of_eq ho.number.symm
  cases hc with
  | opens _ _ _ router => exact hopens router
  | settles v _ _ _ _ _ _ router => exact ⟨Nat.le_of_eq router.next.symm, fun v hv => .inl (router.opens ▸ hv)⟩
  | passes v _ _ _ router => exact ⟨Nat.le_of_eq (by rw [router]), fun v hv => .inl (router ▸ hv)⟩
  | stays router | notes v _ router
  | fails _ v _ _ _ _ _ _ _ router =>
    exact ⟨Nat.le_of_eq router.next.symm, fun v hv => .inl (router.openUpstreams ▸ hv)⟩
  | selects _ _ _ _ _ _ _ _ _ router =>
    obtain ⟨mid, ho, hr⟩ := router.opens
    have h := hopens ho
    rw [hr]
    exact h
  | ends v router => exact ⟨Nat.le_of_eq router.next.symm, fun v hv => .inl (router.sub v hv)⟩

variable {u : Upstream P}

omit [DecidableEq W] in
theorem Change.keeps_number (hc : Change s t a) (number : u.id < s.router.nextUpstream)
    (rooted : ∀ v ∈ s.router.openUpstreams, v.id = u.id → v = u) :
    u.id < t.router.nextUpstream ∧ ∀ v ∈ t.router.openUpstreams, v.id = u.id → v = u := by
  obtain ⟨hnext, hopen⟩ := hc.numbers
  refine ⟨by omega, fun v hv hid => ?_⟩
  rcases hopen v hv with hv | hv
  · exact rooted v hv hid
  · omega

omit [DecidableEq W] [DecidableEq P] in
theorem Adds.relayed (h : Adds s t) {f : UpstreamFrame W P} {st : List (Stamp P)}
    (hm : Event.relayed v f st ∈ t.out) : Event.relayed v f st ∈ s.out := by
  obtain ⟨own, hout, hown⟩ := h
  rw [hout] at hm
  rcases mem_append.mp hm with hm | hm
  · exact hm
  · exact nomatch hown _ hm

/-- A call that was sent stays tracked over every step. -/
theorem Tracked.step (k : Tracked x u s) (b : Books root s) (c : Charted root s) (hu : u.root ≠ root)
    (hs : s.step a = some t) : Tracked x u t := by
  have hc := step_change b c.rooted hs
  have he := step_extends b hs
  obtain ⟨hnumber, hrooted⟩ := hc.keeps_number k.number k.rooted
  have hheld : ∀ v f st, s.Holds v f st → f.responseId = some x →
      x ∈ t.cancelled ∨ st.head? = some (.answeredFrom u.root) :=
    fun v f st hh hx => (k.held v f st hh hx).imp_left (he.cancelled x)
  refine ⟨he.forwarded _ k.forwarded, hnumber, hrooted, fun q hq hqx => ?_, fun v f st hh hx => ?_,
    fun v f st hm hx => ?_⟩
  · rcases he.pending q hq with hq | ⟨_, _, _, _, hnew⟩
    · exact k.method q hq hqx
    · exact absurd (hqx ▸ b.requested _ _ k.forwarded) hnew
  · rcases hc.took hh with hh | ⟨rfl, hreader, ⟨_, unowed⟩ | ⟨y, p, took, rfl⟩⟩
    · exact hheld v f st hh hx
    · obtain ⟨hd, ha, hmethod⟩ := unowed x hx
      rcases b.owed hd ha hreader with hcancel | ⟨q, hq, hqx⟩
      · exact .inl (he.cancelled x hcancel)
      · exact absurd (k.method q hq hqx) (hmethod q hq hqx)
    · cases (hx.symm.trans took.id)
      obtain ⟨q, hq, hqx, hqv, _⟩ := took.owed
      have hf := b.pending_forwarded q hq
      rw [hqx, hqv] at hf
      have hserved := k.rooted _ took.served (b.unique _ _ _ hf k.forwarded)
      subst hserved
      exact .inr (stamps_head fun hp => hu (hp.trans c.rooted.root_eq))
  · obtain ⟨more, hout, hmore⟩ := hc.spoken
    rw [hout] at hm
    rcases mem_append.mp hm with hm | hm
    · exact (k.said v f st hm hx).imp_left (he.cancelled x)
    · rcases hmore _ hm with hown | ⟨_, _, _, heq, hh, _⟩ | ⟨_, _, _, _, _, heq, _⟩
      · cases hown
      · cases heq
        exact hheld v f st hh hx
      · cases heq

theorem run_append {as bs : List (Action W root)} : s.run (as ++ bs) = (s.run as).bind fun t => t.run bs := by
  induction as generalizing s with
  | nil => rfl
  | cons a _ ih =>
    show (s.step a).bind _ = ((s.step a).bind _).bind _
    rw [Option.bind_assoc]
    congr 1
    funext t
    exact ih

variable {actions : List (Action W root)}

/-- What holds at the start and over every step with its books in order holds along a run. -/
theorem run_induction (b : Books root s) (c : Charted root s) {i : Session W P → Prop} (hplain : ∀ a ∈ actions, a.Plain)
    (hstart : i s) (hstep : ∀ before a after u t, actions = before ++ a :: after → s.run before = some u →
      Books root u → Charted root u → i u → u.step a = some t → i t) (he : actions = before ++ after)
        (hs : s.run before = some t) :
    Books root t ∧ Charted root t ∧ i t := by
  induction before using List.reverseRecOn generalizing after t with
  | nil =>
    cases hs
    exact ⟨b, c, hstart⟩
  | append_singleton before a ih =>
    rw [run_append] at hs
    obtain ⟨s', hrun, hs⟩ := Option.bind_eq_some_iff.mp hs
    obtain ⟨s'', hlast, hs⟩ := Option.bind_eq_some_iff.mp hs
    cases hs
    have he' : actions = before ++ a :: after := by rw [he, append_assoc]; rfl
    obtain ⟨b, c, hi⟩ := ih he' hrun
    have ha : a.Plain := hplain a (he' ▸ mem_append_right _ mem_cons_self)
    exact ⟨b.step ha hlast, c.change b (step_change b c.rooted hlast), hstep before a after s' t he' hrun b c hi hlast⟩

theorem Charted.run (c : Charted root s) (b : Books root s) (ha : ∀ a ∈ actions, a.Plain)
    (hs : s.run actions = some t) : Charted root t :=
  (run_induction (i := fun _ => True) b c ha trivial (fun _ _ _ _ _ _ _ _ _ _ _ => trivial) (append_nil _).symm hs).2.1

theorem Tracked.run (k : Tracked x u s) (b : Books root s) (c : Charted root s) (hu : u.root ≠ root)
    (ha : ∀ a ∈ actions, a.Plain) (hs : s.run actions = some t) : Tracked x u t :=
  (run_induction b c ha k (fun _ _ _ _ _ _ _ b c k hs => k.step b c hu hs) (append_nil _).symm hs).2.2

end Session

open Session ClientMessage Held Option

omit [DecidableEq W] in
theorem kind_toolsCall {frame : Option (ClientMessage W)} (h : (classify frame).2 = some (x, "tools/call")) :
    (∃ id, (classify frame).1 = .selectProject id) ∨ ∃ project, (classify frame).1 = .call project := by
  cases frame with
  | none => cases h
  | some m =>
    have hmethod : m.method = some "tools/call" := by
      have h : m.request = some (x, "tools/call") := h
      unfold request at h
      split at h
      next id method _ hm =>
        cases h
        exact hm
      next => cases h
    show (∃ id, m.kind = .selectProject id) ∨ ∃ project, m.kind = .call project
    unfold kind
    simp only [hmethod]
    split
    next id _ _ => exact .inl ⟨id, rfl⟩
    next => exact .inr ⟨_, rfl⟩

namespace Held

variable {env : Surroundings root} {h : Held W P} {frame : Option (ClientMessage W)} {request : Option (W × String)}
  {u : Upstream P} (hr : Rooted root h.router)

include hr

theorem unnamed_target (hu : (h.chooseTarget env frame (.call none) request).2.target = some u) :
    h.router.contested = false ∧ u.root = h.router.rootOf .current ∧
      u ∈ (h.chooseTarget env frame (.call none) request).1.router.openUpstreams := by
  have hroutes := (reach_routes env h .current true request hr nofun nofun).1 u
  unfold chooseTarget at hu ⊢
  dsimp only at hu ⊢
  split at hu
  next =>
    unfold refuse at hu
    split at hu <;> cases hu
  next hc =>
    rw [if_neg hc]
    exact ⟨Bool.eq_false_iff.mpr hc, hroutes hu⟩

theorem named_target {project : Option String}
    (hu : (h.chooseTarget env frame (.call (some project)) request).2.target = some u) :
    (∃ which, (h.route env project).2 = .ok which ∧ u.root = h.router.rootOf which) ∧
      (h.chooseTarget env frame (.call (some project)) request).2.message = frame.map withoutProject ∧
      u ∈ (h.chooseTarget env frame (.call (some project)) request).1.router.openUpstreams := by
  have hs := route_same env h project
  have hg := (route_grows env h project).2.2.1
  unfold chooseTarget at hu ⊢
  dsimp only at hu ⊢
  split at hu
  next routed which he =>
    rw [he] at hs hg
    obtain ⟨hroot, hopen⟩ := (reach_routes env routed which true request (hr.same hs) (hg which rfl) nofun).1 u hu
    refine ⟨⟨which, by rw [he], ?_⟩, rfl, hopen⟩
    rw [hroot]
    unfold Router.rootOf
    rw [hs.root, hs.selected]
  next routed why he =>
    unfold refuse at hu
    split at hu <;> cases hu

theorem select_target {id : Option W}
    (hu : (h.chooseTarget env frame (.selectProject id) request).2.target = some u) :
    u ∈ (h.chooseTarget env frame (.selectProject id) request).1.router.openUpstreams := by
  have hroutes := (reach_routes env h .front true request hr nofun nofun).1 u hu
  unfold chooseTarget
  dsimp only
  split
  next => exact hroutes.2
  next => exact hroutes.2

end Held

namespace Session

variable {s t : Session W P} {env : Surroundings root} {frame : Option (ClientMessage W)} {h : Held W P}

theorem step_clientFrame (hs : s.step (.clientFrame env frame) = some t) :
    t = { (s.commit (s.held.onClientFrame env frame).1).logFrame frame (s.held.onClientFrame env frame).2 with
      client := ClientPhase.after (s.held.onClientFrame env frame).2 } ∧
    ∀ q, (classify frame).2 = some q → q.1 ∉ s.requested := by
  cases step_cases hs with
  | clientFrame _ _ fresh => exact ⟨rfl, fresh⟩

theorem onClientFrame_open
    (hnone : h.answeredBeforeSession (classify frame).1 (classify frame).2 = none) :
    h.onClientFrame env frame = ((h.chooseTarget env frame (classify frame).1 (classify frame).2).1.record
        (h.chooseTarget env frame (classify frame).1 (classify frame).2).2.target (classify frame).2,
        some (h.chooseTarget env frame (classify frame).1 (classify frame).2).2) := by
  unfold onClientFrame
  dsimp only
  rw [hnone]

theorem onClientFrame_answered {answered : Held W P}
    (ha : h.answeredBeforeSession (classify frame).1 (classify frame).2 = some answered) :
    h.onClientFrame env frame = (answered, none) := by
  unfold onClientFrame
  dsimp only
  rw [ha]

variable {message : Option (ClientMessage W)} {on : Option Nat} {u : Upstream P}

theorem sending_target (hs : s.step (.clientFrame env frame) = some t)
    (hc : t.client = .sending u message on) :
    s.held.answeredBeforeSession (classify frame).1 (classify frame).2 = none ∧
      (s.held.chooseTarget env frame (classify frame).1 (classify frame).2).2.target = some u ∧
      (s.held.chooseTarget env frame (classify frame).1 (classify frame).2).2.message = message := by
  rw [(step_clientFrame hs).1] at hc
  obtain ⟨o, ho, htarget, hm⟩ := after_sending hc
  unfold onClientFrame at ho
  dsimp only at ho
  split at ho
  next => cases ho
  next hnone =>
    cases ho
    exact ⟨hnone, htarget, hm⟩

def Names (s : Session W P) (env : Surroundings root) (name : String) (p : P) : Prop :=
  if s.router.folder.getD (!s.router.selections.isEmpty || env.isFolder) = true then env.resolve name = .ok p
  else env.namesRoot name = true ∧ p = root

/-- No call names the root of a single-project session after a project was selected. -/
def Steady (s : Session W P) : Action W root → Prop
  | .clientFrame env frame => ∀ name, (classify frame).1 = .call (some (some name)) →
    s.router.folder = some false → s.router.selected.isSome → env.namesRoot name = false
  | _ => True

/-- Every step of a run meets a condition on the state before it. -/
def Meets (cond : Session W P → Action W root → Prop) : Session W P → List (Action W root) → Prop
  | _, [] => True
  | s, a :: as => cond s a ∧ ∀ t, s.step a = some t → Meets cond t as

variable {cond : Session W P → Action W root → Prop}

theorem Meets.at {a : Action W root} {s' : Session W P}
    (h : Meets cond s (before ++ a :: after)) (hrun : s.run before = some s') : cond s' a := by
  induction before generalizing s with
  | nil =>
    cases hrun
    exact h.1
  | cons _ _ ih =>
    obtain ⟨s'', hstep, hrest⟩ := bind_eq_some_iff.mp hrun
    exact ih (h.2 s'' hstep) hrest

theorem meets_of_forall {actions : List (Action W root)} (h : ∀ a ∈ actions, ∀ s, cond s a) (s : Session W P) :
    Meets cond s actions := by
  induction actions generalizing s with
  | nil => trivial
  | cons a _ ih =>
    exact ⟨h a mem_cons_self s, fun t _ => ih (fun a' h' => h a' (mem_cons_of_mem a h')) t⟩

omit [DecidableEq W] in
/-- Uncontested, the current project is the only one switched to, or the root with none. -/
theorem Charted.current (c : Charted root s) (hc : s.router.contested = false) :
    if s.router.rootOf .current = root then ∀ p, ¬ s.SwitchedTo p
    else ∀ p, s.SwitchedTo p ↔ p = s.router.rootOf .current := by
  have hlen : s.router.selections.length ≤ 1 := by
    have := of_decide_eq_false hc
    omega
  cases hsel : s.router.selected with
  | none =>
    have hroot : s.router.rootOf .current = root := by
      unfold Router.rootOf
      rw [hsel]
      exact c.rooted.root_eq
    rw [if_pos hroot]
    intro p hp
    have := (c.switched p).mpr hp
    rw [c.unselected hsel] at this
    exact not_mem_nil this
  | some p =>
    have hroot : s.router.rootOf .current = p := by
      unfold Router.rootOf
      rw [hsel]
      rfl
    have hne : p ≠ root := fun he => c.rooted.selected_ne (he ▸ hsel)
    have hmem := c.selected p hsel
    rw [hroot, if_neg hne]
    intro q
    rw [← c.switched]
    refine ⟨fun hq => ?_, fun hq => hq ▸ hmem⟩
    obtain ⟨a, ha⟩ := length_eq_one_iff.mp (Nat.le_antisymm hlen (length_pos_of_mem hmem))
    rw [ha, mem_singleton] at hq hmem
    rw [hq, hmem]

omit [DecidableEq W] [DecidableEq P] in
theorem Charted.contested (c : Charted root s) {p q : P} (hp : s.SwitchedTo p) (hq : s.SwitchedTo q) (hne : p ≠ q) :
    s.router.contested := by
  have hp := (c.switched p).mpr hp
  have hq := (c.switched q).mpr hq
  refine decide_eq_true ?_
  match hs : s.router.selections with
  | [] =>
    rw [hs] at hp
    exact nomatch hp
  | [a] =>
    rw [hs, mem_singleton] at hp hq
    exact absurd (hp.trans hq.symm) hne
  | _ :: _ :: _ => simp

omit [DecidableEq W] [DecidableEq P] in
/-- A named call goes to the project that its name stands for. -/
theorem Charted.named (c : Charted root s) {name : String} {which : Which P}
    (hsteady : s.router.folder = some false → s.router.selected.isSome → env.namesRoot name = false)
    (hroute : (s.held.route env (some name)).2 = .ok which) : s.Names env name (s.router.rootOf which) := by
  unfold route at hroute
  unfold Names
  dsimp only at hroute
  split at hroute
  next hfolder =>
    have hfolder : s.router.folder.getD (!s.router.selections.isEmpty || env.isFolder) = false := hfolder
    rw [if_neg (by rw [hfolder]; exact nofun)]
    split at hroute
    next hnames =>
      cases hroute
      refine ⟨hnames, ?_⟩
      have hselected : s.router.selected = none := by
        cases hf : s.router.folder with
        | none =>
          rw [hf] at hfolder
          cases hsel : s.router.selected with
          | none => rfl
          | some p =>
            have hmem := c.selected p hsel
            have hempty : s.router.selections.isEmpty := by
              have := (Bool.or_eq_false_iff.mp hfolder).1
              simpa using this
            rw [isEmpty_iff.mp hempty] at hmem
            exact nomatch hmem
        | some folder =>
          rw [hf] at hfolder
          cases hsel : s.router.selected with
          | none => rfl
          | some p =>
            have := hsteady (hf.trans (congrArg some hfolder)) (by rw [hsel]; rfl)
            rw [hnames] at this
            cases this
      unfold Router.rootOf
      rw [hselected]
      exact c.rooted.root_eq
    next => cases hroute
  next hfolder =>
    have hfolder : ¬ s.router.folder.getD (!s.router.selections.isEmpty || env.isFolder) = false := hfolder
    rw [if_pos (by simpa using hfolder)]
    split at hroute
    next p hres =>
      cases hroute
      exact hres
    next => cases hroute

theorem Tracked.sent (b : Books root s) (bt : Books root t) (ct : Charted root t)
    (hs : s.step (.clientFrame env frame) = some t) (hx : (classify frame).2 = some (x, "tools/call"))
    (hc : t.client = .sending u message on) (hopen : u ∈ t.router.openUpstreams) :
    Tracked x u t := by
  obtain ⟨ht, hfresh⟩ := step_clientFrame hs
  have hnew : x ∉ s.requested := hfresh _ hx
  obtain ⟨hbefore, htarget, _⟩ := sending_target hs hc
  have hforwarded : (x, u.id) ∈ t.forwarded := by
    rw [ht, onClientFrame_open hbefore]
    unfold logFrame
    rw [bind_some, htarget, hx]
    exact mem_append_right _ (mem_singleton.mpr rfl)
  have hanswered : t.answered = s.answered := by
    rw [ht]
    rfl
  have hquiet := (onClientFrame_quiet env (h := s.held) frame b.root_eq b.numbered rfl rfl).1
  refine ⟨hforwarded, bt.lt_next _ _ hforwarded, fun v hv hid => ct.ids v hv u hopen hid, fun q hq hqx => ?_, ?_, ?_⟩
  · rcases (step_extends b hs).pending q hq with hq | ⟨_, _, ha, hclass, _⟩
    · have := b.requested _ _ (b.pending_forwarded q hq)
      rw [hqx] at this
      exact absurd this hnew
    · cases ha
      rw [hx] at hclass
      exact (congrArg Prod.snd (Option.some.inj hclass)).symm
  · rintro v f st ⟨r, hr, rfl, hphase⟩ hf
    have hhand : r.hand = some x := by
      unfold Reader.hand
      rcases hphase with h | h <;> rw [h] <;> exact hf
    have := bt.hand_answered r hr x hhand
    rw [hanswered] at this
    exact absurd (b.requested _ _ (b.answered _ _ this)) hnew
  · intro v f st hm hf
    have hadds : Adds s t := ⟨_, by rw [ht]; rfl, hquiet⟩
    exact absurd (b.requested _ _ (b.origin _ (hadds.relayed hm) x hf)) hnew

/-- With several projects selected, a call that names none is refused. -/
theorem refuses_contested (hs : s.step (.clientFrame env frame) = some t)
    (hk : (classify frame).1 = .call none) (hcontested : s.router.contested) :
    t.client = .idle ∧ ∀ id method, (classify frame).2 = some (id, method) →
      ∃ why, t.out = s.out ++ [.own (some id) method why] := by
  obtain ⟨ht, _⟩ := step_clientFrame hs
  have hchoose : s.held.chooseTarget env frame (.call none) (classify frame).2 =
      ((s.held.refuse (classify frame).2 (.contested s.router.selections)).1,
        { target := (s.held.refuse (classify frame).2 (.contested s.router.selections)).2, message := frame }) := by
    exact if_pos hcontested
  have htarget : (s.held.refuse (classify frame).2 (.contested s.router.selections)).2 = none := by
    unfold refuse
    split <;> rfl
  rw [ht]
  cases hbefore : s.held.answeredBeforeSession (classify frame).1 (classify frame).2 with
  | some answered =>
    rw [onClientFrame_answered hbefore]
    refine ⟨rfl, fun id method hq => ?_⟩
    obtain ⟨why, _, hsent⟩ := (answered_targets hbefore).answer rfl id method hq
    exact ⟨why, congrArg (s.out ++ ·) hsent⟩
  | none =>
    rw [onClientFrame_open hbefore, hk, hchoose]
    rw [htarget]
    refine ⟨rfl, fun id method hq => ⟨.contested s.router.selections, ?_⟩⟩
    rw [hq]
    rfl

structure Isolates (env : Surroundings root) (frame : Option (ClientMessage W)) (s t t' : Session W P) : Prop where
  unnamed : (classify frame).1 = .call none → ∀ u message on, t.client = .sending u message on →
    if u.root = root then ∀ p, ¬ s.SwitchedTo p else ∀ p, s.SwitchedTo p ↔ p = u.root
  refused : (classify frame).1 = .call none → ∀ p q, s.SwitchedTo p → s.SwitchedTo q → p ≠ q →
    t.client = .idle ∧ ∀ id method, (classify frame).2 = some (id, method) →
      ∃ why, t.out = s.out ++ [.own (some id) method why]
  named : ∀ project, (classify frame).1 = .call (some project) → ∀ u message on, t.client = .sending u message on →
    (∃ name, project = some name ∧ s.Names env name u.root) ∧ message = frame.map withoutProject
  stamped : ∀ x, (classify frame).2 = some (x, "tools/call") → ∀ u message on, t.client = .sending u message on →
    u.root ≠ root → ∀ v f stamps, .relayed v f stamps ∈ t'.out → f.responseId = some x → x ∉ t'.cancelled →
      f.hasContent = true → v = u.id ∧ (f.stamped stamps).head? = some (.answeredFrom u.root)

end Session

/-- Unless a call names the root of a single project after a switch, each call goes where its project or the only
selection says, and a sub-project's answer names it first. -/
theorem projects_isolated (root : P) (before after : List (Action W root)) (env : Surroundings root)
    (frame : Option (ClientMessage W)) (hplain : ∀ a ∈ before ++ .clientFrame env frame :: after, a.Plain)
    (hsteady : (Session.start root).Meets Session.Steady (before ++ .clientFrame env frame :: after))
    {s t t' : Session W P} (hs : (Session.start root).run before = some s)
    (hstep : s.step (.clientFrame env frame) = some t) (hrun : t.run after = some t') :
    Session.Isolates env frame s t t' := by
  have hbefore : ∀ a ∈ before, a.Plain := fun a ha => hplain a (mem_append_left _ ha)
  have hframe := hplain _ (mem_append_right _ mem_cons_self)
  have hafter : ∀ a ∈ after, a.Plain := fun a ha => hplain a (mem_append_right _ (mem_cons_of_mem _ ha))
  have b := (Session.Books.start root).run hbefore hs
  have c := (Session.Charted.start root).run (Session.Books.start root) hbefore hs
  have bt := b.step hframe hstep
  have ct := c.change b (step_change b c.rooted hstep)
  obtain ⟨ht, _⟩ := step_clientFrame hstep
  have hrouter : ∀ u : Upstream P, s.held.answeredBeforeSession (classify frame).1 (classify frame).2 = none →
      u ∈ (s.held.chooseTarget env frame (classify frame).1 (classify frame).2).1.router.openUpstreams →
      u ∈ t.router.openUpstreams := by
    intro u hnone hu
    have hr : t.router = (s.held.onClientFrame env frame).1.router := by rw [ht]; rfl
    rw [hr, onClientFrame_open hnone, (record_same _ _ _).openUpstreams]
    exact hu
  refine ⟨fun hk u message on hc => ?_, fun hk p q hp hq hne => ?_, fun project hk u message on hc => ?_, ?_⟩
  · obtain ⟨_, htarget, _⟩ := sending_target hstep hc
    rw [hk] at htarget
    obtain ⟨hcontested, hroot, _⟩ := unnamed_target c.rooted htarget
    rw [hroot]
    exact c.current hcontested
  · exact refuses_contested hstep hk (c.contested hp hq hne)
  · obtain ⟨_, htarget, hm⟩ := sending_target hstep hc
    rw [hk] at htarget hm
    obtain ⟨⟨which, hroute, hroot⟩, hmessage, _⟩ := named_target c.rooted htarget
    refine ⟨?_, hm.symm.trans hmessage⟩
    cases project with
    | none => cases hroute
    | some name =>
      refine ⟨name, rfl, ?_⟩
      rw [hroot]
      exact c.named (fun hf hsel => hsteady.at hs name hk hf hsel) hroute
  · intro x hx u message on hc hne v f stamps hm hf hcancel hcontent
    obtain ⟨hnone, htarget, _⟩ := sending_target hstep hc
    have hopen : u ∈ t.router.openUpstreams := by
      refine hrouter u hnone ?_
      rcases kind_toolsCall hx with ⟨id, hk⟩ | ⟨project, hk⟩
      · rw [hk] at htarget ⊢
        exact select_target c.rooted htarget
      · rw [hk] at htarget ⊢
        cases project with
        | none => exact (unnamed_target c.rooted htarget).2.2
        | some project => exact (named_target c.rooted htarget).2.2
    have k := (Session.Tracked.sent b bt ct hstep hx hc hopen).run bt ct hne hafter hrun
    have bt' := bt.run hafter hrun
    refine ⟨bt'.unique x _ _ (bt'.origin _ hm x hf) k.forwarded, ?_⟩
    unfold UpstreamFrame.stamped
    rw [if_pos hcontent]
    exact (k.said v f stamps hm hf).resolve_left hcancel

def openingFrames (env : Surroundings "/r") : List (Action Nat "/r") :=
  [.clientFrame env (some { id := some (some 1), method := some "initialize" }), .clientSend true,
    .daemonFrame 0 { id := some (some 1) }, .frontFrame env 0, .forward 0,
    .clientFrame env (some { method := some "notifications/initialized" }), .clientSend true]

def subCall : ClientMessage Nat :=
  { id := some (some 2), method := some "tools/call", toolName := some "find", project := some (some "sub") }

def subAnswer : List (Action Nat "/r") :=
  [.clientSend true, .daemonFrame 1 { id := some (some 2), hasContent := true }, .forward 1]

theorem projects_isolated_subAnswer : ∃ t' : Session Nat String,
    (Session.start "/r").run (openingFrames subEnv ++ .clientFrame subEnv (some subCall) :: subAnswer) = some t' ∧
      ∃ v f stamps, .relayed v f stamps ∈ t'.out ∧ f.responseId = some 2 ∧
        (f.stamped stamps).head? = some (.answeredFrom "/r/sub") := by
  let before := openingFrames subEnv
  have hplain : ∀ a ∈ before ++ .clientFrame subEnv (some subCall) :: subAnswer, a.Plain := by
    simp [before, openingFrames, subAnswer, subCall, Action.Plain, classify, kind]
  have hsteady : (start "/r").Meets Session.Steady
      (before ++ .clientFrame subEnv (some subCall) :: subAnswer) := by
    refine meets_of_forall ?_ _
    simp [before, openingFrames, subAnswer, Session.Steady, subEnv]
  obtain ⟨t', ht', hp⟩ := (any_eq_true (fun s : Session Nat String => decide (s.cancelled = [] ∧
    s.out = [.relayed 0 { id := some (some 1) } [], .relayed 1 { id := some (some 2), hasContent := true }
      [.answeredFrom "/r/sub", .guidance "/r/sub" ""]]))
    ((start "/r").run (before ++ .clientFrame subEnv (some subCall) :: subAnswer))).mp (by decide +kernel)
  obtain ⟨hcancelled, hout⟩ := of_decide_eq_true hp
  refine ⟨t', ht', ?_⟩
  obtain ⟨s, hs, hrest⟩ := bind_eq_some_iff.mp (run_append.symm.trans ht')
  obtain ⟨t, hstep, hrun⟩ := bind_eq_some_iff.mp hrest
  have hiso := projects_isolated "/r" before subAnswer subEnv (some subCall) hplain hsteady hs hstep hrun
  have hsending : (((start "/r").run before).bind fun s => s.step (.clientFrame subEnv (some subCall))).any
      (fun t => decide (t.client = .sending ⟨1, "/r/sub"⟩ (some { subCall with project := none }) none)) =
        true := by decide +kernel
  rw [hs, bind_some, hstep] at hsending
  have hc := of_decide_eq_true hsending
  have he : Event.relayed 1 { id := some (some 2), hasContent := true }
      [.answeredFrom "/r/sub", .guidance "/r/sub" ""] ∈ t'.out := by
    rw [hout]
    exact mem_cons_of_mem _ mem_cons_self
  have hnone : 2 ∉ t'.cancelled := by
    rw [hcancelled]
    exact not_mem_nil
  have hhead := (hiso.stamped 2 rfl _ _ _ hc (by decide) _ _ _ he rfl hnone rfl).2
  exact ⟨_, _, _, he, rfl, hhead⟩

/-- The root is probed once, while it holds a single project. -/
def singleEnv : Surroundings "/r" where
  isFolder := false
  namesRoot := fun name => decide (name = "r")

def rootCall (id : Nat) : ClientMessage Nat :=
  { id := some (some id), method := some "tools/call", toolName := some "find", project := some (some "r") }

def selectAfterProbe : List (Action Nat "/r") :=
  openingFrames singleEnv ++
    [.clientFrame singleEnv (some (rootCall 2)), .clientSend true,
      .clientFrame singleEnv (some { id := some (some 3), method := some "tools/call", toolName := some "select_project" }),
      .clientSend true, .daemonFrame 0 { id := some (some 3), switchRoot := some "/r/sub", hasContent := true },
      .frontFrame singleEnv 0]

/-- A call whose `project` names the root is sent to the sub-project selected since. -/
theorem root_call_sent_to_sub : ∃ s t : Session Nat String, (Session.start "/r").run selectAfterProbe = some s ∧
    s.step (.clientFrame singleEnv (some (rootCall 4))) = some t ∧
    (∃ message on, t.client = .sending ⟨1, "/r/sub"⟩ message on) ∧
    s.Names singleEnv "r" "/r" ∧ ¬ s.Names singleEnv "r" "/r/sub" := by
  obtain ⟨t, ht, hsending⟩ := (any_eq_true (fun t : Session Nat String => decide (t.client =
    .sending ⟨1, "/r/sub"⟩ (some { rootCall 4 with project := none }) none))
    (((start "/r").run selectAfterProbe).bind fun s =>
      s.step (.clientFrame singleEnv (some (rootCall 4))))).mp (by decide +kernel)
  obtain ⟨s, hs, hstep⟩ := bind_eq_some_iff.mp ht
  refine ⟨s, t, hs, hstep, ⟨_, _, of_decide_eq_true hsending⟩, ?_⟩
  have hfolder : ((start "/r").run selectAfterProbe).any (fun s => decide (s.router.folder = some false)) =
      true := by decide +kernel
  rw [hs] at hfolder
  have hfolder : s.router.folder = some false := of_decide_eq_true hfolder
  unfold Session.Names
  rw [hfolder]
  exact ⟨⟨rfl, rfl⟩, fun h => absurd h.2 (by decide)⟩

end GMesh
