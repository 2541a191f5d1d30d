import GMesh.RouterGuidance

namespace GMesh

open List Option

variable {W P : Type} {root : P} {calls : List (W × String)}

theorem requests_append (as bs : List (Action W root)) : requests (as ++ bs) = requests as ++ requests bs :=
  filterMap_append

theorem requests_middle {actions before after : List (Action W root)} {a : Action W root}
    (he : actions = before ++ a :: after) {q : W × String} (hq : q ∈ requests [a]) : q ∈ requests actions := by
  rw [he, show before ++ a :: after = before ++ ([a] ++ after) from rfl, requests_append, requests_append]
  exact mem_append_right _ (mem_append_left _ hq)

theorem requests_clientFrame (env : Surroundings root) (frame : Option (ClientMessage W)) :
    requests [Action.clientFrame env frame] = (classify frame).2.toList := by
  cases h : (classify frame).2 <;> simp [requests, h]

theorem append_cons_cases {α : Type} {pre post before after : List α} {x y : α}
    (h : pre ++ x :: post = before ++ y :: after) : (pre = before ∧ x = y) ∨ x ∈ before ∨ (x ∈ after ∧ y ∈ pre) := by
  rcases append_eq_append_iff.mp h with ⟨rest, hb, hr⟩ | ⟨rest, hb, hr⟩
  · cases rest with
    | nil =>
      cases hr
      exact .inl ⟨(append_nil pre ▸ hb).symm, rfl⟩
    | cons z rest =>
      cases hr
      exact .inr (.inl (hb ▸ mem_append_right _ mem_cons_self))
  · cases rest with
    | nil =>
      cases hr
      exact .inl ⟨append_nil before ▸ hb, rfl⟩
    | cons z rest =>
      cases hr
      exact .inr (.inr ⟨mem_append_right _ mem_cons_self, hb ▸ mem_append_right _ mem_cons_self⟩)

variable [DecidableEq W] [DecidableEq P]

namespace Session

variable {s t : Session W P} {actions before : List (Action W root)} {a : Action W root}

theorem run_snoc {s' : Session W P} (hs : s.run before = some s') (hstep : s'.step a = some t) :
    s.run (before ++ [a]) = some t := by
  rw [run_append, hs]
  exact congrArg (fun o => o.bind fun t => some t) hstep

theorem Meets.after {cond : Session W P → Action W root → Prop} {after : List (Action W root)}
    (h : Meets cond s (before ++ after)) (hrun : s.run before = some t) : Meets cond t after := by
  induction before generalizing s with
  | nil =>
    cases hrun
    exact h
  | cons _ _ ih =>
    obtain ⟨s', hstep, hrest⟩ := bind_eq_some_iff.mp hrun
    exact ih (h.2 s' hstep) hrest

variable {u : Upstream P}

theorem Books.run_rooted (b : Books root s) (c : Charted root s) (number : u.id < s.router.nextUpstream)
    (rooted : ∀ v ∈ s.router.openUpstreams, v.id = u.id → v = u) (hplain : ∀ a ∈ actions, a.Plain)
    (hs : s.run actions = some t) : ∀ v ∈ t.router.openUpstreams, v.id = u.id → v = u :=
  (run_induction (i := fun s => u.id < s.router.nextUpstream ∧ ∀ v ∈ s.router.openUpstreams, v.id = u.id → v = u) b c
    hplain ⟨number, rooted⟩ (fun _ _ _ _ _ _ _ b c k hs => (step_change b c.rooted hs).keeps_number k.1 k.2)
    (append_nil _).symm hs).2.2.2

omit [DecidableEq P] in
theorem Books.number_lt (b : Books root s) (hu : u ∈ s.router.openUpstreams) : u.id < s.router.nextUpstream :=
  b.numbered.lt_next _ (Router.mem_openIds.mpr ⟨u, hu, rfl⟩)

/-- A run logs every request of the client's frames, each once. -/
theorem requested_run (b : Books root s) (hplain : ∀ a ∈ actions, a.Plain) (hs : s.run actions = some t)
    (hn : s.requested.Nodup) : t.requested = s.requested ++ (requests actions).map Prod.fst ∧ t.requested.Nodup := by
  induction actions generalizing s with
  | nil =>
    cases hs
    exact ⟨(append_nil _).symm, hn⟩
  | cons a as ih =>
    obtain ⟨s', hstep, hrun⟩ := bind_eq_some_iff.mp hs
    have he := (step_extends b hstep).requested
    have hnew : s'.requested = s.requested ++ (requests [a]).map Prod.fst ∧ s'.requested.Nodup := by
      cases a with
      | clientFrame env frame =>
        have hfresh := (step_clientFrame hstep).2
        dsimp only at he
        cases hq : (classify frame).2 with
        | none =>
          rw [hq] at he
          rw [requests_clientFrame, hq]
          exact ⟨he, by rw [he]; simpa using hn⟩
        | some q =>
          rw [hq] at he
          rw [requests_clientFrame, hq]
          refine ⟨he, ?_⟩
          rw [he]
          exact List.Nodup.append hn (nodup_singleton _) (by
            intro x hx hx'
            rw [mem_singleton.mp hx'] at hx
            exact hfresh q hq hx)
      | clientSend | clientRelease | clientEof | daemonFrame | frontFrame | forward | upstreamEnd =>
        exact ⟨he, by rw [he, append_nil]; exact hn⟩
    obtain ⟨hall, hnodup⟩ := ih (b.step (hplain a mem_cons_self) hstep)
      (fun a' h' => hplain a' (mem_cons_of_mem a h')) hrun hnew.2
    refine ⟨?_, hnodup⟩
    rw [hall, hnew.1, show a :: as = [a] ++ as from rfl, requests_append, map_append, append_assoc]

theorem requests_once (hplain : ∀ a ∈ actions, a.Plain) (hs : (Session.start root).run actions = some t) (x : W)
    (m m' : String) (h : (x, m) ∈ requests actions) (h' : (x, m') ∈ requests actions) : m = m' := by
  obtain ⟨he, hn⟩ := requested_run (Books.start root) hplain hs nodup_nil
  rw [he] at hn
  exact congrArg Prod.snd (inj_on_of_nodup_map hn h h' rfl)

theorem Foreseen.start (hplain : ∀ a ∈ actions, a.Plain) (hs : (Session.start root).run actions = some t) :
    Foreseen (requests actions) (Session.start root : Session W P) :=
  ⟨requests_once hplain hs, nofun⟩

theorem Foreseen.step_of (fs : Foreseen calls s) (b : Books root s) (hcalls : ∀ q ∈ requests [a], q ∈ calls)
    (hs : s.step a = some t) : Foreseen calls t := by
  refine fs.step b (fun env frame q ha hq => hcalls q ?_) hs
  exact mem_filterMap.mpr ⟨_, mem_singleton.mpr ha.symm, hq⟩

section Restart

variable {u : Upstream P}

theorem unborn_step (b : Books root s) {a : Action W root} (hc : Change s t a)
    (h : ∀ v, s.router.nextUpstream ≤ v → ∀ e ∈ s.out, ¬ e.ResultOf calls v) :
    ∀ v, t.router.nextUpstream ≤ v → ∀ e ∈ t.out, ¬ e.ResultOf calls v := by
  intro v hv
  have hnext := hc.numbers.1
  refine hc.unsaid_gone (fun hr => ?_) (h v (by omega))
  have := b.running_lt hr
  omega

theorem foreseen_reached (hplain : ∀ a ∈ actions, a.Plain) (ht : (Session.start root).run actions = some t)
    {before after : List (Action W root)} (he : actions = before ++ after)
    (hs : (Session.start root).run before = some s) : Books root s ∧ Charted root s ∧ Foreseen (requests actions) s ∧
      ∀ v, s.router.nextUpstream ≤ v → ∀ e ∈ s.out, ¬ e.ResultOf (requests actions) v := by
  refine run_induction (i := fun s => Foreseen (requests actions) s ∧ ∀ v, s.router.nextUpstream ≤ v → ∀ e ∈ s.out,
    ¬ e.ResultOf (requests actions) v) (Books.start root) (Charted.start root) hplain ?_ ?_ he hs
  · exact ⟨Foreseen.start hplain ht, fun _ _ e he => absurd he not_mem_nil⟩
  · intro before a after s t he hs b c k hstep
    exact ⟨k.1.step_of b (fun q => requests_middle he) hstep, unborn_step b (step_change b c.rooted hstep) k.2⟩

theorem Noticed.opened (b : Books root s) {a : Action W root} (hc : Change s t a) (ho : s.Orderly a)
    (hunborn : ∀ v, s.router.nextUpstream ≤ v → ∀ e ∈ s.out, ¬ e.ResultOf calls v) (hlost : s.router.Lost u.root)
    (hu : u ∈ t.router.openUpstreams) (hnew : u ∉ s.router.openUpstreams) : Noticed calls u t := by
  have hnumber := (hc.numbers.2 u hu).resolve_left hnew
  have hgone : ¬ s.Running u.id := fun hr => Nat.not_le.mpr (b.running_lt hr) hnumber
  have hsaid := hc.unsaid_gone hgone (hunborn _ hnumber)
  cases hc with
  | stays router | notes _ _ router | fails _ _ _ _ _ _ _ _ _ router =>
    exact absurd (router.openUpstreams ▸ hu) hnew
  | opens _ _ _ router marked _ hands =>
    obtain rfl := (router.adds u hu).resolve_left hnew
    refine .due ?_ ⟨hsaid, fun f st hh => absurd ((hands.holds _ _ _).mp hh).running hgone⟩
    rw [router.restarted, marked hlost]
    exact mem_append_right _ (mem_singleton.mpr rfl)
  | settles _ _ _ _ _ _ _ router => exact absurd (router.opens ▸ hu) hnew
  | passes _ _ _ _ router => exact absurd (router ▸ hu) hnew
  | selects _ _ f stamps _ _ had _ switch router =>
    obtain ⟨mid, hopens, hr⟩ := router.opens
    rw [hr] at hu
    obtain rfl := (hopens.adds u hu).resolve_left hnew
    obtain ⟨target, htarget, hcanon⟩ := switch
    exact absurd hlost (ho f stamps target u.root had htarget hcanon)
  | ends _ router => exact absurd (router.sub u hu) hnew

/-- Every orderly run keeps to what becomes of a mark. -/
theorem Noticed.run (n : Noticed calls u s) (b : Books root s) (c : Charted root s) (fs : Foreseen calls s)
    (number : u.id < s.router.nextUpstream) (rooted : ∀ v ∈ s.router.openUpstreams, v.id = u.id → v = u)
    (hplain : ∀ a ∈ actions, a.Plain) (hcalls : ∀ q ∈ requests actions, q ∈ calls) (ho : s.Meets Orderly actions)
    (hs : s.run actions = some t) : Noticed calls u t := by
  refine (run_induction (i := fun s => Noticed calls u s ∧ Foreseen calls s ∧ u.id < s.router.nextUpstream ∧
    ∀ v ∈ s.router.openUpstreams, v.id = u.id → v = u) b c hplain ⟨n, fs, number, rooted⟩ ?_
    (append_nil _).symm hs).2.2.1
  rintro before a after s s' he hrun b c ⟨n, fs, number, rooted⟩ hstep
  have hc := step_change b c.rooted hstep
  exact ⟨n.step b fs hc ((he ▸ ho).at hrun) rooted number,
    fs.step_of b (fun q hq => hcalls q (requests_middle he hq)) hstep, hc.keeps_number number rooted⟩

end Restart

/-- At some point of a run the connection of this number was open, to this project. -/
def Serves (actions : List (Action W root)) (v : Nat) (p : P) : Prop :=
  ∃ before after, ∃ s : Session W P, actions = before ++ after ∧ (Session.start root).run before = some s ∧
    ⟨v, p⟩ ∈ s.router.openUpstreams

variable {p : P}

section

variable (hs : (Session.start root).run before = some s)

include hs

theorem serves_opened {after : List (Action W root)} (he : actions = before ++ a :: after)
    (hstep : s.step a = some t) (hu : u ∈ t.router.openUpstreams) : Serves (W := W) actions u.id u.root := by
  refine ⟨before ++ [a], after, t, by rw [he, append_assoc]; rfl, ?_, hu⟩
  exact run_snoc hs hstep

theorem split_reached {after : List (Action W root)} (hplain : ∀ a ∈ actions, a.Plain)
    (he : actions = before ++ after) : Books root s ∧ Charted root s := by
  have hbefore : ∀ a ∈ before, a.Plain := fun a ha => hplain a (he ▸ mem_append_left _ ha)
  exact ⟨(Books.start root).run hbefore hs, (Charted.start root).run (Books.start root) hbefore hs⟩

theorem open_later {between : List (Action W root)} (hplain : ∀ a ∈ before ++ between, a.Plain)
    (ht : (Session.start root).run (before ++ between) = some t) {v : Nat} {q : P}
    (hp : ⟨v, p⟩ ∈ s.router.openUpstreams) (hq : ⟨v, q⟩ ∈ t.router.openUpstreams) : q = p := by
  obtain ⟨b, c⟩ := split_reached hs hplain rfl
  rw [run_append, hs] at ht
  exact congrArg Upstream.root (b.run_rooted c (b.number_lt hp) (fun w hw hid => c.ids _ hw _ hp hid)
    (fun a ha => hplain a (mem_append_right _ ha)) ht _ hq rfl)

theorem serves_iff {after : List (Action W root)} (hplain : ∀ a ∈ actions, a.Plain) (he : actions = before ++ after)
    {v : Nat} (hv : s.Running v) : Serves (W := W) actions v p ↔ ⟨v, p⟩ ∈ s.router.openUpstreams := by
  refine ⟨?_, fun h => ⟨before, after, s, he, hs, h⟩⟩
  rintro ⟨before', after', s', he', hs', hp⟩
  obtain ⟨b, c⟩ := split_reached hs hplain he
  obtain ⟨q, hq⟩ := b.running_open hv
  rcases append_eq_append_iff.mp (he'.symm.trans he) with ⟨between, hb, _⟩ | ⟨between, hb, _⟩
  · have hsub : ∀ a ∈ before' ++ between, a.Plain := fun a ha => hplain a (he ▸ mem_append_left _ (hb ▸ ha))
    rw [← open_later hs' hsub (hb ▸ hs) hp hq]
    exact hq
  · have hsub : ∀ a ∈ before ++ between, a.Plain := fun a ha => hplain a (he' ▸ mem_append_left _ (hb ▸ ha))
    rw [open_later hs hsub (hb ▸ hs') hq hp]
    exact hq

end

omit [DecidableEq W] in
theorem SwitchedTo.change (h : s.SwitchedTo p) (hc : Change s t a) : t.SwitchedTo p := by
  obtain ⟨more, hmore, _⟩ := hc.spoken
  obtain ⟨v, id, hm⟩ := h
  exact ⟨v, id, hmore ▸ mem_append_left _ hm⟩

theorem SwitchedTo.run (h : s.SwitchedTo p) (b : Books root s) (c : Charted root s)
    (hplain : ∀ a ∈ actions, a.Plain) (hs : s.run actions = some t) : t.SwitchedTo p :=
  (run_induction (i := (SwitchedTo · p)) b c hplain h
    (fun _ _ _ _ _ _ _ b c k hs => k.change (step_change b c.rooted hs)) (append_nil _).symm hs).2.2

/-- What is kept along a run about a project that is never selected. -/
structure Follows (actions : List (Action W root)) (p : P) (s : Session W P) : Prop where
  front : FrontSettles s
  foreseen : Foreseen (requests actions) s
  instructed : Instructed p s
  told : Told (requests actions) p (fun v => Serves (W := W) actions v p) s

theorem Follows.start (hp : p ≠ root) (hplain : ∀ a ∈ actions, a.Plain)
    (hs : (Session.start root).run actions = some t) : Follows actions p (Session.start root : Session W P) where
  front r hr f stamps hphase := by
    rw [start_reader hr]
  foreseen := Foreseen.start hplain hs
  instructed u hu hup := by
    rw [show (Session.start root : Session W P).router.openUpstreams = [⟨0, root⟩] from rfl, mem_singleton] at hu
    rw [hu] at hup
    exact absurd hup.symm hp
  told := by
    refine .untold not_mem_nil (fun v _ e he => absurd he not_mem_nil) ?_
    rintro v _ f st ⟨r, hr, _, hphase⟩
    rw [start_reader hr] at hphase
    rcases hphase with h | h <;> cases h

/-- What is known of a project that is never selected holds after every orderly run. -/
theorem Follows.run (hp : p ≠ root) (hplain : ∀ a ∈ actions, a.Plain)
    (ho : (Session.start root).Meets Orderly actions) (hs : (Session.start root).run actions = some t)
    (hn : ¬ t.SwitchedTo p) : Follows actions p t := by
  refine (run_induction (i := Follows actions p) (Books.start root) (Charted.start root) hplain
    (Follows.start hp hplain hs) ?_ (append_nil actions).symm hs).2.2
  intro before a after s s' he hrun b c k hstep
  have hc := step_change b c.rooted hstep
  have ha : a.Plain := hplain a (he ▸ mem_append_right _ mem_cons_self)
  have hafter : ∀ a' ∈ after, a'.Plain :=
    fun a' h' => hplain a' (he ▸ mem_append_right _ (mem_cons_of_mem _ h'))
  have hn' : ¬ s'.SwitchedTo p := by
    intro h
    rw [he, run_append, hrun] at hs
    have hrest : (s.step a).bind (fun s'' => s''.run after) = some t := hs
    rw [hstep] at hrest
    exact hn (h.run (b.step ha hstep) (c.change b hc) hafter hrest)
  have hn'' : ¬ s.SwitchedTo p := fun h => hn' (h.change hc)
  have hserved : Served root p (fun v => Serves (W := W) actions v p) s := by
    refine ⟨hp, fun v hv => serves_iff hrun hplain he hv, fun v hv hserves => ?_, k.instructed⟩
    have hroot := c.settling b k.front hv
    obtain ⟨r, hr, hid, _⟩ := hv
    have hpopen := (serves_iff hrun hplain he ⟨r, hr, hid⟩).mp hserves
    exact hp (congrArg Upstream.root (c.ids _ hpopen _ hroot rfl))
  exact ⟨k.front.step hstep, k.foreseen.step_of b (fun q => requests_middle he) hstep, k.instructed.step c hp hn'' hc,
    k.told.step hserved b c k.foreseen hc ((he ▸ ho).at hrun) hn'⟩

omit [DecidableEq W] [DecidableEq P] in
theorem Noticed.first (n : Noticed calls u s) {pre post : List (Event W P)} {e : Event W P}
    (hout : s.out = pre ++ e :: post) (he : e.ResultOf calls u.id) (hpre : ∀ e' ∈ pre, ¬ e'.ResultOf calls u.id) :
    e.Carries (.restarted u.root) := by
  have hmem : e ∈ s.out := hout ▸ mem_append_right _ mem_cons_self
  cases n with
  | due marked unheard => exact absurd he (unheard.said e hmem)
  | inHand _ _ _ _ _ _ said => exact absurd he (said e hmem)
  | given _ e₀ _ out result carries first =>
    rcases append_cons_cases (hout.symm.trans out) with ⟨_, rfl⟩ | hb | ⟨_, hp⟩
    · exact carries
    · exact absurd he (first e hb)
    · exact absurd result (hpre e₀ hp)
  | gone ended said => exact absurd he (said e hmem)

omit [DecidableEq W] [DecidableEq P] in
theorem Told.first_iff {serves : Nat → Prop} (n : Told calls p serves s) {pre post : List (Event W P)}
    {e : Event W P} (hout : s.out = pre ++ e :: post) {v : Nat} (hv : serves v) (he : e.ResultOf calls v) :
    (∃ text, e.Carries (.guidance p text)) ↔ ∀ e' ∈ pre, ∀ w, serves w → ¬ e'.ResultOf calls w := by
  have hmem : e ∈ s.out := hout ▸ mem_append_right _ mem_cons_self
  cases n with
  | untold _ said => exact absurd he (said v hv e hmem)
  | inHand _ _ _ _ _ _ _ _ _ said => exact absurd he (said v hv e hmem)
  | given _ _ e₀ _ w text out sv result carries first once =>
    rcases append_cons_cases (hout.symm.trans out) with ⟨rfl, rfl⟩ | hb | ⟨ha, hp⟩
    · exact iff_of_true ⟨text, carries⟩ fun e' he' w' hw' => first w' hw' e' he'
    · exact absurd he (first v hv e hb)
    · refine iff_of_false ?_ fun h => h e₀ hp w sv result
      rintro ⟨text', htext'⟩
      exact once v hv e ha he text' htext'

def RestartsTold (actions : List (Action W root)) (t : Session W P) : Prop :=
  ∀ before a after, ∀ s s' : Session W P, actions = before ++ a :: after → (Session.start root).run before = some s →
    s.step a = some s' → ∀ u ∈ s'.router.openUpstreams, u ∉ s.router.openUpstreams → s.router.Lost u.root →
      ∀ pre e post, t.out = pre ++ e :: post → e.ResultOf (requests actions) u.id →
        (∀ e' ∈ pre, ¬ e'.ResultOf (requests actions) u.id) → e.Carries (.restarted u.root)

def GuidanceTold (actions : List (Action W root)) (t : Session W P) : Prop :=
  ∀ p, p ≠ root → ¬ t.SwitchedTo p → ∀ pre e post, t.out = pre ++ e :: post →
    (∃ v, Serves (W := W) actions v p ∧ e.ResultOf (requests actions) v) →
      ((∃ text, e.Carries (.guidance p text)) ↔
        ∀ e' ∈ pre, ∀ v, Serves (W := W) actions v p → ¬ e'.ResultOf (requests actions) v)

def isCalm (s : Session W P) : Action W root → Bool
  | .daemonFrame v f => f.switchRoot.isNone && s.cancelled.isEmpty &&
    (f.hasContent || s.router.pending.rows.all fun q => decide (f.responseId = some q.request → q.method ≠ "tools/call")) &&
    s.readers.rows.all fun r => decide (r.id = v) || match r.phase with
      | .reading => true
      | _ => false
  | .frontFrame _ _ => s.readers.rows.all fun r => match r.phase with
    | .settled f _ => f.switchRoot.isNone
    | .passing f _ => f.switchRoot.isNone
    | .reading => true
  | _ => true

def isCalmRun : Session W P → List (Action W root) → Bool
  | _, [] => true
  | s, a :: as => s.isCalm a && (s.step a).all fun t => isCalmRun t as

theorem orderly_of_isCalm (h : s.isCalm a) : s.Orderly a := by
  cases a with
  | daemonFrame v f =>
    obtain ⟨h, hothers⟩ := Bool.and_eq_true_iff.mp h
    obtain ⟨h, howed⟩ := Bool.and_eq_true_iff.mp h
    obtain ⟨hswitch, hcancel⟩ := Bool.and_eq_true_iff.mp h
    refine ⟨fun _ => isNone_iff_eq_none.mp hswitch, fun x hx => ⟨fun _ => ⟨fun hx' => ?_, ?_⟩, ?_⟩⟩
    · rw [isEmpty_iff.mp hcancel] at hx'
      exact absurd hx' not_mem_nil
    · rintro ⟨q, hq, rfl, hmethod⟩
      refine (Bool.or_eq_true_iff.mp howed).resolve_right fun hall => ?_
      exact of_decide_eq_true (all_eq_true.mp hall q hq) hx hmethod
    · rintro p w _ _ hw g st ⟨r, hr, rfl, hphase⟩
      have hr := all_eq_true.mp hothers r hr
      rw [decide_eq_false hw, Bool.false_or] at hr
      rcases hphase with hphase | hphase <;> rw [hphase] at hr <;> cases hr
  | frontFrame env v =>
    rintro f st target p ⟨r, hr, rfl, hphase⟩ htarget
    have hr := all_eq_true.mp h r hr
    have hnone : f.switchRoot.isNone := by
      rcases hphase with hphase | hphase <;> rw [hphase] at hr <;> exact hr
    rw [htarget] at hnone
    cases hnone
  | clientFrame | clientSend | clientRelease | clientEof | forward | upstreamEnd => trivial

theorem meets_of_isCalmRun (h : s.isCalmRun actions) : s.Meets Orderly actions := by
  induction actions generalizing s with
  | nil => trivial
  | cons _ _ ih =>
    obtain ⟨ha, hrest⟩ := Bool.and_eq_true_iff.mp h
    refine ⟨orderly_of_isCalm ha, fun t ht => ih ?_⟩
    rw [ht] at hrest
    exact hrest

end Session

/-- In every run whose steps are all orderly, no restart line and no guidance is lost. -/
theorem notices_not_lost (root : P) (actions : List (Action W root)) (hplain : ∀ a ∈ actions, a.Plain)
    (horderly : (Session.start root).Meets Session.Orderly actions) {t : Session W P}
    (hrun : (Session.start root).run actions = some t) :
    Session.RestartsTold actions t ∧ Session.GuidanceTold actions t := by
  constructor
  · intro before a after s s' he hs hstep u hu hnew hlost pre e post hout hresult hpre
    obtain ⟨b, c, fs, hunborn⟩ := Session.foreseen_reached hplain hrun he hs
    have hc := Session.step_change b c.rooted hstep
    have n := Session.Noticed.opened b hc ((he ▸ horderly).at hs) hunborn hlost hu hnew
    have he' : actions = (before ++ [a]) ++ after := by rw [he, append_assoc]; rfl
    have hs' : (Session.start root).run (before ++ [a]) = some s' := Session.run_snoc hs hstep
    obtain ⟨b', c', fs', _⟩ := Session.foreseen_reached hplain hrun he' hs'
    have hrest : s'.run after = some t := by
      rw [he', Session.run_append, hs'] at hrun
      exact hrun
    refine (n.run b' c' fs' (b'.number_lt hu) (fun v hv hid => c'.ids v hv u hu hid)
      (fun a ha => hplain a (he' ▸ mem_append_right _ ha)) (fun q hq => ?_) ?_ hrest).first hout hresult hpre
    · rw [he', requests_append]
      exact mem_append_right _ hq
    · exact (he' ▸ horderly).after hs'
  · intro p hp hn pre e post hout hresult
    obtain ⟨v, hv, he⟩ := hresult
    exact (Session.Follows.run hp hplain horderly hrun hn).told.first_iff hout hv he

def callSub (id : Nat) : List (Action Nat "/r") :=
  [.clientFrame subEnv (some { subCall with id := some (some id) }), .clientSend true]

def subLost : List (Action Nat "/r") := openingFrames subEnv ++ callSub 2 ++ [.upstreamEnd 1]

def subReturns : List (Action Nat "/r") :=
  subLost ++ callSub 3 ++ [.daemonFrame 2 { id := some (some 3), hasContent := true }, .forward 2]

def heardFirst : List (Event Nat String) :=
  [.relayed 0 { id := some (some 1) } [], .own (some 2) "tools/call" (.ended 1 "/r/sub" false)]

def allStamps : List (Stamp String) := [.answeredFrom "/r/sub", .restarted "/r/sub", .guidance "/r/sub" ""]

theorem heardFirst_silent {asked : List (Nat × String)} {v : Nat} {e : Event Nat String} (he : e ∈ heardFirst) :
    ¬ e.ResultOf asked v := by
  rcases mem_pair.mp he with rfl | rfl
  · exact fun h => Bool.noConfusion h.2.1
  · exact fun h => h

theorem subLost_reconnects : ∃ s s' : Session Nat String, (Session.start "/r").run subLost = some s ∧
    s.step (.clientFrame subEnv (some { subCall with id := some (some 3) })) = some s' ∧
    ⟨2, "/r/sub"⟩ ∈ s'.router.openUpstreams ∧ ⟨2, "/r/sub"⟩ ∉ s.router.openUpstreams ∧ s.router.Lost "/r/sub" := by
  obtain ⟨s', hs', hnew⟩ := (any_eq_true (fun s' : Session Nat String =>
    decide (⟨2, "/r/sub"⟩ ∈ s'.router.openUpstreams)) (((Session.start "/r").run subLost).bind fun s =>
      s.step (.clientFrame subEnv (some { subCall with id := some (some 3) })))).mp (by decide +kernel)
  obtain ⟨s, hs, hstep⟩ := bind_eq_some_iff.mp hs'
  have hold : ((Session.start "/r").run subLost).any (fun s => decide (⟨2, "/r/sub"⟩ ∉ s.router.openUpstreams ∧
      s.router.root = "/r" ∧ Slot.lost "/r/sub" ∈ s.router.subs.rows)) := by decide +kernel
  rw [hs] at hold
  obtain ⟨hold, hroot, hlost⟩ := of_decide_eq_true hold
  refine ⟨s, s', hs, hstep, of_decide_eq_true hnew, hold, ?_⟩
  unfold Router.Lost
  rw [hroot, if_neg (by decide)]
  exact ⟨_, hlost, rfl, rfl⟩

theorem notices_not_lost_subReturns : ∃ t : Session Nat String, (Session.start "/r").run subReturns = some t ∧
    ∃ e ∈ t.out, e.ResultOf (requests subReturns) 2 ∧ e.Carries (.restarted "/r/sub") ∧
      ∃ text, e.Carries (.guidance "/r/sub" text) := by
  have hplain : ∀ a ∈ subReturns, a.Plain := by
    simp [subReturns, subLost, callSub, openingFrames, subCall, Action.Plain, classify, ClientMessage.kind]
  have horderly : (Session.start "/r").Meets Session.Orderly subReturns :=
    Session.meets_of_isCalmRun (by decide +kernel)
  obtain ⟨t, ht, hout⟩ := (any_eq_true (fun t : Session Nat String => decide (t.out =
    heardFirst ++ [.relayed 2 { id := some (some 3), hasContent := true } allStamps]))
    ((Session.start "/r").run subReturns)).mp (by decide +kernel)
  obtain ⟨hrestart, hguidance⟩ := notices_not_lost "/r" subReturns hplain horderly ht
  obtain ⟨s, s', hs, hstep, hopen, hnew, hlost⟩ := subLost_reconnects
  have hout' := of_decide_eq_true hout
  have hresult : Event.ResultOf (requests subReturns) 2 (.relayed 2
      { id := some (some 3), hasContent := true } allStamps) := by
    refine ⟨rfl, rfl, 3, rfl, ?_⟩
    decide +kernel
  have hserves : Session.Serves (W := Nat) subReturns 2 "/r/sub" :=
    Session.serves_opened hs rfl hstep hopen
  refine ⟨t, ht, .relayed 2 { id := some (some 3), hasContent := true } allStamps, ?_, hresult, ?_, ?_⟩
  · rw [hout']
    exact mem_append_right heardFirst mem_cons_self
  · exact hrestart subLost _ _ s s' rfl hs hstep _ hopen hnew hlost heardFirst _ [] hout' hresult
      fun e' he' => heardFirst_silent he'
  · refine (hguidance "/r/sub" (by decide) ?_ heardFirst _ [] hout' ⟨2, hserves, hresult⟩).mpr
      fun e' he' v _ => heardFirst_silent he'
    rintro ⟨v, id, hm⟩
    rw [hout'] at hm
    simp [heardFirst] at hm

def errorFirst : List (Action Nat "/r") :=
  subLost ++ callSub 3 ++ [.daemonFrame 2 { id := some (some 3) }, .forward 2] ++ callSub 4 ++
    [.daemonFrame 2 { id := some (some 4), hasContent := true }, .forward 2]

/-- An error answered first takes both notices with it. -/
theorem notices_lost_to_error : ∃ t : Session Nat String, (Session.start "/r").run errorFirst = some t ∧
    ¬ Session.RestartsTold errorFirst t ∧ ¬ Session.GuidanceTold errorFirst t := by
  obtain ⟨t, ht, hout⟩ := (any_eq_true (fun t : Session Nat String => decide (t.out =
    (heardFirst ++ [.relayed 2 { id := some (some 3) } allStamps]) ++
      [.relayed 2 { id := some (some 4), hasContent := true } [.answeredFrom "/r/sub"]]))
    ((Session.start "/r").run errorFirst)).mp (by decide +kernel)
  obtain ⟨s, s', hs, hstep, hopen, hnew, hlost⟩ := subLost_reconnects
  have hout' := of_decide_eq_true hout
  have hresult : Event.ResultOf (requests errorFirst) 2 (.relayed 2
      { id := some (some 4), hasContent := true } [Stamp.answeredFrom "/r/sub"]) := by
    refine ⟨rfl, rfl, 4, rfl, ?_⟩
    decide +kernel
  have hpre : ∀ v, ∀ e' ∈ heardFirst ++ [Event.relayed 2 { id := some (some 3) } allStamps],
      ¬ e'.ResultOf (requests errorFirst) v := by
    intro v e' he'
    rcases mem_append.mp he' with he' | he'
    · exact heardFirst_silent he'
    · rw [mem_singleton.mp he']
      exact fun h => Bool.noConfusion h.2.1
  have hserves : Session.Serves (W := Nat) errorFirst 2 "/r/sub" :=
    Session.serves_opened hs rfl hstep hopen
  refine ⟨t, ht, fun h => ?_, fun h => ?_⟩
  · have := h subLost _ _ s s' rfl hs hstep _ hopen hnew hlost _ _ [] hout' hresult (hpre 2)
    cases mem_singleton.mp this
  · have hsub : ¬ t.SwitchedTo "/r/sub" := by
      rintro ⟨v, id, hm⟩
      rw [hout'] at hm
      simp [heardFirst] at hm
    obtain ⟨text, htext⟩ := (h "/r/sub" (by decide) hsub _ _ [] hout' ⟨2, hserves, hresult⟩).mpr
      fun e' he' v _ => hpre v e' he'
    cases mem_singleton.mp htext

end GMesh
