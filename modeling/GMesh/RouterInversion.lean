import GMesh.RouterChanges

namespace GMesh

open KeyedTable Held List

variable {W P : Type} {root : P} {e : Event W P}

namespace Held

variable [DecidableEq W]

theorem upstreamEnded_ends (h : Held W P) (id : Nat) : h.router.Ends (h.upstreamEnded id).router id := by
  obtain ⟨served, evicted, hf, _⟩ := upstreamEnded_frame h id
  have hl : (h.leaveFront id).router = _ := congrArg router (leaveFront_frame h id)
  have hfront : (h.leaveFront id).router.front = h.router.front ∨
      (h.leaveFront id).router.front = .lost h.router.root := by
    unfold leaveFront
    split
    next =>
      rw [loseFront_frame]
      exact .inr rfl
    next => exact .inl rfl
  exact {
    root := by rw [hf, hl]
    front := by
      rw [hf]
      exact hfront
    sub u hu := by
      rw [hf, Router.mem_openUpstreams, mem_lose] at hu
      rw [Router.mem_openUpstreams]
      rcases hu with hu | hu | hu
      · rcases hfront with h' | h'
        · exact .inl (h'.symm.trans hu)
        · exact nomatch h'.symm.trans hu
      · exact .inr (.inl hu.1)
      · exact .inr (.inr (mem_of_mem_eraseP hu))
    selected := by rw [hf, hl]
    selections := by rw [hf, hl]
    guidance := by rw [hf, hl]
    guided := by rw [hf, hl]
    restarted := by rw [hf]
    next := by rw [hf, hl] }

omit [DecidableEq W] in
theorem lastEvents_own {r : Router W P} (he : e ∈ lastEvents r) : e.isOwn := by
  unfold lastEvents at he
  split at he
  next =>
    rw [mem_singleton.mp he]
    rfl
  next => exact absurd he not_mem_nil

theorem upstreamEnded_own {h : Held W P} (hs : h.sent = []) (id : Nat) : ∀ e ∈ (h.upstreamEnded id).sent, e.isOwn := by
  obtain ⟨served, evicted, hf, _⟩ := upstreamEnded_frame h id
  intro e he
  rw [hf, hs, nil_append] at he
  rcases mem_append.mp he with he | he
  · rcases mem_append.mp he with he | he
    · unfold frontAnswers at he
      split at he
      next =>
        obtain ⟨x, _, rfl⟩ := mem_map.mp he
        rfl
      next => exact absurd he not_mem_nil
    · obtain ⟨f, _, rfl⟩ := mem_map.mp he
      rfl
  · exact lastEvents_own he

variable [DecidableEq P]

/-- An answer settles a call that its upstream owes, or changes nothing but the books. -/
theorem settle_cases (h : Held W P) (v : Nat) (x : W) (hopen : v ∈ h.router.openIds) :
    (∃ q ∈ h.router.pending, q.request = x ∧ q.upstream = v ∧ q.method = "tools/call" ∧
      ∃ p, ⟨v, p⟩ ∈ h.router.openUpstreams ∧ h.router.Settles (h.settle v x).1.router v p ∧
        (h.settle v x).2 = (h.stamps v p).2) ∨
    ((h.settle v x).2 = [] ∧ h.router.Same (h.settle v x).1.router ∧
      ∀ q ∈ h.router.pending, q.request = x → q.upstream = v → q.method ≠ "tools/call") := by
  unfold settle
  split
  next hnone =>
    have hn := find?_eq_none_iff.mp hnone
    exact .inr ⟨rfl, .refl _, fun q hq hx => absurd hx (hn q hq)⟩
  next f hf =>
    obtain ⟨hm, hk⟩ := find?_eq_some_iff.mp hf
    have honly : ∀ q ∈ h.router.pending, q.request = x → q = f :=
      fun q hq hx => h.router.pending.key_injective hq hm (hx.trans hk.symm)
    split
    next hne =>
      refine .inr ⟨rfl, .refl _, fun q hq hx hv => absurd ?_ hne⟩
      rw [← honly q hq hx]
      exact hv
    next hv =>
      have hv := not_not.mp hv
      dsimp only
      have hup : ((releaseIfDrained { h with router := { h.router with pending := h.router.pending.erase x } }
          v).router.upstream v) = h.router.upstream v := by
        rw [releaseIfDrained_router]
        rfl
      rw [hup]
      obtain ⟨u, hu, hid⟩ := Router.upstream_isSome hopen
      have hmem := mem_of_find?_eq_some hu
      rw [hu]
      dsimp only
      split
      next hmethod =>
        refine .inr ⟨rfl, ?_, fun q hq hx _ => ?_⟩
        · rw [releaseIfDrained_router]
          constructor <;> rfl
        · rw [honly q hq hx]
          exact hmethod
      next hmethod =>
        refine .inl ⟨f, hm, hk, hv, not_not.mp hmethod, u.root, ?_, ?_, ?_⟩
        · rw [← hid]
          exact hmem
        · unfold stamps
          rw [releaseIfDrained_router]
          refine ⟨rfl, rfl, rfl, rfl, rfl, rfl, ?_, rfl, rfl⟩
          simp
        · unfold stamps
          rw [releaseIfDrained_router]

end Held

namespace Session

variable {s t : Session W P}

section

variable {h : Held W P} (hnew : ∀ q ∈ h.spawned, s.router.nextUpstream ≤ q.1)

include hnew

variable [DecidableEq W]

theorem Books.fresh_spawn (b : Books root s) : ∀ q ∈ h.spawned, ∀ r ∈ s.readers, q.1 ≠ r.id := by
  intro q hq r hr he
  have h1 := hnew q hq
  have h2 := b.numbered.lt_next _ (b.reader_open r hr)
  omega

theorem Books.commit_hands (b : Books root s) : KeepsHands s (s.commit h) where
  holds w g st := holds_commit (b.fresh_spawn hnew)
  running w hw := by
    rcases running_commit hw with hw | ⟨q, hq, rfl⟩
    · exact .inl hw
    · exact .inr (hnew q hq)

end

variable {r : Reader W P}

theorem holds_idle (hr : r ∈ s.readers) (hreading : r.phase = .reading) (g : UpstreamFrame W P)
    (st : List (Stamp P)) : ¬ s.Holds r.id g st := by
  rintro ⟨q, hq, hid, hphase⟩
  rw [reader_eq hr hq hid, hreading] at hphase
  rcases hphase with h | h <;> cases h

variable {f : UpstreamFrame W P} {stamps : List (Stamp P)} {phase : Phase W P}

theorem FillsHand.of_eq {v : Nat} {stamps' : List (Stamp P)} (h : FillsHand s t v f stamps) (he : stamps = stamps') :
    FillsHand s t v f stamps' :=
  he ▸ h

theorem fills_setPhase (hr : r ∈ s.readers) (hreading : r.phase = .reading) {c : Session W P}
    (hc : c.readers = s.readers)
    (hphase : phase = .settled f stamps ∨ phase = .passing f stamps) :
    FillsHand s (c.setPhase r phase) r.id f stamps := by
  have hholds : ∀ w g st, c.Holds w g st ↔ s.Holds w g st := by
    intro w g st
    unfold Holds
    rw [hc]
  refine ⟨holds_idle hr hreading, ⟨r, hr, rfl⟩, fun w g st => ?_, fun w hw => ?_⟩
  · rw [holds_setPhase, hholds]
    constructor
    · rintro (⟨rfl, hp⟩ | ⟨_, hh⟩)
      · refine .inl ⟨rfl, ?_⟩
        rcases hphase with rfl | rfl <;> rcases hp with hp | hp <;> cases hp <;> exact ⟨rfl, rfl⟩
      · exact .inr hh
    · rintro (⟨rfl, rfl, rfl⟩ | hh)
      · exact .inl ⟨rfl, hphase⟩
      · refine .inr ⟨?_, hh⟩
        rintro rfl
        exact holds_idle hr hreading g st hh
  · have hrunning : c.Running w := running_setPhase (by rw [hc]; exact hr) hw
    unfold Running at hrunning ⊢
    rwa [hc] at hrunning

variable [DecidableEq W] [DecidableEq P]

theorem change_answer (b : Books root s) {x : W} (hm : r ∈ s.readers) (hp : r.phase = .reading)
    (hx : f.responseId = some x) (hd : (x, r.id) ∈ s.delivered) (hna : (x, r.id) ∉ s.answered)
    (hphase : phase = .settled f (s.held.settle r.id x).2 ∨ phase = .passing f (s.held.settle r.id x).2) :
    Change s { (s.commit (s.held.settle r.id x).1).setPhase r phase with answered := s.answered ++ [(x, r.id)] }
      (.daemonFrame r.id f : Action W root) := by
  have hspawned : (s.held.settle r.id x).1.spawned = [] := by
    rw [settle_frame]
    rfl
  have hsent : (s.held.settle r.id x).1.sent = [] := by
    rw [settle_frame]
    rfl
  have hreaders : (s.commit (s.held.settle r.id x).1).readers = s.readers := by
    unfold commit
    rw [hspawned]
    rfl
  have hout : (s.commit (s.held.settle r.id x).1).out = s.out := by
    unfold commit
    rw [hsent]
    exact append_nil _
  have hfills := fills_setPhase hm hp hreaders hphase
  rcases settle_cases s.held r.id x (b.reader_open r hm) with
    ⟨q, hq, hqx, hqv, hmethod, p, hopen, hsettles, hstamps⟩ | ⟨hstamps, hsame, hunowed⟩
  · exact .settles r.id f x p hx ⟨q, hq, hqx, hqv, hmethod⟩ hopen hsettles (.of_eq { hfills with } hstamps) hout
  · refine .notes r.id f hsame (.of_eq { hfills with } hstamps) ?_ hout
    intro y hy
    cases (hx.symm.trans hy)
    refine ⟨hd, hna, fun q hq hqy => ?_⟩
    refine hunowed q hq hqy ?_
    have h1 := b.pending_forwarded q hq
    rw [hqy] at h1
    exact b.unique _ _ _ h1 (b.delivered _ _ hd)

omit [DecidableEq W] in
theorem change_forward (hm : r ∈ s.readers) (hp : r.phase = .passing f stamps) :
    Change s (s.passOn r (.relayed r.id f stamps)) (.forward r.id : Action W root) := by
  refine .passes r.id f stamps ⟨r, hm, rfl, .inr hp⟩ rfl ⟨fun w g st => ?_, fun w hw => ?_⟩ rfl
  · refine (holds_setPhase (s := s) (r := r)).trans ?_
    simp
  · have hset : (s.setPhase r .reading).Running w := hw
    exact .inl (running_setPhase hm hset)

theorem change_upstreamEnd (hm : r ∈ s.readers) (hp : r.phase = .reading) :
    Change s (s.afterEnd r.id) (.upstreamEnd r.id : Action W root) := by
  refine .ends r.id (upstreamEnded_ends s.held r.id) (holds_idle hm hp) (fun w g st => ?_)
    (fun w hw => ?_) ⟨_, rfl, upstreamEnded_own rfl r.id⟩
  · constructor
    · rintro ⟨q, hq, hid, hphase⟩
      exact ⟨q, (mem_erase.mp hq).1, hid, hphase⟩
    · rintro ⟨q, hq, rfl, hphase⟩
      refine ⟨q, mem_erase.mpr ⟨hq, fun he => ?_⟩, rfl, hphase⟩
      exact holds_idle hm hp g st ⟨q, hq, he, hphase⟩
  · obtain ⟨q, hq, rfl⟩ := hw
    obtain ⟨hq, hne⟩ := mem_erase.mp hq
    exact ⟨⟨q, hq, rfl⟩, hne⟩

variable (b : Books root s)

include b

/-- A switch selects a project over a new connection, or leaves the router as it was. -/
theorem switch_cases (env : Surroundings root) (target : P) :
    (∀ q ∈ (s.held.switch env target).1.spawned, s.router.nextUpstream ≤ q.1) ∧
    (s.held.switch env target).1.sent = [] ∧
    ((∃ u, (s.held.switch env target).2 = .ok u.root ∧ env.canonicalize target = some u.root ∧
      s.router.Selects (s.held.switch env target).1.router u) ∨
      ∃ error, (s.held.switch env target).2 = .error error ∧ s.router.Same (s.held.switch env target).1.router) := by
  unfold switch
  split
  next => exact ⟨nofun, rfl, .inr ⟨_, rfl, .refl _⟩⟩
  next p hp =>
    split
    next => exact ⟨nofun, rfl, .inr ⟨_, rfl, .refl _⟩⟩
    next hbelow =>
      have hne : p ≠ s.router.root := (not_or.mp hbelow).1
      have hg := connect_grows env s.held (.project p) true false b.numbered (fun hp => absurd hp hne)
      have ho := connect_opens env s.held (.project p) true false
      have hnew : ∀ q ∈ (s.held.connect env (.project p) true false).1.spawned, s.router.nextUpstream ≤ q.1 := by
        intro q hq
        rcases hg.1.spawned q hq with hq | hq
        · exact absurd hq not_mem_nil
        · exact hq.1
      split
      next failed error he =>
        rw [he] at hg ho hnew
        exact ⟨hnew, hg.2.1, .inr ⟨_, rfl, ho.2 error rfl⟩⟩
      next connected u he =>
        rw [he] at hg ho hnew
        obtain ⟨hroot, hopens⟩ := ho.1 u rfl
        have hpu : p = u.root := hroot.symm
        subst hpu
        exact ⟨hnew, hg.2.1, .inl ⟨u, rfl, hp, hne, connected.router, hopens, rfl⟩⟩

/-- A frame of the front is passed on, or answered in its place. -/
theorem change_frontFrame {env : Surroundings root} (hm : r ∈ s.readers) (hphase : r.phase = .settled f stamps) :
    Change s ((s.commit (s.held.onFrontFrame env r.id f).1).setPhase r
      (if (s.held.onFrontFrame env r.id f).2 then .passing f stamps else .reading)) (.frontFrame env r.id) := by
  have hkept : ∀ c : Session W P, c.readers = s.readers → s.router.Same c.router → c.out = s.out →
      Change s (c.setPhase r (.passing f stamps)) (.frontFrame env r.id) := by
    intro c hc hsame hout
    refine .stays hsame ⟨fun w g st => ?_, fun w hw => ?_⟩ ⟨[], hout.trans (append_nil _).symm, nofun⟩
    · rw [holds_setPhase]
      have hholds : c.Holds w g st ↔ s.Holds w g st := by
        unfold Holds
        rw [hc]
      rw [hholds]
      constructor
      · rintro (⟨rfl, hp | hp⟩ | ⟨_, hh⟩)
        · cases hp
        · cases hp
          exact ⟨r, hm, rfl, .inl hphase⟩
        · exact hh
      · intro hh
        by_cases hw : w = r.id
        · refine .inl ⟨hw, .inr ?_⟩
          obtain ⟨q, hq, hid, hp⟩ := hh
          rw [reader_eq hm hq (hid.trans hw), hphase] at hp
          rcases hp with hp | hp <;> cases hp
          rfl
        · exact .inr ⟨hw, hh⟩
    · have hrunning : c.Running w := running_setPhase (by rw [hc]; exact hm) hw
      unfold Running at hrunning ⊢
      rw [hc] at hrunning
      exact .inl hrunning
  have hholds : s.Holds r.id f stamps := ⟨r, hm, rfl, .inl hphase⟩
  unfold onFrontFrame
  split
  next => exact hkept (s.commit s.held) rfl (.refl _) (append_nil _)
  next id hid =>
    split
    next hsel =>
      split
      next =>
        exact hkept _ rfl (by constructor <;> rfl) (append_nil _)
      next target hswitch =>
        let taken : Session W P :=
          { s with router := { s.router with selectIds := s.router.selectIds.erase id } }
        have hsame : s.router.Same taken.router := by constructor <;> rfl
        obtain ⟨hnew, hsent, hcases⟩ := switch_cases (s := taken) (b.unselect id) env target
        have hhands := (b.unselect id).commit_hands hnew
        have hempties : EmptiesHand s ((s.commit ((taken.held.switch env target).1.emit
            (.switched r.id id (taken.held.switch env target).2))).setPhase r .reading) r.id := by
          refine ⟨fun w g st => ?_, fun w hw => ?_⟩
          · rw [holds_setPhase]
            simp only [reduceCtorEq, or_self, and_false, false_or]
            exact and_congr_right fun _ => hhands.holds w g st
          · obtain ⟨q, hq, rfl⟩ := hw
            rcases mem_setPhase.mp hq with hq | hq
            · subst hq
              exact .inl ⟨r, hm, rfl⟩
            · exact hhands.running q.id ⟨q, hq.1, rfl⟩
        have hout : s.out ++ ((taken.held.switch env target).1.sent ++
            [Event.switched r.id id (taken.held.switch env target).2]) =
              s.out ++ [.switched r.id id (taken.held.switch env target).2] := by
          rw [hsent]
          rfl
        rcases hcases with ⟨u, hres, htarget, hselects⟩ | ⟨error, hres, hsame'⟩
        · refine .selects env r.id f stamps id u hholds ⟨r, hm, rfl, f, stamps, hphase⟩
            ⟨target, hswitch, htarget⟩ ?_ hempties ?_
          · obtain ⟨mid, ho, hr'⟩ := hselects.opens
            exact ⟨hselects.ne_root, mid, hsame.opens ho, hr'⟩
          · exact hout.trans (by rw [hres])
        · refine .fails env r.id f stamps id error hholds ⟨r, hm, rfl, f, stamps, hphase⟩ (by rw [hswitch]; rfl)
            (hsame.trans hsame') hempties ?_
          exact hout.trans (by rw [hres])
    next => exact hkept (s.commit s.held) rfl (.refl _) (append_nil _)

/-- Every step is one of the changes. -/
theorem step_change (hr : Held.Rooted root s.router) {a : Action W root} (hs : s.step a = some t) : Change s t a := by
  cases step_cases hs with
  | clientFrame env frame =>
    obtain ⟨hown, hnew, _⟩ := onClientFrame_quiet env frame (h := s.held) b.root_eq b.numbered rfl rfl
    have hhands := b.commit_hands hnew
    have hout : Adds s (s.commit (s.held.onClientFrame env frame).1) := ⟨_, rfl, hown⟩
    rcases onClientFrame_leads env s.held frame hr with hsame | ⟨u, replay, restart, ho, hlost, hreplay⟩
    · exact .stays hsame ⟨hhands.holds, hhands.running⟩ hout
    · exact .opens u replay restart ho hlost hreplay ⟨hhands.holds, hhands.running⟩ hout
  | clientSend =>
    exact .stays (.refl _) ⟨fun _ _ _ => .rfl, fun _ h => .inl h⟩ ⟨[], (append_nil _).symm, nofun⟩
  | clientRelease id =>
    have hh := b.commit_hands (h := s.held.releaseIfDrained id) (by rw [releaseIfDrained_spawned]; exact nofun)
    refine .stays ?_ ⟨hh.holds, hh.running⟩ ⟨[], ?_, nofun⟩
    · show s.router.Same (s.held.releaseIfDrained id).router
      rw [releaseIfDrained_router]
      exact .refl _
    · show s.out ++ (s.held.releaseIfDrained id).sent = _
      rw [releaseIfDrained_sent]
      rfl
  | clientEof =>
    unfold clientEof
    rw [endIfDone_frame]
    have hh := b.commit_hands (h := { s.held with sent := lastEvents { s.router with clientDone := true } }) nofun
    exact .stays (by constructor <;> rfl) ⟨hh.holds, hh.running⟩
      ⟨_, rfl, fun _ => lastEvents_own⟩
  | note hm hp hx =>
    refine .notes _ _ (.refl _) (fills_setPhase hm hp rfl (ite_eq_or_eq _ _ _)) (fun x hx' => ?_) rfl
    rw [hx] at hx'
    cases hx'
  | answer hm hp hx hd hna => exact change_answer b hm hp hx hd hna (ite_eq_or_eq _ _ _)
  | frontFrame _ hm hp => exact change_frontFrame b hm hp
  | forward hm hp => exact change_forward hm hp
  | upstreamEnd hm hp => exact change_upstreamEnd hm hp

end Session

namespace Router

variable [DecidableEq P]

variable {r r' : Router W P} {u : Upstream P} {replay restart : Bool} (o : r.Opens r' u replay restart)

include o

theorem Opens.rooted (h : Held.Rooted root r) : Held.Rooted root r' := by
  refine ⟨o.root.trans h.root_eq, ?_, by rw [o.selected]; exact h.selected_ne⟩
  rw [o.front]
  split
  next hu => exact hu.trans h.root_eq
  next => exact h.front

theorem Opens.ids (hn : r.Numbered) (h : ∀ u ∈ r.openUpstreams, ∀ v ∈ r.openUpstreams, u.id = v.id → u = v) :
    ∀ u ∈ r'.openUpstreams, ∀ v ∈ r'.openUpstreams, u.id = v.id → u = v := by
  have hlt : ∀ v ∈ r.openUpstreams, v.id ≠ u.id := by
    intro v hv he
    have := hn.lt_next v.id (mem_openIds.mpr ⟨v, hv, rfl⟩)
    rw [he, o.number] at this
    omega
  intro v hv w hw hid
  rcases o.adds v hv with hv | rfl <;> rcases o.adds w hw with hw | rfl
  · exact h v hv w hw hid
  · exact absurd hid (hlt v hv)
  · exact absurd hid.symm (hlt w hw)
  · rfl

end Router

namespace Session

variable {s t : Session W P}

def SwitchedTo (s : Session W P) (p : P) : Prop := ∃ v id, Event.switched v id (.ok p) ∈ s.out

/-- An upstream number is one connection, and the selection the history of switches. -/
structure Charted (root : P) (s : Session W P) : Prop where
  rooted : Held.Rooted root s.router
  ids : ∀ u ∈ s.router.openUpstreams, ∀ v ∈ s.router.openUpstreams, u.id = v.id → u = v
  switched : ∀ p, p ∈ s.router.selections ↔ s.SwitchedTo p
  nodup : s.router.selections.Nodup
  unselected : s.router.selected = none → s.router.selections = []
  selected : ∀ p, s.router.selected = some p → p ∈ s.router.selections

theorem Charted.start (root : P) : Charted root (Session.start root : Session W P) where
  rooted := ⟨rfl, rfl, nofun⟩
  ids u hu v hv _ := by
    rw [show (Session.start root : Session W P).router.openUpstreams = [⟨0, root⟩] from rfl, mem_singleton] at hu hv
    rw [hu, hv]
  switched p := ⟨nofun, fun ⟨_, _, h⟩ => absurd h not_mem_nil⟩
  nodup := nodup_nil
  unselected _ := rfl
  selected _ := nofun

theorem Adds.switchedTo (h : Adds s t) (p : P) : t.SwitchedTo p ↔ s.SwitchedTo p := by
  obtain ⟨own, hout, hown⟩ := h
  unfold SwitchedTo
  rw [hout]
  simp only [mem_append]
  refine exists_congr fun v => exists_congr fun id => or_iff_left fun he => ?_
  exact nomatch hown _ he

theorem switchedTo_append (hout : t.out = s.out ++ [e]) (p : P) :
    t.SwitchedTo p ↔ s.SwitchedTo p ∨ ∃ v id, e = .switched v id (.ok p) := by
  unfold SwitchedTo
  rw [hout]
  simp only [mem_append, mem_singleton]
  constructor
  · rintro ⟨v, id, h | h⟩
    · exact .inl ⟨v, id, h⟩
    · exact .inr ⟨v, id, h.symm⟩
  · rintro (⟨v, id, h⟩ | ⟨v, id, h⟩)
    · exact ⟨v, id, .inl h⟩
    · exact ⟨v, id, .inr h.symm⟩

theorem Charted.unmoved (c : Charted root s) (hrooted : Held.Rooted root t.router)
    (hsub : ∀ u ∈ t.router.openUpstreams, u ∈ s.router.openUpstreams)
    (hselected : t.router.selected = s.router.selected) (hselections : t.router.selections = s.router.selections)
    (hswitched : ∀ p, t.SwitchedTo p ↔ s.SwitchedTo p) : Charted root t where
  rooted := hrooted
  ids u hu v hv := c.ids u (hsub u hu) v (hsub v hv)
  switched p := by rw [hselections, hswitched, c.switched]
  nodup := hselections ▸ c.nodup
  unselected h := hselections.trans (c.unselected (hselected.symm.trans h))
  selected p h := hselections ▸ c.selected p (hselected.symm.trans h)

variable [DecidableEq W] [DecidableEq P]

/-- Every change keeps the connections and the history of switches charted. -/
theorem Charted.change (c : Charted root s) (b : Books root s) {a : Action W root} (hc : Change s t a) :
    Charted root t := by
  cases hc with
  | stays router _ out =>
    exact c.unmoved (c.rooted.same router) (fun u hu => router.openUpstreams ▸ hu) router.selected
      router.selections out.switchedTo
  | opens _ _ _ router _ _ _ out =>
    refine ⟨router.rooted c.rooted, router.ids b.numbered c.ids, fun p => ?_, ?_, ?_, ?_⟩
    · rw [router.selections, out.switchedTo, c.switched]
    · rw [router.selections]
      exact c.nodup
    · rw [router.selections, router.selected]
      exact c.unselected
    · rw [router.selections, router.selected]
      exact c.selected
  | notes _ _ router _ _ out =>
    refine c.unmoved (c.rooted.same router) (fun u hu => router.openUpstreams ▸ hu) router.selected
      router.selections fun p => ?_
    unfold SwitchedTo
    rw [out]
  | settles _ _ _ p _ _ _ router _ out =>
    refine c.unmoved ⟨router.root.trans c.rooted.root_eq, router.front ▸ c.rooted.front,
      router.selected ▸ c.rooted.selected_ne⟩ (fun u hu => router.opens ▸ hu) router.selected
      router.selections fun p => ?_
    unfold SwitchedTo
    rw [out]
  | passes _ _ _ _ router _ out =>
    refine c.unmoved (router ▸ c.rooted) (fun u hu => router ▸ hu) (by rw [router]) (by rw [router]) fun p => ?_
    rw [switchedTo_append out]
    exact or_iff_left nofun
  | fails _ _ _ _ _ _ _ _ _ router _ out =>
    refine c.unmoved (c.rooted.same router) (fun u hu => router.openUpstreams ▸ hu) router.selected
      router.selections fun p => ?_
    rw [switchedTo_append out]
    exact or_iff_left nofun
  | selects _ v _ _ id u _ _ _ router _ out =>
    obtain ⟨mid, ho, hr⟩ := router.opens
    have hrooted := ho.rooted c.rooted
    have hids := ho.ids b.numbered c.ids
    have hne : u.root ≠ root := fun he => router.ne_root (he.trans c.rooted.root_eq.symm)
    have hsel : t.router.selections = if u.root ∈ s.router.selections then s.router.selections
        else s.router.selections ++ [u.root] := by
      rw [hr, ← ho.selections]
    have hmem : ∀ p, p ∈ t.router.selections ↔ p ∈ s.router.selections ∨ p = u.root := by
      intro p
      rw [hsel]
      split
      next hu =>
        refine ⟨.inl, fun h => h.elim (fun h' => h') ?_⟩
        rintro rfl
        exact hu
      next => rw [mem_append, mem_singleton]
    refine ⟨?_, ?_, fun p => ?_, ?_, ?_, ?_⟩
    · rw [hr]
      exact ⟨hrooted.root_eq, hrooted.front, fun he => hne (Option.some.inj he)⟩
    · rw [hr]
      exact hids
    · rw [hmem, switchedTo_append out, c.switched]
      refine or_congr_right ⟨?_, ?_⟩
      · rintro rfl
        exact ⟨v, id, rfl⟩
      · rintro ⟨_, _, he⟩
        cases he
        rfl
    · rw [hsel]
      split
      next => exact c.nodup
      next hu =>
        refine nodup_append.mpr ⟨c.nodup, nodup_singleton _, fun p hp q hq he => hu ?_⟩
        rw [← mem_singleton.mp hq, ← he]
        exact hp
    · rw [hr]
      exact nofun
    · intro p hp
      rw [hr] at hp
      rw [hmem]
      exact .inr (Option.some.inj hp).symm
  | ends _ router _ _ _ out =>
    refine c.unmoved ⟨router.root.trans c.rooted.root_eq, ?_, router.selected ▸ c.rooted.selected_ne⟩ router.sub
      router.selected router.selections out.switchedTo
    rcases router.front with h | h
    · rw [h]
      exact c.rooted.front
    · rw [h]
      exact c.rooted.root_eq

end Session

end GMesh
