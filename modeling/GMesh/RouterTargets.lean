import GMesh.RouterReach

namespace GMesh

variable {W P : Type} {root : P} {u : Upstream P}

theorem kind_selectProject {frame : Option (ClientMessage W)} {id : Option W}
    (hk : (classify frame).1 = .selectProject id) :
    (classify frame).2 = id.map fun x => (x, "tools/call") := by
  cases frame with
  | none => cases hk
  | some m =>
    have hkind : m.kind = .selectProject id := hk
    show m.request = _
    unfold ClientMessage.kind at hkind
    split at hkind
    all_goals try cases hkind
    next => split at hkind <;> cases hkind
    next hmethod =>
      split at hkind
      next i hname hid =>
        cases hkind
        unfold ClientMessage.request
        rw [hid, hmethod]
        cases id <;> rfl
      next => cases hkind

namespace Held

variable (env : Surroundings root) [DecidableEq P]

theorem connect_front (h : Held W P) (replay restart : Bool)
    (hu : (h.connect env .front replay restart).2 = .ok u) :
    (h.connect env .front replay restart).1.router.frontId = some u.id := by
  have hinstall : ∀ g : Held W P, (g.install g.router.root restart).1.router.frontId =
      some (g.install g.router.root restart).2.id := by
    intro g
    unfold install markRestarted
    rw [if_pos rfl]
    split <;> rfl
  unfold connect at hu ⊢
  dsimp only at hu ⊢
  split at hu
  next => cases hu
  next =>
    by_cases hreplay : replay
    · rw [if_pos hreplay] at hu ⊢
      split at hu
      next => cases hu
      next shaken text he =>
        have hs := handshake_grows env h (h.router.rootOf .front)
        rw [he] at hs
        have hg := recordGuidance_grows shaken (h.router.rootOf .front) text
        have hroot : h.router.rootOf .front = (shaken.recordGuidance (h.router.rootOf .front) text).router.root :=
          (hg.1.root.trans hs.1.root).symm
        have hi := hinstall (shaken.recordGuidance (h.router.rootOf .front) text)
        rw [← hroot] at hi
        rw [← Except.ok.inj hu]
        exact hi
    · rw [if_neg hreplay] at hu ⊢
      rw [← Except.ok.inj hu]
      exact hinstall h

theorem reach_front (h : Held W P) (replay : Bool) (request : Option (W × String))
    (hu : (h.reach env .front replay request).2 = some u) :
    (h.reach env .front replay request).1.router.frontId = some u.id := by
  unfold reach at hu ⊢
  split at hu
  next v hv =>
    obtain rfl := Option.some.inj hu
    have hf : h.router.frontId = some v.id := congrArg (Option.map Upstream.id) hv
    rw [touch_eq]
    exact hf
  next =>
    split at hu
    next => cases hu
    next id method =>
      split at hu
      next connected v he =>
        cases hu
        have hc := connect_front env h replay (h.router.slot .front).isSome (congrArg Prod.snd he)
        rw [he] at hc
        exact hc
      next => cases hu

variable [DecidableEq W]

/-- A frame that neither cancels nor selects gets an upstream, or its request one answer. -/
theorem chooseTarget_targets (h : Held W P) (frame : Option (ClientMessage W)) (kind : ClientFrame W)
    (request : Option (W × String)) (hroot : h.router.root = root) (hn : h.router.Numbered)
    (hc : ∀ id, kind ≠ .cancelled id) (hs : ∀ id, kind ≠ .selectProject id) :
    Targets h request ((h.chooseTarget env frame kind request).1, (h.chooseTarget env frame kind request).2.target) ∧
      (h.chooseTarget env frame kind request).2.cancelledOn = none ∧
      (classify (h.chooseTarget env frame kind request).2.message).2 = (classify frame).2 := by
  have hcurrent : ∀ p, Which.current = Which.project p → p ≠ root := fun p hp => nomatch hp
  have hreach : ∀ g : Held W P, Grows h g → g.sent = h.sent → ∀ replay,
      Targets h request (g.reach env .current replay request) := by
    intro g hg hsent replay
    exact .of_grows hg hsent
      (reach_targets env g .current replay request (hg.root.trans hroot) (hg.numbered hn) hcurrent)
  unfold chooseTarget
  cases kind with
  | cancelled id => exact absurd rfl (hc id)
  | selectProject id => exact absurd rfl (hs id)
  | initRequest =>
    exact ⟨hreach { h with router := { h.router with initFrame := frame } }
      (.of_same rfl rfl rfl rfl rfl rfl rfl (fun _ => .rfl) rfl) rfl false, rfl, rfl⟩
  | initialized =>
    exact ⟨hreach { h with router := { h.router with initializedFrame := frame } }
      (.of_same rfl rfl rfl rfl rfl rfl rfl (fun _ => .rfl) rfl) rfl true, rfl, rfl⟩
  | toolsList => exact ⟨reachForToolsList_targets env h request hn, rfl, rfl⟩
  | other => exact ⟨hreach h (.refl h) rfl true, rfl, rfl⟩
  | call project =>
    cases project with
    | none =>
      dsimp only
      split
      next => exact ⟨refuse_targets h request rfl, rfl, rfl⟩
      next => exact ⟨hreach h (.refl h) rfl true, rfl, rfl⟩
    | some project =>
      have hr := route_grows env h project
      dsimp only
      split
      next routed which he =>
        rw [he] at hr
        have ht := reach_targets env routed which true request (hr.1.root.trans hroot) (hr.1.numbered hn)
          (hr.2.2.1 which rfl)
        exact ⟨.of_grows hr.1 hr.2.1 ht, rfl, by cases frame <;> rfl⟩
      next routed why he =>
        rw [he] at hr
        exact ⟨.of_grows hr.1 hr.2.1 (refuse_targets routed request (hr.2.2.2 why rfl)), rfl, rfl⟩

end Held

end GMesh
