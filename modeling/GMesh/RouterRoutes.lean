import GMesh.RouterTargets

namespace GMesh

open Option

variable {W P : Type} {root : P} {u : Upstream P} {restart replay : Bool}

namespace Router

structure Same (r r' : Router W P) : Prop where
  root : r'.root = r.root
  front : r'.front = r.front
  subs : r'.subs = r.subs
  retired : r'.retired = r.retired
  selected : r'.selected = r.selected
  selections : r'.selections = r.selections
  guidance : r'.guidance = r.guidance
  guided : r'.guided = r.guided
  restarted : r'.restarted = r.restarted
  next : r'.nextUpstream = r.nextUpstream

theorem Same.refl (r : Router W P) : r.Same r := by constructor <;> rfl

variable {r r' r'' : Router W P}

theorem Same.trans (a : r.Same r') (b : r'.Same r'') : r.Same r'' :=
  ⟨b.root.trans a.root, b.front.trans a.front, b.subs.trans a.subs, b.retired.trans a.retired,
    b.selected.trans a.selected, b.selections.trans a.selections, b.guidance.trans a.guidance,
    b.guided.trans a.guided, b.restarted.trans a.restarted, b.next.trans a.next⟩

theorem Same.openUpstreams (a : r.Same r') : r'.openUpstreams = r.openUpstreams := by
  unfold Router.openUpstreams
  rw [a.front, a.subs, a.retired]

variable [DecidableEq P]

def Lost (r : Router W P) (p : P) : Prop :=
  if p = r.root then r.front.live? = none else ∃ slot ∈ r.subs, slot.root = p ∧ slot.live? = none

structure Opens (r r' : Router W P) (u : Upstream P) (replay restart : Bool) : Prop where
  root : r'.root = r.root
  selected : r'.selected = r.selected
  selections : r'.selections = r.selections
  guided : r'.guided = r.guided
  number : u.id = r.nextUpstream
  next : r'.nextUpstream = r.nextUpstream + 1
  adds : ∀ v ∈ r'.openUpstreams, v ∈ r.openUpstreams ∨ v = u
  placed : u ∈ r'.openUpstreams
  front : r'.front = if u.root = r.root then .live u else r.front
  restarted : r'.restarted = r.restarted ++ if restart then [u.id] else []
  guidance : ∀ p, (r.guidance p).isSome → (r'.guidance p).isSome
  instructed : replay = true → u.root ≠ r.root → (r'.guidance u.root).isSome

theorem Same.lost (a : r.Same r') {p : P} : r'.Lost p ↔ r.Lost p := by
  unfold Lost
  rw [a.root, a.front, a.subs]

theorem Same.opens (a : r.Same r') (b : r'.Opens r'' u replay restart) : r.Opens r'' u replay restart where
  root := b.root.trans a.root
  selected := b.selected.trans a.selected
  selections := b.selections.trans a.selections
  guided := b.guided.trans a.guided
  number := b.number.trans a.next
  next := by rw [b.next, a.next]
  adds v hv := a.openUpstreams ▸ b.adds v hv
  placed := b.placed
  front := by rw [b.front, a.root, a.front]
  restarted := by rw [b.restarted, a.restarted]
  guidance p hp := b.guidance p (by rwa [a.guidance])
  instructed hr hu := b.instructed hr (by rwa [a.root])

theorem Opens.same (a : r.Opens r' u replay restart) (b : r'.Same r'') : r.Opens r'' u replay restart where
  root := b.root.trans a.root
  selected := b.selected.trans a.selected
  selections := b.selections.trans a.selections
  guided := b.guided.trans a.guided
  number := a.number
  next := b.next.trans a.next
  adds v hv := a.adds v (b.openUpstreams ▸ hv)
  placed := b.openUpstreams ▸ a.placed
  front := b.front.trans a.front
  restarted := b.restarted.trans a.restarted
  guidance p hp := by
    rw [b.guidance]
    exact a.guidance p hp
  instructed hr hu := by
    rw [b.guidance]
    exact a.instructed hr hu

end Router

namespace Held

theorem markRestarted_router (h : Held W P) (restart : Bool) (id : Nat) : (h.markRestarted restart id).router =
    { h.router with restarted := h.router.restarted ++ if restart then [id] else [] } := by
  unfold markRestarted
  cases restart <;> simp

variable [DecidableEq P]

theorem install_opens (h : Held W P) (target : P) (restart : Bool) :
    (h.install target restart).2 = ⟨h.router.nextUpstream, target⟩ ∧
      h.router.Opens (h.install target restart).1.router ⟨h.router.nextUpstream, target⟩ false restart := by
  unfold install
  split
  next ht =>
    refine ⟨rfl, ?_⟩
    have hopen : ∀ v, v ∈ ((h.number true).placeFront ⟨h.router.nextUpstream, target⟩).router.openUpstreams ↔
        v = ⟨h.router.nextUpstream, target⟩ ∨ Slot.live v ∈ h.router.subs ∨ v ∈ h.router.retired := by
      intro v
      rw [Router.mem_openUpstreams]
      show Slot.live _ = .live v ∨ _ ↔ _
      rw [Slot.live.injEq, eq_comm]
      rfl
    rw [markRestarted_router]
    refine ⟨rfl, rfl, rfl, rfl, rfl, rfl, fun v hv => ?_, (hopen _).mpr (.inl rfl), (if_pos ht).symm, rfl,
      fun p hp => hp, nofun⟩
    rcases (hopen v).mp hv with hv | hv
    · exact .inr hv
    · exact .inl (Router.mem_openUpstreams.mpr (.inr hv))
  next ht =>
    refine ⟨rfl, ?_⟩
    have hm := moves_admitUpstream (h.number false) ⟨h.router.nextUpstream, target⟩
    have hf : ((h.number false).admitUpstream ⟨h.router.nextUpstream, target⟩).router = _ := congrArg Held.router hm.frame
    have hadds := fun v hv => (hm.adds v hv).imp_right List.mem_singleton.mp
    have hplaced := hm.placed _ (List.mem_singleton.mpr rfl)
    rw [hf] at hadds hplaced
    rw [markRestarted_router, hf]
    exact ⟨rfl, rfl, rfl, rfl, rfl, rfl, hadds, hplaced, (if_neg ht).symm, rfl, fun p hp => hp, nofun⟩

omit [DecidableEq P] in
theorem handshake_same (env : Surroundings root) (h : Held W P) (target : P) :
    h.router.Same (h.handshake env target).1.router := by
  unfold handshake
  split
  next => exact .refl _
  next => constructor <;> rfl

theorem recordGuidance_opens (h : Held W P) {text : String} {r' : Router W P}
    (ho : (h.recordGuidance u.root text).router.Opens r' u false restart) (replay : Bool) :
    h.router.Opens r' u replay restart := by
  unfold recordGuidance at ho
  split at ho
  next ht =>
    exact { ho with instructed := fun _ hu => absurd ht hu }
  next ht =>
    refine { ho with guidance := fun p hp => ho.guidance p ?_, instructed := fun _ _ => ho.guidance u.root ?_ }
    · dsimp only
      split
      next => rfl
      next => exact hp
    · dsimp only
      rw [if_pos rfl]
      rfl

/-- A connect opens one connection to the slot's project, or leaves the router as it was. -/
theorem connect_opens (env : Surroundings root) (h : Held W P) (which : Which P) (replay restart : Bool) :
    (∀ u, (h.connect env which replay restart).2 = .ok u → u.root = h.router.rootOf which ∧
      h.router.Opens (h.connect env which replay restart).1.router u replay restart) ∧
    ∀ error, (h.connect env which replay restart).2 = .error error →
      h.router.Same (h.connect env which replay restart).1.router := by
  unfold connect
  dsimp only
  split
  next => exact ⟨by simp, fun _ _ => .refl _⟩
  next =>
    split
    next hreplay =>
      have hs := handshake_same env h (h.router.rootOf which)
      split
      next shaken error he =>
        rw [he] at hs
        exact ⟨by simp, fun _ _ => hs⟩
      next shaken text he =>
        rw [he] at hs
        refine ⟨?_, by simp⟩
        intro u hu
        obtain ⟨hid, ho⟩ := install_opens (shaken.recordGuidance (h.router.rootOf which) text)
          (h.router.rootOf which) restart
        have hu : (install (shaken.recordGuidance (h.router.rootOf which) text) (h.router.rootOf which) restart).2 = u :=
          Except.ok.inj hu
        rw [hid] at hu
        subst hu
        exact ⟨rfl, hs.opens (recordGuidance_opens shaken ho replay)⟩
    next hreplay =>
      refine ⟨?_, by simp⟩
      intro u hu
      obtain ⟨hid, ho⟩ := install_opens h (h.router.rootOf which) restart
      have hu : (h.install (h.router.rootOf which) restart).2 = u := Except.ok.inj hu
      rw [hid] at hu
      subst hu
      have hfalse : replay = false := by simpa using hreplay
      exact ⟨rfl, hfalse ▸ ho⟩

/-- Routing opens at most one connection. One in place of a lost one is marked, and only the selection's may lack
instructions. -/
def Leads (h h' : Held W P) : Prop :=
  h.router.Same h'.router ∨ ∃ u replay restart, h.router.Opens h'.router u replay restart ∧
    (h.router.Lost u.root → restart = true) ∧
    (replay = false → u.root = h.router.root ∨ h.router.selected = some u.root)

theorem Leads.refl (h : Held W P) : Leads h h := .inl (.refl _)

variable {h h' g : Held W P}

theorem Leads.after (a : h.router.Same g.router) (b : Leads g h') : Leads h h' := by
  rcases b with b | ⟨u, replay, restart, ho, hlost, hreplay⟩
  · exact .inl (a.trans b)
  · refine .inr ⟨u, replay, restart, a.opens ho, fun hl => hlost (a.lost.mpr hl), fun hr => ?_⟩
    rw [← a.root, ← a.selected]
    exact hreplay hr

theorem Leads.before (a : Leads h h') (b : h'.router.Same g.router) : Leads h g := by
  rcases a with a | ⟨u, replay, restart, ho, hlost, hreplay⟩
  · exact .inl (a.trans b)
  · exact .inr ⟨u, replay, restart, ho.same b, hlost, hreplay⟩

structure Rooted (root : P) (r : Router W P) : Prop where
  root_eq : r.root = root
  front : r.front.root = root
  selected_ne : r.selected ≠ some root

variable {r : Router W P} {which : Which P}

theorem slot_root (hr : Rooted root r) {slot : Slot P} (hs : r.slot which = some slot) :
    slot.root = r.rootOf which := by
  have hfront : r.front.root = r.root := hr.front.trans hr.root_eq.symm
  have hsub : ∀ p, r.subs.find? p = some slot → slot.root = p := fun p hp => (KeyedTable.find?_eq_some_iff.mp hp).2
  unfold Router.slot at hs
  unfold Router.rootOf
  cases which with
  | front => exact some.inj hs ▸ hfront
  | project p => exact hsub p hs
  | current =>
    cases hsel : r.selected with
    | none =>
      rw [hsel] at hs
      exact some.inj hs ▸ hfront
    | some p =>
      rw [hsel] at hs
      exact hsub p hs

theorem lost_slot (hr : Rooted root r) (hp : ∀ p, which = .project p → p ≠ root)
    (hl : r.Lost (r.rootOf which)) : (r.slot which).isSome := by
  have hsub : ∀ p, p ≠ root → r.Lost p → (r.subs.find? p).isSome := by
    intro p hne hl
    unfold Router.Lost at hl
    rw [hr.root_eq, if_neg hne] at hl
    obtain ⟨slot, hs, hk, _⟩ := hl
    exact isSome_iff_exists.mpr ⟨slot, KeyedTable.find?_eq_some_iff.mpr ⟨hs, hk⟩⟩
  unfold Router.slot
  unfold Router.rootOf at hl
  cases which with
  | front => rfl
  | project p => exact hsub p (hp p rfl) hl
  | current =>
    cases hsel : r.selected with
    | none => rfl
    | some p =>
      rw [hsel] at hl
      exact hsub p (fun he => hr.selected_ne (he ▸ hsel)) hl

/-- A frame for a slot goes to an upstream of the slot's project. -/
theorem reach_routes (env : Surroundings root) (h : Held W P) (which : Which P) (replay : Bool)
    (request : Option (W × String)) (hr : Rooted root h.router) (hp : ∀ p, which = .project p → p ≠ root)
    (hreplay : replay = false → which = .current) :
    (∀ u, (h.reach env which replay request).2 = some u → u.root = h.router.rootOf which ∧
      u ∈ (h.reach env which replay request).1.router.openUpstreams) ∧
      Leads h (h.reach env which replay request).1 := by
  unfold reach
  split
  next u hu =>
    obtain ⟨slot, hs, hl⟩ := bind_eq_some_iff.mp hu
    have hsame : h.router.Same (h.router.touch u.root) := by
      rw [touch_eq]
      constructor <;> rfl
    constructor
    · intro v hv
      cases hv
      refine ⟨?_, hsame.openUpstreams ▸ Router.liveSlot_mem hu⟩
      cases slot with
      | lost p => cases hl
      | live w =>
        cases hl
        exact slot_root hr hs
    · exact .inl hsame
  next =>
    split
    next => exact ⟨nofun, .refl h⟩
    next id method =>
      have hc := connect_opens env h which replay (h.router.slot which).isSome
      split
      next connected u he =>
        rw [he] at hc
        obtain ⟨hroot, ho⟩ := hc.1 u rfl
        refine ⟨fun v hv => some.inj hv ▸ ⟨hroot, ho.placed⟩, .inr ⟨u, replay, _, ho, ?_, fun hf => ?_⟩⟩
        · rw [hroot]
          exact lost_slot hr hp
        · rw [hroot, hreplay hf]
          unfold Router.rootOf
          cases h.router.selected with
          | none => exact .inl rfl
          | some p => exact .inr rfl
      next failed error he =>
        rw [he] at hc
        exact ⟨nofun, .inl (hc.2 error rfl)⟩

theorem reachForToolsList_leads (env : Surroundings root) (h : Held W P) (request : Option (W × String)) :
    Leads h (h.reachForToolsList env request).1 := by
  unfold reachForToolsList
  split
  next => exact .refl h
  next =>
    have hc := connect_opens env h .front true true
    split
    next connected u he =>
      rw [he] at hc
      exact .inr ⟨u, true, true, (hc.1 u rfl).2, fun _ => rfl, nofun⟩
    next failed error he =>
      rw [he] at hc
      have hfailed := hc.2 error rfl
      split
      next => exact .inl hfailed
      next =>
        cases request <;> exact .inl hfailed

omit [DecidableEq P] in
theorem refuse_same (h : Held W P) (request : Option (W × String)) (why : Why P) :
    h.router.Same (h.refuse request why).1.router := by
  unfold refuse
  split <;> exact .refl _

omit [DecidableEq P] in
theorem route_same (env : Surroundings root) (h : Held W P) (project : Option String) :
    h.router.Same (h.route env project).1.router := by
  unfold route
  split
  next => exact .refl _
  next =>
    dsimp only
    split
    next => split <;> constructor <;> rfl
    next => split <;> constructor <;> rfl

omit [DecidableEq P] in
theorem Rooted.same {r' : Router W P} (h : Rooted root r) (a : r.Same r') : Rooted root r' :=
  ⟨a.root.trans h.root_eq, by rw [a.front, h.front], by rw [a.selected]; exact h.selected_ne⟩

variable [DecidableEq W]

theorem cancel_same (h : Held W P) (id : Option W) : h.router.Same (h.cancel id).1.router := by
  unfold cancel
  split
  next => constructor <;> rfl
  next => exact .refl _

omit [DecidableEq P] in
theorem record_same (h : Held W P) (target : Option (Upstream P)) (request : Option (W × String)) :
    h.router.Same (h.record target request).router := by
  unfold record
  split
  next => constructor <;> rfl
  next => exact .refl _

/-- Every frame of the client opens at most one connection. -/
theorem chooseTarget_leads (env : Surroundings root) (h : Held W P) (frame : Option (ClientMessage W))
    (kind : ClientFrame W) (request : Option (W × String)) (hr : Rooted root h.router) :
    Leads h (h.chooseTarget env frame kind request).1 := by
  have hsame : ∀ g : Held W P, h.router.Same g.router → ∀ replay, Leads h (g.reach env .current replay request).1 := by
    intro g hs replay
    exact (reach_routes env g .current replay request (hr.same hs) nofun (fun _ => rfl)).2.after hs
  unfold chooseTarget
  cases kind with
  | initRequest =>
    exact hsame { h with router := { h.router with initFrame := frame } } (by constructor <;> rfl) false
  | initialized =>
    exact hsame { h with router := { h.router with initializedFrame := frame } } (by constructor <;> rfl) true
  | selectProject id =>
    have hl := (reach_routes env h .front true request hr nofun nofun).2
    dsimp only
    split
    next => exact hl.before (by constructor <;> rfl)
    next => exact hl
  | toolsList => exact reachForToolsList_leads env h request
  | cancelled id => exact .inl (cancel_same h id)
  | other => exact hsame h (.refl _) true
  | call project =>
    cases project with
    | none =>
      dsimp only
      split
      next => exact .inl (refuse_same h request _)
      next => exact hsame h (.refl _) true
    | some project =>
      have hs := route_same env h project
      have hg := (route_grows env h project).2.2.1
      dsimp only
      split
      next routed which he =>
        rw [he] at hs hg
        exact (reach_routes env routed which true request (hr.same hs) (hg which rfl) nofun).2.after hs
      next routed why he =>
        rw [he] at hs
        exact .inl (hs.trans (refuse_same routed request why))

omit [DecidableEq P] in
theorem answered_same {answered : Held W P} {kind : ClientFrame W} {request : Option (W × String)}
    (ha : h.answeredBeforeSession kind request = some answered) : h.router.Same answered.router := by
  unfold answeredBeforeSession at ha
  split at ha
  next => cases ha
  next =>
    split at ha
    next =>
      split at ha
      next => exact some.inj ha ▸ Router.Same.refl _
      next =>
        split at ha
        next => cases ha
        next => exact some.inj ha ▸ Router.Same.refl _
    next =>
      split at ha
      next => cases ha
      next => exact some.inj ha ▸ Router.Same.refl _

theorem onClientFrame_leads (env : Surroundings root) (h : Held W P) (frame : Option (ClientMessage W))
    (hr : Rooted root h.router) : Leads h (h.onClientFrame env frame).1 := by
  unfold onClientFrame
  dsimp only
  split
  next answered ha => exact .inl (answered_same ha)
  next => exact (chooseTarget_leads env h frame _ _ hr).before (record_same _ _ _)

end Held

end GMesh
