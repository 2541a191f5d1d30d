import Mathlib.Data.List.Find
import GMesh.FileDiff
import GMesh.LinkOutcome
import GMesh.PluginRows

namespace GMesh

open KeyedTable EdgeRow List Option

variable {ids : ContainerIds} {s : Store} {L : Ledger}

theorem find?_filter_of_forall {α : Type} {keep q : α → Bool} {l : List α} (h : ∀ a ∈ l, q a → keep a) :
    (l.filter keep).find? q = l.find? q := by
  rw [List.find?_filter]
  refine List.find?_congr fun a ha => ?_
  cases hq : q a with
  | false => simp
  | true => simp [h a ha hq]

def Ledger.drop (L : Ledger) (x : String) : Ledger := { L with node := fun id => if id = x then none else L.node id }

theorem Ledger.drop_memberOf {x : String} (hm : L.memberOf x = none) (id : String) :
    (L.drop x).memberOf id = L.memberOf id := by
  unfold memberOf drop
  by_cases hid : id = x
  · subst hid
    simpa [memberOf] using hm.symm
  · simp [hid]

theorem Shows.drop (h : Shows ids s L) {x : String} (hx : ∀ k, x ≠ ids.containerId k) (hm : L.memberOf x = none) :
    Shows ids (s.deleteNode x) (L.drop x) := by
  have hmem := Ledger.drop_memberOf hm
  have hocc : ∀ k, (L.drop x).Occupied k ↔ L.Occupied k := fun k => exists_congr fun i => by rw [hmem]
  have hnode : ∀ k, (s.deleteNode x).nodes.find? (ids.containerId k) = s.nodes.find? (ids.containerId k) := by
    intro k
    show (s.nodes.erase x).find? _ = _
    rw [find?_erase, if_neg (hx k).symm]
  refine ⟨?_, ?_, ?_, ?_, ?_, ?_, ?_, h.row_plain⟩
  · intro id hid
    show (s.nodes.erase x).find? id = if id = x then none else L.node id
    rw [find?_erase, h.plain id hid]
  · intro k
    show (if ids.containerId k = x then none else L.node (ids.containerId k)) = none
    rw [if_neg (hx k).symm, h.unnamed k]
  · exact h.edges.congr fun k i => by rw [hmem]
  · intro k hk
    rw [hnode, h.node_some k ((hocc k).mp hk)]
  · intro k hk
    rw [hnode, h.node_none k ((hocc k).not.mp hk)]
  · exact fun k hk => h.row_some k ((hocc k).mp hk)
  · exact fun k hk => h.row_none k ((hocc k).not.mp hk)

namespace EdgeRow

variable (placeholder target : String) (e : EdgeRow)

theorem importOnto_fromId : (e.importOnto placeholder target).fromId = e.fromId := by
  unfold importOnto
  split <;> rfl

theorem importOnto_kind : (e.importOnto placeholder target).kind = e.kind := by
  unfold importOnto
  split <;> rfl

theorem importOnto_linkedFrom : (e.importOnto placeholder target).linkedFrom = e.linkedFrom := by
  unfold importOnto
  split <;> rfl

end EdgeRow

namespace Store

def importMove (s : Store) (e : EdgeRow) (p : ImportPlaceholder) : EdgeRow :=
  match s.importTarget p with
  | some target => e.importOnto p.id target
  | none => e

def landed (s : Store) (ps : List ImportPlaceholder) (e : EdgeRow) : EdgeRow := ps.foldl s.importMove e

theorem linkImport_containers (s : Store) (p : ImportPlaceholder) : (s.linkImport p).containers = s.containers := by
  unfold linkImport
  split
  next => rfl
  next =>
    dsimp only
    split <;> rfl

theorem linkImport_edge (s : Store) (p : ImportPlaceholder) (x : String) :
    (s.linkImport p).edges.find? x = (s.edges.find? x).map (fun e => s.importMove e p) := by
  unfold linkImport importMove
  cases s.importTarget p with
  | none => exact map_id'.symm
  | some target =>
    have he : (s.repointImports p.id target).edges.find? x = (s.edges.find? x).map (importOnto p.id target) :=
      find?_update s.edges _ (importOnto_id p.id target) x
    dsimp only
    split
    next => exact he
    next => exact he

theorem linkImport_rows (s : Store) (p : ImportPlaceholder) :
    ((s.linkImport p).nodes = s.nodes ∧ (s.linkImport p).targets = s.targets) ∨
      ((s.linkImport p).nodes = s.nodes.erase p.id ∧ (s.linkImport p).targets = s.targets.erase p.id ∧
        (s.linkImport p).incident p.id = false) := by
  unfold linkImport
  split
  next => exact .inl ⟨rfl, rfl⟩
  next =>
    dsimp only
    split
    next => exact .inl ⟨rfl, rfl⟩
    next hi => exact .inr ⟨rfl, rfl, Bool.eq_false_iff.mpr hi⟩

def ResolvesModules (s : Store) (ps : List ImportPlaceholder) : Prop :=
  ∀ p ∈ ps, ∀ n, s.nodes.find? p.id = some n → isResolvedModule n = true

variable {p : ImportPlaceholder} {x : String}

theorem linkImport_node_of_some {n : NodeRow} (h : (s.linkImport p).nodes.find? x = some n) :
    s.nodes.find? x = some n ∧ (s.linkImport p).targets.find? x = s.targets.find? x := by
  rcases s.linkImport_rows p with ⟨hn, ht⟩ | ⟨hn, ht, _⟩
  · rw [ht]
    exact ⟨hn ▸ h, rfl⟩
  · rw [hn, find?_erase] at h
    rw [ht, find?_erase]
    split at h
    next => cases h
    next hx => exact ⟨h, by rw [if_neg hx]⟩

theorem linkImport_node_other (hx : x ≠ p.id) : (s.linkImport p).nodes.find? x = s.nodes.find? x := by
  rcases s.linkImport_rows p with ⟨hn, _⟩ | ⟨hn, _, _⟩
  · rw [hn]
  · rw [hn, find?_erase, if_neg hx]

section

variable (hp : ∀ n, s.nodes.find? p.id = some n → isResolvedModule n)

include hp

theorem linkImport_findFile (path : String) : (s.linkImport p).findFile path = s.findFile path := by
  unfold findFile
  rcases s.linkImport_rows p with ⟨hn, _⟩ | ⟨hn, _, _⟩
  · rw [hn]
  · rw [hn]
    show Option.map _ ((s.nodes.rows.filter _).find? _) = _
    rw [find?_filter_of_forall]
    intro n hmem hfile
    have hk := (of_decide_eq_true hfile).1
    refine decide_eq_true fun hid => ?_
    have hr := of_decide_eq_true (hp n (hid ▸ find?_key hmem))
    exact absurd (hk.symm.trans hr.1) (by decide)

theorem linkImport_importTarget (q : ImportPlaceholder) : (s.linkImport p).importTarget q = s.importTarget q := by
  unfold importTarget
  split
  next =>
    unfold findContainer
    rw [linkImport_containers]
  next => exact linkImport_findFile hp _

end

variable {e : EdgeRow}

section Linked

variable {ps : List ImportPlaceholder}

theorem ResolvesModules.tail {p : ImportPlaceholder} (h : s.ResolvesModules (p :: ps)) :
    (s.linkImport p).ResolvesModules ps :=
  fun q hq n hn => h q (mem_cons_of_mem _ hq) n (linkImport_node_of_some hn).1

theorem linkImports_importTarget (h : s.ResolvesModules ps) (q : ImportPlaceholder) :
    (s.linkImports ps).importTarget q = s.importTarget q := by
  induction ps generalizing s with
  | nil => rfl
  | cons p _ ih => exact (ih h.tail).trans (linkImport_importTarget (h p mem_cons_self) q)

theorem linkImports_edge (h : s.ResolvesModules ps) (x : String) :
    (s.linkImports ps).edges.find? x = (s.edges.find? x).map (s.landed ps) := by
  induction ps generalizing s with
  | nil => exact map_id'.symm
  | cons p ps ih =>
    have hstep : (s.linkImport p).landed ps = s.landed ps := by
      unfold landed
      funext e
      congr 1
      funext e q
      unfold importMove
      rw [linkImport_importTarget (h p mem_cons_self)]
    show ((s.linkImport p).linkImports ps).edges.find? x = _
    rw [ih h.tail, hstep, linkImport_edge, Option.map_map]
    rfl

theorem linkImports_node_of_some {x : String} {n : NodeRow} (hn : (s.linkImports ps).nodes.find? x = some n) :
    s.nodes.find? x = some n ∧ (s.linkImports ps).targets.find? x = s.targets.find? x := by
  induction ps generalizing s with
  | nil => exact ⟨hn, rfl⟩
  | cons _ _ ih =>
    obtain ⟨h1, h2⟩ := ih hn
    obtain ⟨h3, h4⟩ := linkImport_node_of_some h1
    exact ⟨h3, h2.trans h4⟩

theorem linkImports_node_other {x : String} (hx : ∀ p ∈ ps, x ≠ p.id) :
    (s.linkImports ps).nodes.find? x = s.nodes.find? x := by
  induction ps generalizing s with
  | nil => rfl
  | cons p _ ih =>
    exact (ih fun q hq => hx q (mem_cons_of_mem _ hq)).trans (linkImport_node_other (hx p mem_cons_self))

theorem landed_eq_of_forall (h : e.kind = .imports → ∀ p ∈ ps, e.toId = p.id → s.importTarget p = none) :
    s.landed ps e = e := by
  apply List.foldlRecOn (motive := fun r : EdgeRow => r = e)
  · rfl
  · rintro r rfl p hp
    unfold importMove
    split
    next target ht =>
      unfold importOnto
      rw [if_neg]
      rintro ⟨hto, hk⟩
      rw [h hk p hp hto] at ht
      cases ht
    next => rfl

/-- An import of a placeholder with a target lands on the target. -/
theorem landed_of_target (hn : (ps.map ImportPlaceholder.id).Nodup) {p : ImportPlaceholder} (hp : p ∈ ps)
    {target : String} (ht : s.importTarget p = some target) (hfree : ∀ q ∈ ps, target ≠ q.id)
    (hk : e.kind = .imports) (hto : e.toId = p.id) : s.landed ps e = { e with toId := target, resolved := true } := by
  induction ps with
  | nil => simp at hp
  | cons q ps ih =>
    obtain ⟨hq, hn⟩ := nodup_cons.mp hn
    have hfree' : ∀ r ∈ ps, target ≠ r.id := (forall_mem_cons.mp hfree).2
    show s.landed ps (s.importMove e q) = _
    rcases mem_cons.mp hp with rfl | hp
    · have hmove : s.importMove e p = { e with toId := target, resolved := true } := by
        unfold importMove importOnto
        rw [ht]
        exact if_pos ⟨hto, hk⟩
      rw [hmove]
      exact landed_eq_of_forall fun _ r hr hrid => absurd hrid (hfree' r hr)
    · have hne : e.toId ≠ q.id := fun he => hq (mem_map.mpr ⟨p, hp, hto.symm.trans he⟩)
      have hmove : s.importMove e q = e := by
        unfold importMove importOnto
        split
        next => rw [if_neg fun hc => hne hc.1]
        next => rfl
      rw [hmove]
      exact ih hn hp hfree'

end Linked

/-- Of an edge only its end moves, onto what some placeholder names. -/
structure Moved (s : Store) (ps : List ImportPlaceholder) (e r : EdgeRow) : Prop where
  id : r.id = e.id
  fromId : r.fromId = e.fromId
  kind : r.kind = e.kind
  linkedFrom : r.linkedFrom = e.linkedFrom
  toId : r.toId = e.toId ∨ ∃ p ∈ ps, s.importTarget p = some r.toId

theorem landed_moved (s : Store) (ps : List ImportPlaceholder) (e : EdgeRow) : Moved s ps e (s.landed ps e) := by
  apply List.foldlRecOn (motive := Moved s ps e)
  · exact ⟨rfl, rfl, rfl, rfl, .inl rfl⟩
  · intro r hr p hp
    unfold importMove
    split
    next target ht =>
      refine ⟨?_, ?_, ?_, ?_, ?_⟩
      · rw [importOnto_id, hr.id]
      · rw [importOnto_fromId, hr.fromId]
      · rw [importOnto_kind, hr.kind]
      · rw [importOnto_linkedFrom, hr.linkedFrom]
      · unfold importOnto
        split
        next => exact .inr ⟨p, hp, ht⟩
        next => exact hr.toId
    next => exact hr

theorem incident_eq_true_iff : s.incident x ↔ ∃ e ∈ s.edges, e.fromId = x ∨ e.toId = x := by
  unfold incident
  rw [List.any_eq_true]
  simp only [decide_eq_true_eq]
  rfl

theorem linkImport_incident (hx : s.importTarget p ≠ some x) (h : (s.linkImport p).incident x) : s.incident x := by
  obtain ⟨r, hr, hend⟩ := incident_eq_true_iff.mp h
  have hf := find?_key hr
  rw [linkImport_edge] at hf
  obtain ⟨e, he, rfl⟩ := map_eq_some_iff.mp hf
  refine incident_eq_true_iff.mpr ⟨e, (find?_eq_some_iff.mp he).1, ?_⟩
  unfold importMove at hend
  split at hend
  next target ht =>
    unfold importOnto at hend
    split at hend
    next => exact hend.imp_right fun h => absurd (h ▸ ht) hx
    next => exact hend
  next => exact hend

variable {ps : List ImportPlaceholder}

theorem linkImports_incident (hr : s.ResolvesModules ps) (hx : ∀ p ∈ ps, s.importTarget p ≠ some x)
    (h : (s.linkImports ps).incident x) : s.incident x := by
  induction ps generalizing s with
  | nil => exact h
  | cons p _ ih =>
    refine linkImport_incident (hx p mem_cons_self) (ih hr.tail ?_ h)
    intro q hq
    rw [linkImport_importTarget (hr p mem_cons_self)]
    exact hx q (mem_cons_of_mem _ hq)

theorem linkImports_node_touched (hr : s.ResolvesModules ps) (hx : ∀ p ∈ ps, s.importTarget p ≠ some x)
    (hi : (s.linkImports ps).incident x) : (s.linkImports ps).nodes.find? x = s.nodes.find? x := by
  induction ps generalizing s with
  | nil => rfl
  | cons p ps ih =>
    have hx' : ∀ q ∈ ps, (s.linkImport p).importTarget q ≠ some x := by
      intro q hq
      rw [linkImport_importTarget (hr p mem_cons_self)]
      exact hx q (mem_cons_of_mem _ hq)
    refine (ih hr.tail hx' hi).trans ?_
    rcases s.linkImport_rows p with ⟨hn, _⟩ | ⟨hn, _, hgone⟩
    · rw [hn]
    · rw [hn, find?_erase, if_neg]
      rintro rfl
      rw [linkImports_incident hr.tail hx' hi] at hgone
      cases hgone

/-- Linking imports leaves every container with or without members, as it was. -/
theorem linkImports_shows (h : Shows ids s L) (hr : s.ResolvesModules ps)
    (hc : ∀ p ∈ ps, ∀ k, p.id ≠ ids.containerId k) :
    ∃ L', Shows ids (s.linkImports ps) L' ∧ ∀ k, L'.Occupied k ↔ L.Occupied k := by
  induction ps generalizing s L with
  | nil => exact ⟨L, h, fun _ => .rfl⟩
  | cons p _ ih =>
    have hp := hc p mem_cons_self
    have hm : L.memberOf p.id = none := by
      rw [← h.memberOf]
      unfold memberOf
      cases hn : s.nodes.find? p.id with
      | none => rfl
      | some n =>
        have hnk := (of_decide_eq_true (hr p mem_cons_self n hn)).2
        show n.membership = none
        unfold NodeRow.membership membership
        rw [hnk]
        cases n.container with
        | none => rfl
        | some key => simp [nonDeclarationNativeKinds, resolvedModuleNativeKind]
    have hfirst : ∃ L', Shows ids (s.linkImport p) L' ∧ ∀ k, L'.Occupied k ↔ L.Occupied k := by
      unfold linkImport
      split
      next => exact ⟨L, h, fun _ => .rfl⟩
      next target _ =>
        have hedges : Shows ids (s.repointImports p.id target) L :=
          h.of_edges rfl rfl (h.edges.update (importOnto_id p.id target)
            (importOnto_fromId p.id target) (importOnto_kind p.id target)
            (fun _ _ => if_neg fun he => EdgeKind.noConfusion he.2))
        dsimp only
        split
        next => exact ⟨L, hedges, fun _ => .rfl⟩
        next =>
          refine ⟨L.drop p.id, hedges.drop hp hm, fun k => exists_congr fun i => ?_⟩
          rw [Ledger.drop_memberOf hm]
    obtain ⟨L1, h1, ho1⟩ := hfirst
    obtain ⟨L2, h2, ho2⟩ := ih h1 hr.tail fun q hq => hc q (mem_cons_of_mem _ hq)
    exact ⟨L2, h2, fun k => (ho2 k).trans (ho1 k)⟩

def settled (s : Store) (rules : LinkRules) (ps : List Placeholder) (e : EdgeRow) : EdgeRow :=
  ps.foldl (fun e p => Index.settle { store := s, rules } p e) e

theorem settle_fromId {ix : Index} {p : Placeholder} (e : EdgeRow) : (ix.settle p e).fromId = e.fromId := by
  unfold Index.settle
  split
  next => rfl
  next =>
    unfold Index.moved
    split
    next =>
      unfold repoint
      split <;> rfl
    next =>
      unfold unlink
      split <;> rfl

theorem settle_unlinkable {ix : Index} {p : Placeholder} (h : linkableEdgeKinds e.kind = none) : ix.settle p e = e := by
  have hk : e.kind ≠ .calls := by
    intro hc
    rw [hc] at h
    cases h
  have hr : requiredTargetKind e.kind (admitsUnseen e.kind e.source p.key) = none := by
    unfold requiredTargetKind
    rw [if_neg fun hc => hk hc.2, h]
  unfold Index.settle
  rw [hr]

theorem settled_frame (s : Store) (rules : LinkRules) (ps : List Placeholder) (e : EdgeRow) :
    (s.settled rules ps e).id = e.id ∧ (s.settled rules ps e).fromId = e.fromId ∧
      (s.settled rules ps e).kind = e.kind := by
  apply List.foldlRecOn (motive := fun r : EdgeRow => r.id = e.id ∧ r.fromId = e.fromId ∧ r.kind = e.kind)
  · exact ⟨rfl, rfl, rfl⟩
  · rintro r ⟨hid, hf, hk⟩ p _
    exact ⟨(Index.settle_id r).trans hid, (settle_fromId r).trans hf,
      (congrArg Prod.fst (Index.settle_group r)).trans hk⟩

theorem settled_unlinkable (s : Store) (rules : LinkRules) (ps : List Placeholder)
    (h : linkableEdgeKinds e.kind = none) : s.settled rules ps e = e := by
  apply List.foldlRecOn (motive := fun r : EdgeRow => r = e)
  · rfl
  · rintro r rfl p _
    exact settle_unlinkable h

theorem link_edge (s : Store) (rules : LinkRules) (ps : List Placeholder) (x : String) :
    (s.link rules ps).1.edges.find? x = (s.edges.find? x).map (s.settled rules ps) :=
  link_find? s rules ps x

/-- Linking symbols leaves the containers as they were. -/
theorem link_shows (h : Shows ids s L) (rules : LinkRules) (ps : List Placeholder) :
    Shows ids (s.link rules ps).1 L := by
  refine h.of_edges rfl rfl ?_
  have hmem : ∀ {r : EdgeRow}, r ∈ (s.link rules ps).1.edges → ∃ e ∈ s.edges, s.settled rules ps e = r := by
    intro r hr
    have hf := find?_key hr
    rw [link_edge] at hf
    obtain ⟨e, he, hs⟩ := map_eq_some_iff.mp hf
    exact ⟨e, (find?_eq_some_iff.mp he).1, hs⟩
  have hfix : ∀ k i, s.settled rules ps (definesEdge ids k i) = definesEdge ids k i :=
    fun k i => settled_unlinkable s rules ps rfl
  refine ⟨?_, ?_, ?_⟩
  · intro k i
    rw [← h.edges.mem_iff, mem_iff_find?, mem_iff_find?, link_edge]
    constructor
    · intro hf
      obtain ⟨e, he, hs⟩ := map_eq_some_iff.mp hf
      obtain ⟨hem, hid⟩ := find?_eq_some_iff.mp he
      rw [he, h.edges.reserved e hem k i hid]
    · intro hf
      rw [hf, map_some, hfix]
  · intro r hr k hf hk
    obtain ⟨e, he, rfl⟩ := hmem hr
    obtain ⟨_, hfrom, hkind⟩ := s.settled_frame rules ps e
    obtain ⟨i, rfl⟩ := h.edges.shape e he k (hfrom.symm.trans hf) (hkind.symm.trans hk)
    exact ⟨i, hfix k i⟩
  · intro r hr k i hid
    obtain ⟨e, he, rfl⟩ := hmem hr
    have he' := h.edges.reserved e he k i ((s.settled_frame rules ps e).1.symm.trans hid)
    rw [he', hfix]

end Store

end GMesh
