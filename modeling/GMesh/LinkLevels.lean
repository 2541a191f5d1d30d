import GMesh.LinkHops

namespace GMesh

open List

theorem eq_singleton_of_nodup {l : List α} {a : α} (hn : l.Nodup) (ha : a ∈ l) (hall : ∀ b ∈ l, b = a) : l = [a] := by
  have hl := eq_replicate_of_mem hall
  rw [hl] at hn ha ⊢
  have hlen := nodup_replicate.mp hn
  have hne := (mem_replicate.mp ha).1
  rw [show l.length = 1 by omega]
  rfl

namespace Position

theorem after_iff {a b : Position} : a.after b ↔ b.2.1 < a.2.1 ∨ (b.2.1 = a.2.1 ∧ b.2.2 < a.2.2) := by
  simp [Position.after]

theorem after_irrefl (a : Position) : a.after a = false := by
  rw [Bool.eq_false_iff]
  intro h
  have h' := after_iff.mp h
  omega

theorem eq_of_not_after {a b : Position} (hab : a.after b = false) (hba : b.after a = false) : a.2 = b.2 := by
  rw [Bool.eq_false_iff, ne_eq, after_iff] at hab hba
  exact Prod.ext (by omega) (by omega)

end Position

variable {hops : List Hop}

namespace Hop

instance notAfter_total : Std.Total (fun a b : Hop => b.position.after a.position = false) := by
  constructor
  intro a b
  rw [Bool.eq_false_iff, Bool.eq_false_iff, ne_eq, ne_eq, Position.after_iff, Position.after_iff]
  omega

instance notAfter_trans : IsTrans Hop (fun a b : Hop => b.position.after a.position = false) := by
  constructor
  intro a b c hab hbc
  rw [Bool.eq_false_iff, ne_eq, Position.after_iff] at hab hbc ⊢
  omega

theorem mem_latestFirst {hop : Hop} : hop ∈ latestFirst hops ↔ hop ∈ hops := by
  unfold latestFirst
  rw [mem_insertionSort]

theorem find?_latestFirst {binds : Hop → Bool} {hop : Hop}
    (hapart : ∀ h ∈ hops, ∀ h' ∈ hops, h.position.2 = h'.position.2 → h = h') :
    (latestFirst hops).find? binds = some hop ↔ hop ∈ hops ∧ binds hop ∧
      ∀ h ∈ hops, h.position.after hop.position → binds h = false := by
  have hsorted : (latestFirst hops).Pairwise (fun a b => b.position.after a.position = false) :=
    pairwise_insertionSort _ hops
  constructor
  · intro hf
    obtain ⟨hb, as, bs, hl, has⟩ := find?_eq_some_iff_append.mp hf
    have hmem : hop ∈ hops := mem_latestFirst.mp (mem_of_find?_eq_some hf)
    refine ⟨hmem, hb, fun h hh hafter => ?_⟩
    have hin : h ∈ as ++ hop :: bs := hl ▸ mem_latestFirst.mpr hh
    rcases mem_append.mp hin with hin | hin
    · simpa using has h hin
    · rcases mem_cons.mp hin with rfl | hin
      · rw [Position.after_irrefl] at hafter
        cases hafter
      · rw [hl] at hsorted
        have hrel := (pairwise_cons.mp (pairwise_append.mp hsorted).2.1).1 h hin
        rw [hafter] at hrel
        cases hrel
  · rintro ⟨hmem, hb, hlast⟩
    cases hf : (latestFirst hops).find? binds with
    | none => exact absurd hb (find?_eq_none.mp hf hop (mem_latestFirst.mpr hmem))
    | some g =>
      obtain ⟨hg, as, bs, hl, has⟩ := find?_eq_some_iff_append.mp hf
      have hgm : g ∈ hops := mem_latestFirst.mp (mem_of_find?_eq_some hf)
      have hin : hop ∈ as ++ g :: bs := hl ▸ mem_latestFirst.mpr hmem
      congr 1
      rcases mem_append.mp hin with hin | hin
      · have hn := has hop hin
        rw [hb] at hn
        cases hn
      · rcases mem_cons.mp hin with he | hin
        · exact he.symm
        · rw [hl] at hsorted
          have hrel := (pairwise_cons.mp (pairwise_append.mp hsorted).2.1).1 hop hin
          cases hgh : g.position.after hop.position with
          | true =>
            rw [hlast g hgm hgh] at hg
            cases hg
          | false => exact hapart g hgm hop hmem (Position.eq_of_not_after hgh hrel)

end Hop

variable {candidates : List Candidate}

namespace Index

variable {ix : Index} {r : Requester} {scope : Scope} {name : String} {provides : Step → Bool}

theorem InOrder.hops_apart (h : ix.InOrder r scope name) : ∀ a ∈ ix.followed r scope name,
    ∀ b ∈ ix.followed r scope name, a.position.2 = b.position.2 → a = b := by
  rw [followed_eq]
  intro a ha b hb he
  obtain ⟨p, hp, rfl⟩ := mem_map.mp ha
  obtain ⟨q, hq, rfl⟩ := mem_map.mp hb
  have hfp := mem_followedRows.mp hp
  have hfq := mem_followedRows.mp hq
  have hpos : p.2.position = q.2.position := by
    refine Prod.ext ?_ he
    rw [hfp.toForwards.position, hfq.toForwards.position]
    exact h.oneFile _ _ _ _ hfp hfq
  have hrow := h.apart _ _ _ _ hfp hfq hpos
  rw [inj_on_of_nodup_map followedRows_nodup hp hq hrow]

variable {hop : Hop}

theorem mem_followed : hop ∈ ix.followed r scope name ↔ ∃ row, ix.Follows r scope name row hop := by
  rw [followed_eq, mem_map]
  constructor
  · rintro ⟨p, hp, rfl⟩
    exact ⟨p.1, mem_followedRows.mp hp⟩
  · rintro ⟨row, h⟩
    exact ⟨(row, hop), mem_followedRows.mpr h, rfl⟩

theorem bindingHops_inOrder (h : ix.InOrder r scope name) :
    ix.bindingHops provides r scope name =
      ((Hop.latestFirst (ix.followed r scope name)).find? (fun hop => hop.named || provides hop.target)).toList := by
  have hall := inOrder_iff.mpr h
  rw [Bool.and_eq_true] at hall
  unfold bindingHops
  dsimp only
  cases he : (ix.followed r scope name).isEmpty with
  | true =>
    rw [isEmpty_iff.mp he]
    rfl
  | false =>
    rw [hall.1]
    unfold laterBinding
    rw [if_pos (show (!false && true) from rfl), if_pos hall.2]

theorem bindingHops_unordered (h : ¬ ix.InOrder r scope name) :
    ix.bindingHops provides r scope name = ix.followed r scope name := by
  unfold bindingHops laterBinding
  dsimp only
  split
  next hall =>
    rw [if_neg]
    intro hord
    rw [Bool.and_eq_true] at hall
    exact h (inOrder_iff.mp (by rw [hall.2, hord]; rfl))
  next => rfl

theorem mem_bindingHops :
    hop ∈ ix.bindingHops provides r scope name ↔
    ∃ row, ix.Binding (fun step => provides step) r scope name row hop := by
  by_cases ho : ix.InOrder r scope name
  · rw [bindingHops_inOrder ho, Option.mem_toList, Hop.find?_latestFirst ho.hops_apart, mem_followed]
    constructor
    · rintro ⟨⟨row, hf⟩, hb, hlast⟩
      refine ⟨row, hf, fun _ => ⟨by simpa using hb, ?_⟩⟩
      intro row' hop' hf' hafter
      have hn := hlast hop' (mem_followed.mpr ⟨row', hf'⟩) hafter
      simpa using hn
    · rintro ⟨row, hf, hbind⟩
      obtain ⟨hb, hlast⟩ := hbind ho
      refine ⟨⟨row, hf⟩, by simpa using hb, ?_⟩
      intro hop' hm hafter
      obtain ⟨row', hf'⟩ := mem_followed.mp hm
      have hn := hlast row' hop' hf' hafter
      simpa using hn
  · rw [bindingHops_unordered ho, mem_followed]
    exact exists_congr fun row => ⟨fun hf => ⟨hf, fun h => absurd h ho⟩, fun hf => hf.1⟩

theorem bindingHops_singleton :
    ix.bindingHops provides r scope name = [hop] ↔
    ∃ row, ix.Binding (fun step => provides step) r scope name row hop ∧
      ∀ row' hop', ix.Binding (fun step => provides step) r scope name row' hop' → row' = row := by
  constructor
  · intro hl
    have hm : hop ∈ ix.bindingHops provides r scope name := by
      rw [hl]
      exact mem_cons_self
    obtain ⟨row, hb⟩ := mem_bindingHops.mp hm
    refine ⟨row, hb, fun row' hop' hb' => ?_⟩
    have hm' := mem_bindingHops.mpr ⟨row', hb'⟩
    rw [hl, mem_singleton] at hm'
    by_cases ho : ix.InOrder r scope name
    · exact ho.apart _ _ _ _ hb'.1 hb.1 (by rw [hm'])
    · rw [bindingHops_unordered ho, followed_eq] at hl
      obtain ⟨p, hp, _⟩ := map_eq_singleton_iff.mp hl
      have h1 := mem_followedRows.mpr hb.1
      have h2 := mem_followedRows.mpr hb'.1
      rw [hp, mem_singleton] at h1 h2
      exact (congrArg Prod.fst h2).trans (congrArg Prod.fst h1).symm
  · rintro ⟨row, hb, hall⟩
    have hm := mem_bindingHops.mpr ⟨row, hb⟩
    have hsame : ∀ hop' ∈ ix.bindingHops provides r scope name, hop' = hop := by
      intro hop' hm'
      obtain ⟨row', hb'⟩ := mem_bindingHops.mp hm'
      have hrow := hall row' hop' hb'
      subst hrow
      exact Option.some.inj (hb'.1.leads.symm.trans hb.1.leads)
    have hnodup : (ix.bindingHops provides r scope name).Nodup := by
      by_cases ho : ix.InOrder r scope name
      · rw [bindingHops_inOrder ho]
        cases List.find? _ _ <;> simp
      · rw [bindingHops_unordered ho, followed_eq]
        refine (nodup_map_iff_inj_on followedRows_nodup.of_map).mpr ?_
        intro p hp q hq _
        have hrows : ∀ p ∈ ix.followedRows r scope name, p.1 = row := by
          intro p hp
          exact hall p.1 p.2 ⟨mem_followedRows.mp hp, fun h => absurd h ho⟩
        exact inj_on_of_nodup_map followedRows_nodup hp hq ((hrows p hp).trans (hrows q hq).symm)
    exact eq_singleton_of_nodup hnodup hm hsame

theorem rebinds_iff : Hop.rebinds hops candidates ↔
    ∃ hop, hops = [hop] ∧ (∃ c ∈ candidates, c.filePath = hop.position.1) ∧
      ∀ c ∈ candidates, c.filePath = hop.position.1 → hop.position.after (position c) := by
  unfold Hop.rebinds
  split
  next hop =>
    simp only [Bool.and_eq_true, Bool.not_eq_true', isEmpty_eq_false_iff_exists_mem, mem_filter,
      decide_eq_true_eq, all_eq_true, List.cons.injEq, and_true]
    constructor
    · rintro ⟨⟨c, hc⟩, hall⟩
      exact ⟨hop, rfl, ⟨c, hc⟩, fun c' hc' hf => hall c' ⟨hc', hf⟩⟩
    · rintro ⟨_, rfl, ⟨c, hc⟩, hall⟩
      exact ⟨⟨c, hc⟩, fun c' hc' => hall c' hc'.1 hc'.2⟩
  next hne =>
    simp only [Bool.false_eq_true, false_iff]
    rintro ⟨hop, rfl, _⟩
    exact hne hop rfl

variable {step : Step}

theorem expand_name (h : step.2 = .name name) : ix.expand provides r step = ix.bindingHops provides r step.1 name := by
  unfold expand
  rw [h]

theorem rebound_iff :
    (ix.asksHops r step && Hop.rebinds (ix.expand provides r step) (ix.admitted r step)) ↔
      ix.Rebound (fun s => provides s) r step := by
  unfold asksHops Rebound
  rw [Bool.and_eq_true, Bool.and_eq_true, any_eq_true, rebinds_iff]
  simp only [mem_admitted]
  constructor
  · rintro ⟨⟨hk, c, hc, hlang⟩, hop, hhops, ⟨d, hd, hdf⟩, hall⟩
    cases hkey : step.2 with
    | qualifiedName text =>
      rw [hkey] at hk
      cases hk
    | name text =>
      rw [expand_name hkey] at hhops
      obtain ⟨row, hb, huniq⟩ := bindingHops_singleton.mp hhops
      have hpos := congrArg Prod.fst hb.1.toForwards.position
      rw [hpos] at hdf hall
      exact ⟨text, rfl, ⟨c, hc, hlang⟩, row, hop, hb, huniq, ⟨d, hd, hdf⟩, hall⟩
  · rintro ⟨text, hkey, ⟨c, hc, hlang⟩, row, hop, hb, huniq, hbeside, hall⟩
    have hpos := congrArg Prod.fst hb.1.toForwards.position
    refine ⟨⟨by rw [hkey]; rfl, c, hc, hlang⟩, hop, ?_, ?_, ?_⟩
    · rw [expand_name hkey]
      exact bindingHops_singleton.mpr ⟨row, hb, huniq⟩
    · rw [hpos]
      exact hbeside
    · rw [hpos]
      exact hall

theorem mem_offered {c : Candidate} :
    c ∈ ix.offered provides r step ↔ ix.Answers r step c ∧ ¬ ix.Rebound (fun s => provides s) r step := by
  unfold offered
  rw [← rebound_iff]
  split
  next h => simp [h]
  next h => simp [h, mem_admitted]

theorem mem_expand {next : Step} :
    next ∈ (ix.expand provides r step).map Hop.target ↔ ix.Leads (fun s => provides s) r step next := by
  unfold Leads
  rw [mem_map]
  cases hkey : step.2 with
  | qualifiedName text =>
    have he : ix.expand provides r step = [] := by
      unfold expand
      rw [hkey]
    simp [he]
  | name text =>
    rw [expand_name hkey]
    simp only [mem_bindingHops]
    constructor
    · rintro ⟨hop, ⟨row, hb⟩, rfl⟩
      exact ⟨text, row, hop, rfl, hb, rfl⟩
    · rintro ⟨_, row, hop, he, hb, rfl⟩
      cases he
      exact ⟨hop, ⟨row, hb⟩, rfl⟩

end Index

open Nat

namespace Index

variable {ix : Index} {r : Requester}

def asked (ix : Index) (r : Requester) (left : Nat) (step : Step) : Prop := ix.provides r left step = true

section Levels

variable {provides provides' : Nat → Step → Prop} {cap k : Nat} {start : Step}

section

variable (h : ∀ left < cap, provides left = provides' left)

include h

theorem levels_congr (hk : k ≤ cap) : ix.levels provides r cap start k = ix.levels provides' r cap start k := by
  induction k with
  | zero => rfl
  | succ k ih =>
    unfold levels
    rw [ih (by omega), h (cap - (k + 1)) (by omega)]

theorem offeredAt_congr {c : Candidate} :
    ix.OfferedAt provides r cap start k c ↔ ix.OfferedAt provides' r cap start k c := by
  refine and_congr_right fun hk => ?_
  rw [levels_congr h hk]
  refine exists_congr fun step => and_congr_right fun _ => and_congr_right fun _ => ?_
  refine forall_congr' fun hlt => ?_
  rw [h (cap - (k + 1)) (by omega)]

end

theorem levels_empty {j : Nat} (hk : (ix.levels provides r cap start k).1 = ∅) (hj : k ≤ j) :
    (ix.levels provides r cap start j).1 = ∅ := by
  induction j, hj using le_induction with
  | base => exact hk
  | succ j _ ih =>
    rw [levels]
    rw [ih]
    exact Set.eq_empty_of_forall_notMem fun step hs => hs.2.elim fun _ hp => hp.1

end Levels

theorem mem_keepFirst_id (hsub : ∀ c ∈ candidates, c ∈ ix.store.nodes) {c : Candidate} :
    c ∈ keepFirst NodeRow.id [] candidates ↔ c ∈ candidates := by
  constructor
  · exact mem_of_mem_keepFirst
  · intro hc
    obtain ⟨d, hd, hid⟩ : ∃ d ∈ keepFirst NodeRow.id [] candidates, d.id = c.id :=
      exists_mem_keepFirst hc not_mem_nil
    rwa [← ix.store.nodes.key_injective (hsub d (mem_of_mem_keepFirst hd)) (hsub c hc) hid]

structure AtLevel (ix : Index) (r : Requester) (cap : Nat) (start : Step) (k : Nat) (frontier visited : List Step) :
    Prop where
  frontier : ∀ step, step ∈ frontier ↔ step ∈ (ix.levels (ix.asked r) r cap start k).1
  visited : ∀ step, step ∈ visited ↔ step ∈ (ix.levels (ix.asked r) r cap start k).2

theorem AtLevel.start (cap : Nat) (start : Step) : ix.AtLevel r cap start 0 [start] [start] :=
  ⟨fun _ => mem_singleton, fun _ => mem_singleton⟩

section Walk

variable {cap k left : Nat} {start : Step} {frontier visited : List Step}

theorem AtLevel.next (h : ix.AtLevel r cap start k frontier visited) (hcap : k + (left + 1) = cap) :
    ix.AtLevel r cap start (k + 1) (ix.nextSteps (ix.provides r left) r frontier visited)
      (ix.nextSteps (ix.provides r left) r frontier visited ++ visited) := by
  have hleft : cap - (k + 1) = left := by omega
  have hnext : ∀ step, step ∈ ix.nextSteps (ix.provides r left) r frontier visited ↔
      step ∈ (ix.levels (ix.asked r) r cap start (k + 1)).1 := by
    intro step
    unfold nextSteps
    rw [mem_keepFirst_unseen, mem_flatMap, levels, h.visited]
    simp only [mem_expand, h.frontier, hleft]
    exact and_comm
  refine ⟨hnext, fun step => ?_⟩
  rw [mem_append, hnext, h.visited, levels]
  exact or_comm

variable {c : Candidate}

theorem AtLevel.offered (h : ix.AtLevel r cap start k frontier visited) (hcap : k + (left + 1) = cap) :
    c ∈ frontier.flatMap (ix.offered (ix.provides r left) r) ↔ ix.OfferedAt (ix.asked r) r cap start k c := by
  have hleft : cap - (k + 1) = left := by omega
  have hlt : k < cap := by omega
  unfold OfferedAt
  rw [mem_flatMap, hleft]
  simp only [mem_offered, h.frontier, hlt, hlt.le, true_and, true_imp_iff]
  rfl

theorem AtLevel.admitted (h : ix.AtLevel r cap start cap frontier visited) :
    c ∈ frontier.flatMap (ix.admitted r) ↔ ix.OfferedAt (ix.asked r) r cap start cap c := by
  unfold OfferedAt
  rw [mem_flatMap]
  simp only [mem_admitted, h.frontier, le_refl, lt_irrefl, true_and, false_imp_iff, and_true]

theorem offeredAt_stored {provides : Nat → Step → Prop} (h : ix.OfferedAt provides r cap start k c) :
    c ∈ ix.store.nodes := by
  obtain ⟨_, _, _, hc, _⟩ := h
  exact hc.stored

/-- What a walk brings back: the candidates of the first level that has any. -/
structure WalkResult (ix : Index) (r : Requester) (cap : Nat) (start : Step) (k : Nat)
    (found : List Candidate × Nat) : Prop where
  nodup : (found.1.map NodeRow.id).Nodup
  stored : ∀ c ∈ found.1, c ∈ ix.store.nodes
  none : found.1 = [] → ∀ j, k ≤ j → ∀ c, ¬ ix.OfferedAt (ix.asked r) r cap start j c
  some : found.1 ≠ [] → k ≤ found.2 ∧ (∀ c, c ∈ found.1 ↔ ix.OfferedAt (ix.asked r) r cap start found.2 c) ∧
    ∀ j, k ≤ j → j < found.2 → ∀ c, ¬ ix.OfferedAt (ix.asked r) r cap start j c

theorem WalkResult.level
    (hc : ∀ c, c ∈ candidates ↔ ix.OfferedAt (ix.asked r) r cap start k c)
    (hlast : candidates = [] → ∀ j, k < j → ∀ c, ¬ ix.OfferedAt (ix.asked r) r cap start j c) :
    ix.WalkResult r cap start k (keepFirst NodeRow.id [] candidates, k) := by
  have hsub : ∀ c ∈ candidates, c ∈ ix.store.nodes := fun c hm => offeredAt_stored ((hc c).mp hm)
  have hmem : ∀ c, c ∈ keepFirst NodeRow.id [] candidates ↔ ix.OfferedAt (ix.asked r) r cap start k c :=
    fun c => (mem_keepFirst_id hsub).trans (hc c)
  refine ⟨keepFirst_keys_nodup _ _, fun c hm => offeredAt_stored ((hmem c).mp hm), fun he j hj c ho => ?_,
    fun _ => ⟨le_refl k, hmem, fun j hkj hjk => absurd hkj (by simpa using hjk)⟩⟩
  dsimp only at he
  have hnone : candidates = [] := by
    refine eq_nil_iff_forall_not_mem.mpr fun c hm => ?_
    have := (mem_keepFirst_id hsub).mpr hm
    rw [he] at this
    exact not_mem_nil this
  rcases eq_or_lt_of_le hj with rfl | hlt
  · have := (hmem c).mpr ho
    rw [he] at this
    exact not_mem_nil this
  · exact hlast hnone j hlt c ho

theorem WalkResult.deeper {found : List Candidate × Nat} (h : ix.WalkResult r cap start (k + 1) found)
    (hk : ∀ c, ¬ ix.OfferedAt (ix.asked r) r cap start k c) : ix.WalkResult r cap start k found := by
  refine ⟨h.nodup, h.stored, fun he j hj c ho => ?_, fun hne => ?_⟩
  · rcases eq_or_lt_of_le hj with rfl | hlt
    · exact hk c ho
    · exact h.none he j hlt c ho
  · obtain ⟨hle, hmem, hbefore⟩ := h.some hne
    refine ⟨by omega, hmem, fun j hj hlt c ho => ?_⟩
    rcases eq_or_lt_of_le hj with rfl | hkj
    · exact hk c ho
    · exact hbefore j hkj hlt c ho

/-- The walk from a level brings back the first level that has any candidate. -/
theorem walkFrom_result (h : ix.AtLevel r cap start k frontier visited) (hcap : k + left = cap) :
    ix.WalkResult r cap start k (ix.walkFrom r left k frontier visited) := by
  induction left generalizing k frontier visited with
  | zero =>
    have hk : k = cap := by omega
    subst hk
    exact .level (fun c => h.admitted) fun _ j hj c ho => absurd ho.1 (by omega)
  | succ left ih =>
    have hmem : ∀ c, c ∈ frontier.flatMap (ix.offered (ix.provides r left) r) ↔
        ix.OfferedAt (ix.asked r) r cap start k c := fun c => h.offered hcap
    have hres := ih (h.next hcap) (by omega)
    show ix.WalkResult r cap start k
      (if keepFirst NodeRow.id [] (frontier.flatMap (ix.offered (ix.provides r left) r)) ≠ [] then
        (keepFirst NodeRow.id [] (frontier.flatMap (ix.offered (ix.provides r left) r)), k)
      else if ix.nextSteps (ix.provides r left) r frontier visited = [] then ([], 0)
      else ix.walkFrom r left (k + 1) (ix.nextSteps (ix.provides r left) r frontier visited)
        (ix.nextSteps (ix.provides r left) r frontier visited ++ visited))
    split
    next hne =>
      refine .level hmem fun he => ?_
      rw [he] at hne
      exact absurd rfl hne
    next he =>
      have hnone : ∀ c, ¬ ix.OfferedAt (ix.asked r) r cap start k c := by
        intro c ho
        have hc := (hmem c).mpr ho
        have hkept := (mem_keepFirst_id fun c hm => offeredAt_stored ((hmem c).mp hm)).mpr hc
        rw [not_not.mp he] at hkept
        exact not_mem_nil hkept
      split
      next hnext =>
        have hempty : (ix.levels (ix.asked r) r cap start (k + 1)).1 = ∅ := by
          refine Set.eq_empty_of_forall_notMem fun step hs => ?_
          have := ((h.next hcap).frontier step).mpr hs
          rw [hnext] at this
          exact not_mem_nil this
        refine .deeper ⟨by simp, fun c hc => absurd hc not_mem_nil, fun _ j hj c ho => ?_,
          fun hne => absurd rfl hne⟩ hnone
        obtain ⟨_, step, hs, _⟩ := ho
        rw [levels_empty hempty hj] at hs
        exact hs
      next => exact hres.deeper hnone

end Walk

variable {start : Step}

theorem provides_offered {cap : Nat} : ix.asked r cap start ↔ ∃ k c, ix.OfferedAt (ix.asked r) r cap start k c := by
  have hstart : ix.AtLevel r cap start 0 [start] [start] := AtLevel.start cap start
  have h := walkFrom_result hstart (zero_add cap)
  unfold asked provides
  rw [Bool.not_eq_true', isEmpty_eq_false_iff]
  constructor
  · intro hne
    obtain ⟨c, hc⟩ := exists_mem_of_ne_nil _ hne
    exact ⟨_, c, ((h.some hne).2.1 c).mp hc⟩
  · rintro ⟨k, c, ho⟩ he
    exact h.none he k (zero_le k) c ho

theorem asked_eq_provides : ix.asked r = ix.Provides r := by
  funext cap
  induction cap using Nat.strong_induction_on with
  | _ cap ih =>
    funext start
    refine propext ?_
    rw [provides_offered, Provides]
    refine exists_congr fun k => exists_congr fun c => offeredAt_congr fun left hl => ?_
    funext step
    rw [ih left hl]
    exact propext ⟨fun hp => ⟨hl, hp⟩, fun hp => hp.2⟩

/-- The walk brings back the candidates of the smallest depth that has any. -/
theorem walk_finds (start : Step) : ix.WalkResult r maxReexportDepth start 0 (ix.walk r start) :=
  walkFrom_result (AtLevel.start maxReexportDepth start) (zero_add maxReexportDepth)

theorem Shallowest.unique {k j : Nat} (hk : ix.Shallowest r start k) (hj : ix.Shallowest r start j) : k = j := by
  obtain ⟨⟨c, hc⟩, hk⟩ := hk
  obtain ⟨⟨d, hd⟩, hj⟩ := hj
  rcases lt_trichotomy k j with h | h | h
  · exact absurd hc (hj k h c)
  · exact h
  · exact absurd hd (hk j h d)

theorem walk_shallowest (hne : (ix.walk r start).1 ≠ []) :
    ix.Shallowest r start (ix.walk r start).2 ∧ ∀ c, c ∈ (ix.walk r start).1 ↔
      ix.OfferedAt (ix.Provides r) r maxReexportDepth start (ix.walk r start).2 c := by
  have h : ix.WalkResult r maxReexportDepth start 0 (ix.walk r start) := walk_finds start
  obtain ⟨_, hmem, hbefore⟩ := h.some hne
  obtain ⟨c, hc⟩ := exists_mem_of_ne_nil _ hne
  rw [asked_eq_provides] at hmem hbefore
  exact ⟨⟨⟨c, (hmem c).mp hc⟩, fun j hj c => hbefore j (zero_le j) hj c⟩, hmem⟩

theorem walk_nil : (ix.walk r start).1 = [] ↔ ∀ k, ¬ ix.Shallowest r start k := by
  have h : ix.WalkResult r maxReexportDepth start 0 (ix.walk r start) := walk_finds start
  rw [← not_iff_not, not_forall_not]
  constructor
  · intro hne
    exact ⟨_, (walk_shallowest hne).1⟩
  · rintro ⟨k, ⟨c, ho⟩, _⟩ he
    rw [← asked_eq_provides] at ho
    exact h.none he k (zero_le k) c ho

theorem mem_walk {k : Nat} {c : Candidate} :
    (c ∈ (ix.walk r start).1 ∧ (ix.walk r start).2 = k) ↔ ix.Finds r start k c := by
  constructor
  · rintro ⟨hc, rfl⟩
    obtain ⟨hs, hmem⟩ := walk_shallowest (ne_nil_of_mem hc)
    exact ⟨hs, (hmem c).mp hc⟩
  · rintro ⟨hs, ho⟩
    have hne : (ix.walk r start).1 ≠ [] := fun he => walk_nil.mp he k hs
    obtain ⟨hs', hmem⟩ := walk_shallowest hne
    have hk := hs'.unique hs
    subst hk
    exact ⟨(hmem c).mpr ho, rfl⟩

end Index

end GMesh
