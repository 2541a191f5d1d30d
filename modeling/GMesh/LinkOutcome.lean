import GMesh.LinkLevels
import GMesh.LinkPass

namespace GMesh

open List Option

namespace Index

variable {ix : Index} {p : Placeholder} {r : Requester}

theorem walk_singleton {start : Step} {h : Candidate} {k : Nat} : ix.walk r start = ([h], k) ↔
    ix.Finds r start k h ∧ ∀ h', ix.Finds r start k h' → h' = h := by
  constructor
  · intro he
    have hfinds : ∀ h', ix.Finds r start k h' ↔ h' = h := by
      intro h'
      rw [← mem_walk, he]
      simp
    exact ⟨(hfinds h).mpr rfl, fun h' hf => (hfinds h').mp hf⟩
  · rintro ⟨hf, hall⟩
    obtain ⟨hm, rfl⟩ := mem_walk.mpr hf
    have hn : (ix.walk r start).1.Nodup := (walk_finds start).nodup.of_map
    have hl := eq_singleton_of_nodup hn hm fun h' hm' => hall h' (mem_walk.mp ⟨hm', rfl⟩)
    exact Prod.ext hl rfl

variable {c : Candidate}

theorem mem_throughHead {path : QualifiedPath} : c ∈ ix.throughHead p path r ↔ ix.HeadMember p r path c := by
  unfold throughHead HeadMember
  cases path.headName with
  | none => simp
  | some head =>
    cases path.last with
    | none => simp
    | some member =>
      dsimp only
      constructor
      · split
        next h depth hw =>
          intro hc
          split at hc
          next => exact nomatch hc
          next hd =>
            obtain ⟨hf, hall⟩ := walk_singleton.mp hw
            exact ⟨head, member, h, depth, rfl, rfl, Nat.pos_of_ne_zero hd, hf, hall, mem_admitted.mp hc⟩
        next => exact fun hc => absurd hc not_mem_nil
      · rintro ⟨_, _, h, depth, hhead, hmember, hd, hf, hall, hc⟩
        cases hhead
        cases hmember
        rw [walk_singleton.mpr ⟨hf, hall⟩]
        dsimp only
        rw [if_neg (Nat.pos_iff_ne_zero.mp hd)]
        exact mem_admitted.mpr hc

theorem mem_resolve : c ∈ ix.resolve p r ↔ ix.Resolves p r c := by
  have hwalk : (∃ k, ix.Finds r (p.scope, p.key) k c) ↔ c ∈ (ix.walk r (p.scope, p.key)).1 := by
    simp only [← mem_walk]
    exact ⟨fun ⟨_, hc, _⟩ => hc, fun hc => ⟨_, hc, rfl⟩⟩
  unfold resolve Resolves
  rw [hwalk]
  dsimp only
  split
  next hne =>
    rw [← walk_nil]
    simp [hne]
  next he =>
    have he := not_not.mp he
    rw [← walk_nil, he]
    cases hk : p.key with
    | name text => simp [Key.isName]
    | qualifiedName text =>
      cases p.keyPath with
      | none => simp
      | some path => simp [Key.isName, mem_throughHead]

theorem Resolves.stored (h : ix.Resolves p r c) : c ∈ ix.store.nodes := by
  rcases h with ⟨_, hf⟩ | ⟨_, _, _, _, _, _, _, _, _, _, _, _, _, hc⟩
  · exact offeredAt_stored hf.2
  · exact hc.stored

theorem resolve_nodup : ((ix.resolve p r).map NodeRow.id).Nodup := by
  unfold resolve
  dsimp only
  split
  next => exact (walk_finds _).nodup
  next =>
    split
    next path _ _ =>
      unfold throughHead
      split
      next =>
        split
        next =>
          split
          next => exact nodup_nil
          next => exact ix.store.nodes.nodup.sublist ((filter_sublist.trans filter_sublist).map NodeRow.id)
        next => exact nodup_nil
      next => exact nodup_nil
    next => exact nodup_nil

theorem isTypeMember_iff : ix.isTypeMember c ↔ ix.TypeMember c := by
  unfold isTypeMember TypeMember typeBeside
  simp only [List.any_eq_true, Bool.and_eq_true, decide_eq_true_eq]
  constructor
  · rintro ⟨q, hq, n, hn, ⟨hkind, rfl⟩, hplace⟩
    refine ⟨n, hn, hkind, hq, ?_⟩
    cases hc : c.container <;> simpa [hc] using hplace
  · rintro ⟨n, hn, hkind, hq, hplace⟩
    refine ⟨n.qualifiedName, hq, n, hn, ⟨hkind, rfl⟩, ?_⟩
    cases hc : c.container <;> simpa [hc] using hplace

theorem mem_dropTypeMembers {key : Key} {candidates : List Candidate} :
    c ∈ ix.dropTypeMembers key candidates ↔ c ∈ candidates ∧
      (key.isName → (∃ c' ∈ candidates, ¬ ix.TypeMember c') → ¬ ix.TypeMember c) := by
  unfold dropTypeMembers
  dsimp only
  split
  next h =>
    refine ⟨fun hc => ⟨hc, fun hk ⟨c', hc', hn⟩ => ?_⟩, fun hc => hc.1⟩
    have hlen : candidates.length < 2 := by simpa [hk] using h
    obtain ⟨a, rfl⟩ := length_eq_one_iff.mp (Nat.le_antisymm (Nat.le_of_lt_succ hlen) (length_pos_of_mem hc))
    rw [mem_singleton] at hc hc'
    rwa [hc, ← hc']
  next h =>
    have hk : key.isName := by
      cases hk : key.isName with
      | true => rfl
      | false => simp [hk] at h
    have hnon : ∀ c', c' ∈ candidates.filter (fun c => !ix.isTypeMember c) ↔ c' ∈ candidates ∧ ¬ ix.TypeMember c' := by
      intro c'
      rw [mem_filter, ← isTypeMember_iff, Bool.not_eq_true', Bool.not_eq_true]
    split
    next he =>
      rw [List.isEmpty_iff] at he
      refine ⟨fun hc => ⟨hc, fun _ ⟨c', hc', hn⟩ => ?_⟩, fun hc => hc.1⟩
      have := (hnon c').mpr ⟨hc', hn⟩
      rw [he] at this
      exact nomatch this
    next hne =>
      have hex : ∃ c' ∈ candidates, ¬ ix.TypeMember c' := by
        rw [List.isEmpty_iff] at hne
        obtain ⟨c', hc'⟩ := exists_mem_of_ne_nil _ hne
        exact ⟨c', (hnon c').mp hc'⟩
      rw [hnon]
      exact ⟨fun hc => ⟨hc.1, fun _ _ => hc.2⟩, fun hc => ⟨hc.1, hc.2 hk hex⟩⟩

theorem dropTypeMembers_sublist (key : Key) (candidates : List Candidate) :
    (ix.dropTypeMembers key candidates).Sublist candidates := by
  unfold dropTypeMembers
  dsimp only
  split
  next => exact .refl _
  next =>
    split
    next => exact .refl _
    next => exact filter_sublist

theorem mem_kept : c ∈ ix.dropTypeMembers p.key (ix.resolve p r) ↔ ix.Kept p r c := by
  unfold Kept
  simp only [mem_dropTypeMembers, mem_resolve]

end Index

theorem fitting_sublist (required : Option (List NodeKind)) (candidates : List Candidate) :
    (fitting required candidates).Sublist candidates := by
  unfold fitting
  cases required with
  | none => exact .refl _
  | some kinds =>
    dsimp only
    cases hf : (kinds.map (ofKind candidates)).find? (fun l => !l.isEmpty) with
    | none => exact nil_sublist _
    | some l =>
      obtain ⟨kind, _, rfl⟩ := mem_map.mp (mem_of_find?_eq_some hf)
      exact filter_sublist

variable {required : Option (List NodeKind)} {candidates l : List Candidate}

/-- The candidates that fit are those of the first accepted kind that any has. -/
theorem mem_fitting {c : Candidate} : c ∈ fitting required candidates ↔ FitsKind (· ∈ candidates) required c := by
  unfold FitsKind fitting
  cases required with
  | none => simp
  | some kinds =>
    simp only [some.injEq, forall_eq']
    induction kinds with
    | nil => simp
    | cons kind kinds ih =>
      rw [map_cons, find?_cons]
      cases hk : (ofKind candidates kind).isEmpty with
      | true =>
        have hnone : ∀ c' ∈ candidates, c'.kind ≠ kind := by simpa [ofKind, List.isEmpty_iff] using hk
        simp only [Bool.not_true]
        rw [ih]
        refine and_congr_right fun hc => ⟨?_, ?_⟩
        · rintro ⟨before, after, rfl, hall⟩
          refine ⟨kind :: before, after, rfl, fun k hk c' hc' => ?_⟩
          rcases mem_cons.mp hk with rfl | hk
          · exact hnone c' hc'
          · exact hall k hk c' hc'
        · rintro ⟨before, after, he, hall⟩
          cases before with
          | nil => exact absurd (cons.inj he).1.symm (hnone c hc)
          | cons b before =>
            exact ⟨before, after, (cons.inj he).2, fun k hk => hall k (mem_cons_of_mem b hk)⟩
      | false =>
        simp only [Bool.not_false, getD_some, ofKind, mem_filter, decide_eq_true_eq]
        refine and_congr_right fun hc => ⟨fun hck => ⟨[], kinds, by rw [hck]; rfl, by simp⟩, ?_⟩
        rintro ⟨before, after, he, hall⟩
        cases before with
        | nil => exact (cons.inj he).1.symm
        | cons b before =>
          obtain ⟨c', hc'⟩ := isEmpty_eq_false_iff_exists_mem.mp hk
          have hc' : c' ∈ candidates ∧ c'.kind = kind := by simpa [ofKind] using hc'
          exact absurd (hc'.2.trans (cons.inj he).1) (hall b mem_cons_self c' hc'.1)

section Accessors

theorem scanAccessor_none (l : List Candidate) : l.foldl scanAccessor none = none := by
  induction l with
  | nil => rfl
  | cons _ _ ih => exact ih

variable {g : Candidate}

theorem scanAccessor_found {found : Option Candidate} :
    l.foldl scanAccessor (some (some g)) = some found ↔
      found = some g ∧ ∀ c ∈ l, isGetter c = false ∧ isAccessor c := by
  induction l with
  | nil => simpa using eq_comm
  | cons c _ ih =>
    rw [foldl_cons, forall_mem_cons]
    cases hg : isGetter c with
    | true => simp [scanAccessor, hg, scanAccessor_none]
    | false =>
      cases ha : isAccessor c with
      | true =>
        simp only [scanAccessor, hg, ha, Bool.false_eq_true, if_false, if_true, ih]
        simp
      | false => simp [scanAccessor, hg, ha, scanAccessor_none]

/-- The scan finds a getter exactly when the others are accessors that get nothing. -/
theorem scanAccessor_getter (hn : l.Nodup) :
    l.foldl scanAccessor (some none) = some (some g) ↔ g ∈ l ∧ isGetter g ∧
      ∀ c ∈ l, c = g ∨ (isGetter c = false ∧ isAccessor c) := by
  induction l with
  | nil => simp
  | cons c _ ih =>
    obtain ⟨hc, hn⟩ := nodup_cons.mp hn
    rw [foldl_cons, forall_mem_cons]
    cases hg : isGetter c with
    | true =>
      simp only [scanAccessor, hg, isSome_none, Bool.false_eq_true, if_false, if_true]
      rw [scanAccessor_found, some.injEq]
      constructor
      · rintro ⟨rfl, hall⟩
        exact ⟨mem_cons_self, hg, .inl rfl, fun c' hc' => .inr (hall c' hc')⟩
      · rintro ⟨_, _, hcg, hall⟩
        have hcg : c = g := hcg.resolve_right (by simp)
        subst hcg
        refine ⟨rfl, fun c' hc' => (hall c' hc').resolve_left ?_⟩
        rintro rfl
        exact hc hc'
    | false =>
      cases ha : isAccessor c with
      | true =>
        simp only [scanAccessor, hg, ha, Bool.false_eq_true, if_false, if_true]
        rw [ih hn]
        constructor
        · rintro ⟨hm, hgg, hall⟩
          exact ⟨mem_cons_of_mem c hm, hgg, .inr (by simp), hall⟩
        · rintro ⟨hm, hgg, _, hall⟩
          refine ⟨(mem_cons.mp hm).resolve_left ?_, hgg, hall⟩
          rintro rfl
          rw [hg] at hgg
          cases hgg
      | false =>
        simp only [scanAccessor, hg, ha, Bool.false_eq_true, if_false, scanAccessor_none]
        constructor
        · exact fun h => nomatch h
        · rintro ⟨_, hgg, rfl | hbad, _⟩
          · rw [hg] at hgg
            cases hgg
          · exact absurd hbad.2 (by simp)

theorem soleAccessorGetter_eq_some {key : Key} {several : List Candidate} (hn : several.Nodup) :
    soleAccessorGetter key several = some g ↔ key.isName = false ∧ g ∈ several ∧ isGetter g ∧
      ∀ c ∈ several, c.filePath = g.filePath ∧ (c = g ∨ (isGetter c = false ∧ isAccessor c)) := by
  unfold soleAccessorGetter
  cases hk : key.isName with
  | true => simp
  | false =>
    simp only [Bool.false_eq_true, if_false, true_and]
    cases several with
    | nil => simp
    | cons first rest =>
      dsimp only
      rw [forall₂_and]
      split
      next h =>
        obtain ⟨c, hc, hne⟩ := any_eq_true.mp h
        simp only [reduceCtorEq, false_iff]
        rintro ⟨_, _, hfile, _⟩
        exact of_decide_eq_true hne ((hfile c (mem_cons_of_mem first hc)).trans (hfile first mem_cons_self).symm)
      next h =>
        have hsame : ∀ c ∈ first :: rest, c.filePath = first.filePath := by
          refine forall_mem_cons.mpr ⟨rfl, fun c hc => ?_⟩
          by_contra hne
          exact h (any_eq_true.mpr ⟨c, hc, decide_eq_true hne⟩)
        rw [join_eq_some_iff, scanAccessor_getter hn]
        constructor
        · rintro ⟨hm, hg, hall⟩
          exact ⟨hm, hg, fun c hc => (hsame c hc).trans (hsame g hm).symm, hall⟩
        · rintro ⟨hm, hg, _, hall⟩
          exact ⟨hm, hg, hall⟩

end Accessors

/-- `pick` answers exactly when the choice is a single one. -/
theorem pick_eq_some {key : Key} {id : String} (hn : candidates.Nodup) :
    pick key required candidates = some id ↔ SingleChoice (· ∈ candidates) key required id := by
  unfold pick SingleChoice
  simp only [← mem_fitting]
  have hn := hn.sublist (fitting_sublist required candidates)
  generalize fitting required candidates = fits at hn
  match fits, hn with
  | [], _ => simp
  | [c], _ =>
    simp only [mem_singleton, some.injEq]
    constructor
    · intro hid
      exact ⟨c, rfl, hid, .inl fun c' hc' => hc'⟩
    · rintro ⟨_, rfl, hid, _⟩
      exact hid
  | a :: b :: rest, hn =>
    rw [map_eq_some_iff]
    simp only [soleAccessorGetter_eq_some hn]
    constructor
    · rintro ⟨g, ⟨hk, hm, hg, hall⟩, hid⟩
      exact ⟨g, hm, hid, .inr ⟨hk, hg, hall⟩⟩
    · rintro ⟨g, hm, hid, honly | ⟨hk, hg, hall⟩⟩
      · have hab : a = b := (honly a (by simp)).trans (honly b (by simp)).symm
        exact absurd (hab ▸ mem_cons_self) (nodup_cons.mp hn).1
      · exact ⟨g, ⟨hk, hm, hg, hall⟩, hid⟩

namespace Index

theorem choose_resolve {ix : Index} {p : Placeholder} {r : Requester} {required : Option (List NodeKind)} {id : String} :
    ix.choose p.key required (ix.resolve p r) = some id ↔ SingleChoice (ix.Kept p r) p.key required id := by
  unfold choose
  have hn : (ix.dropTypeMembers p.key (ix.resolve p r)).Nodup :=
    resolve_nodup.of_map.sublist (dropTypeMembers_sublist _ _)
  rw [pick_eq_some hn]
  simp only [mem_kept]

end Index

open KeyedTable Gives EdgeRow

variable {ix : Index} {p : Placeholder}

namespace EdgeRow

theorem repoint_group (placeholder : String) (g : EdgeGroup) (target : String) (e : EdgeRow) :
    (e.repoint placeholder g target).group = e.group := by
  unfold repoint
  split <;> rfl

theorem unlink_group (placeholder : String) (g : EdgeGroup) (e : EdgeRow) :
    (e.unlink placeholder g).group = e.group := by
  unfold unlink
  split <;> rfl

variable {g : EdgeGroup} {e : EdgeRow} (h : e.group ≠ g)

include h

variable {placeholder : String}

end EdgeRow

namespace Index

def targetFor (ix : Index) (p : Placeholder) (g : EdgeGroup) (required : Option (List NodeKind)) : Option String :=
  ix.choose p.key required (ix.resolve p { p.requester with engineAnswer := admitsUnseen g.1 g.2 p.key })

def moved (p : Placeholder) (g : EdgeGroup) (e : EdgeRow) : Option String → EdgeRow
  | some target => e.repoint p.id g target
  | none => e.unlink p.id g

def settle (ix : Index) (p : Placeholder) (e : EdgeRow) : EdgeRow :=
  match requiredTargetKind e.kind (admitsUnseen e.kind e.source p.key) with
  | none => e
  | some required => moved p e.group e (ix.targetFor p e.group required)

theorem moved_id (g : EdgeGroup) (e : EdgeRow) (target : Option String) : (moved p g e target).id = e.id := by
  cases target with
  | none => exact unlink_id p.id g e
  | some t => exact repoint_id p.id g t e

theorem moved_group (g : EdgeGroup) (e : EdgeRow) (target : Option String) : (moved p g e target).group = e.group := by
  cases target with
  | none => exact unlink_group p.id g e
  | some t => exact repoint_group p.id g t e

theorem settle_id (e : EdgeRow) : (ix.settle p e).id = e.id := by
  unfold settle
  split
  next => rfl
  next => exact moved_id _ _ _

theorem settle_group (e : EdgeRow) : (ix.settle p e).group = e.group := by
  unfold settle
  split
  next => rfl
  next => exact moved_group _ _ _

theorem settle_stranger {e : EdgeRow} (h : e.belongsTo p.id = false) : ix.settle p e = e := by
  have hb : ¬ (e.toId = p.id ∨ e.linkedFrom = some p.id) := of_decide_eq_false h
  unfold settle
  split
  next => rfl
  next required hr =>
    cases ix.targetFor p e.group required with
    | none => exact if_neg fun hc => hb (.inr hc.1)
    | some t => exact if_neg fun hc => hb (of_decide_eq_true hc.1)

def plainGroup (ix : Index) (p : Placeholder) (pass : PlaceholderPass) (g : EdgeGroup) : PlaceholderPass :=
  let engineAnswer := admitsUnseen g.1 g.2 p.key
  match requiredTargetKind g.1 engineAnswer with
  | none => pass
  | some required =>
    (pass.setSlot engineAnswer (ix.resolve p { p.requester with engineAnswer })).move p.id g
      (ix.targetFor p g required)

theorem move_find? (pass : PlaceholderPass) (g : EdgeGroup) (target : Option String) (id : String) :
    (pass.move p.id g target).edges.find? id = (pass.edges.find? id).map (fun e => moved p g e target) := by
  cases target with
  | none => exact find?_update pass.edges _ (unlink_id p.id g) id
  | some t => exact find?_update pass.edges _ (repoint_id p.id g t) id

theorem setSlot_edges (pass : PlaceholderPass) (engineAnswer : Bool) (candidates : List Candidate) :
    (pass.setSlot engineAnswer candidates).edges = pass.edges := by
  unfold PlaceholderPass.setSlot
  split <;> rfl

theorem plainGroup_find? (pass : PlaceholderPass) (g : EdgeGroup) (id : String) :
    (ix.plainGroup p pass g).edges.find? id =
      (pass.edges.find? id).map (fun e => if e.group = g then ix.settle p e else e) := by
  unfold plainGroup
  dsimp only
  cases hr : requiredTargetKind g.1 (admitsUnseen g.1 g.2 p.key) with
  | none =>
    have hsame : (fun e : EdgeRow => if e.group = g then ix.settle p e else e) = fun e => e := by
      funext e
      split
      next he =>
        unfold settle
        rw [show e.kind = g.1 from congrArg Prod.fst he, show e.source = g.2 from congrArg Prod.snd he, hr]
      next => rfl
    rw [hsame, Option.map_id']
  | some required =>
    rw [move_find?, setSlot_edges]
    congr 1
    funext e
    split
    next he =>
      unfold settle
      rw [he, show e.kind = g.1 from congrArg Prod.fst he, show e.source = g.2 from congrArg Prod.snd he, hr]
    next he =>
      cases ix.targetFor p g required with
      | none => exact if_neg fun hc => he hc.2
      | some t => exact if_neg fun hc => he hc.2.1

theorem plainGroups_find? {gs : List EdgeGroup} (hgs : gs.Nodup) (pass : PlaceholderPass) (id : String) :
    (gs.foldl (ix.plainGroup p) pass).edges.find? id =
      (pass.edges.find? id).map (fun e => if e.group ∈ gs then ix.settle p e else e) := by
  induction gs generalizing pass with
  | nil => simp
  | cons g gs ih =>
    obtain ⟨hg, hgs⟩ := nodup_cons.mp hgs
    rw [foldl_cons, ih hgs, plainGroup_find?, Option.map_map]
    congr 1
    funext e
    by_cases he : e.group = g
    · simp [he, hg, settle_group]
    · simp [he]

def KeptLists (ix : Index) (p : Placeholder) (pass : PlaceholderPass) : Prop :=
  ∀ engineAnswer candidates, pass.slot engineAnswer = some candidates →
    candidates = ix.resolve p { p.requester with engineAnswer }

variable {pass : PlaceholderPass}

theorem setSlot_kept (h : ix.KeptLists p pass) (engineAnswer : Bool) :
    ix.KeptLists p (pass.setSlot engineAnswer (ix.resolve p { p.requester with engineAnswer })) := by
  intro b candidates hs
  have hb := h b candidates
  unfold PlaceholderPass.setSlot PlaceholderPass.slot at *
  cases engineAnswer <;> cases b <;> simp_all

theorem move_slot (pass : PlaceholderPass) (g : EdgeGroup) (target : Option String) (engineAnswer : Bool) :
    (pass.move p.id g target).slot engineAnswer = pass.slot engineAnswer := by
  cases target <;> rfl

theorem linkGroup_gives (h : ix.KeptLists p pass) (g : EdgeGroup) :
    Gives (Caches.Valid ix) (ix.linkGroup p pass g) (ix.plainGroup p pass g) ∧
      ix.KeptLists p (ix.plainGroup p pass g) := by
  unfold linkGroup plainGroup
  dsimp only
  cases requiredTargetKind g.1 (admitsUnseen g.1 g.2 p.key) with
  | none => exact ⟨pure pass, h⟩
  | some required =>
    constructor
    · let r : Requester := { p.requester with engineAnswer := admitsUnseen g.1 g.2 p.key }
      have hchoose : Gives (Caches.Valid ix) (Resolver.choose ix p.key required (ix.resolve p r))
          (ix.targetFor p g required) :=
        .bind (Resolver.dropTypeMembers_gives (fun c hc => (mem_resolve.mp hc).stored) p.key) (.pure _)
      cases hs : pass.slot (admitsUnseen g.1 g.2 p.key) with
      | none => exact bind (Resolver.resolve_gives p r) (bind hchoose (pure _))
      | some known =>
        rw [h _ known hs]
        exact bind (pure _) (bind hchoose (pure _))
    · intro b candidates hs
      rw [move_slot] at hs
      exact setSlot_kept h _ b candidates hs

def plainPlaceholder (ix : Index) (edges : EdgeTable × Nat) (p : Placeholder) : EdgeTable × Nat :=
  let pass := (edgeGroups edges.1 p.id).foldl (ix.plainGroup p) { edges := edges.1, linkedEdges := edges.2 }
  (pass.edges, pass.linkedEdges)

variable (edges : EdgeTable × Nat)

include edges

theorem linkPlaceholder_gives (p : Placeholder) :
    Gives (Caches.Valid ix) (ix.linkPlaceholder edges p) (ix.plainPlaceholder edges p) := by
  have hkept : ix.KeptLists p { edges := edges.1, linkedEdges := edges.2 } := by
    intro b candidates hs
    cases b <;> cases hs
  have hgroups := foldlM (ix.KeptLists p) (fun pass h g (_ : g ∈ edgeGroups edges.1 p.id) => linkGroup_gives h g) hkept
  exact bind hgroups.1 (pure _)

theorem plainPlaceholder_find? (p : Placeholder) (id : String) :
    (ix.plainPlaceholder edges p).1.find? id = (edges.1.find? id).map (ix.settle p) := by
  unfold plainPlaceholder
  have hnodup : (edgeGroups edges.1 p.id).Nodup := nodup_dedup _
  rw [plainGroups_find? hnodup]
  cases hf : edges.1.find? id with
  | none => rfl
  | some e =>
    rw [map_some, map_some]
    congr 1
    split
    next => rfl
    next hn =>
      refine (settle_stranger ?_).symm
      cases hb : e.belongsTo p.id with
      | false => rfl
      | true =>
        refine absurd (mem_dedup.mpr (mem_map.mpr ⟨e, List.mem_filter.mpr ⟨?_, hb⟩, rfl⟩)) hn
        exact (find?_eq_some_iff.mp hf).1

theorem plainPlaceholders_find? (ps : List Placeholder) (id : String) :
    (ps.foldl ix.plainPlaceholder edges).1.find? id =
      (edges.1.find? id).map (fun e => ps.foldl (fun e p => ix.settle p e) e) := by
  induction ps generalizing edges with
  | nil => simp
  | cons _ _ ih =>
    rw [foldl_cons, ih, plainPlaceholder_find?, Option.map_map]
    rfl

end Index

theorem Store.link_plain (s : Store) (rules : LinkRules) (ps : List Placeholder) :
    ((s.link rules ps).1.edges, (s.link rules ps).2) =
      ps.foldl (Index.plainPlaceholder { store := s, rules }) (s.edges, 0) := by
  let ix : Index := { store := s, rules }
  have hg := (foldlM (fun _ => True) (fun edges _ p (_ : p ∈ ps) =>
    ⟨@Index.linkPlaceholder_gives ix edges p, trivial⟩) (b := (s.edges, 0)) trivial).1
  exact (hg {} (Caches.empty_valid ix)).1

theorem Store.link_find? (s : Store) (rules : LinkRules) (ps : List Placeholder) (id : String) :
    (s.link rules ps).1.edges.find? id =
      (s.edges.find? id).map (fun e => ps.foldl (fun e p => Index.settle { store := s, rules } p e) e) := by
  rw [← Index.plainPlaceholders_find? (s.edges, 0) ps id, ← s.link_plain rules ps]

end GMesh
