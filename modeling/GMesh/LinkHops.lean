import GMesh.ResolverCaches
import Mathlib.Data.Set.Basic
import Mathlib.Logic.Relation
import Mathlib.Data.List.Perm.Subperm

namespace GMesh

namespace Index

variable (ix : Index)

/-- A container is the other one or above it on the parents its members name. -/
def Above (language : String) : String → String → Prop :=
  Relation.ReflTransGen fun below above => ix.parentOf language below = some above

variable (r : Requester)

def Sees (language : String) (container : Option String) : Prop :=
  ∃ visibleIn origin, container = some visibleIn ∧ r.container = some origin ∧ language = r.language ∧
    ix.Above r.language origin visibleIn

/-- Who sees a declaration: everybody, its container and below, or its own file. -/
def Visible (scope : Scope) (c : Candidate) : Prop :=
  match c.visibility with
  | .everywhere => True
  | .file => (∃ language key, scope = .container language key) ∧ c.filePath = r.file
  | .container => ix.Sees r c.language c.visibilityContainer

/-- A declaration of a scope under a key that the requester sees, or that an engine named. -/
structure Answers (r : Requester) (step : Step) (c : Candidate) : Prop where
  stored : c ∈ ix.store.nodes
  declares : ∀ kind ∈ nonDeclarationNativeKinds, c.nativeKind ≠ some kind
  inScope : step.1.holds c = true
  fits : step.2.fits c = true
  seen : (r.engineAnswer = true ∧ step.2.isName = false) ∨ ix.Visible r step.1 c

structure Forwards (scope : Scope) (name : String) (row : NodeRow) (hop : Hop) : Prop where
  stored : row ∈ ix.store.nodes
  reexport : row.kind = .module ∧ row.nativeKind = some reexportNativeKind
  inScope : scope.holds row = true
  publishes : row.name = name ∨ row.name = reexportAllName
  leads : ix.hopOf name row = some hop

structure Follows (r : Requester) (scope : Scope) (name : String) (row : NodeRow) (hop : Hop) : Prop extends
    Forwards ix scope name row hop where
  unhidden : hop.named = true ∨ hop.namedShadowsGlob = false ∨
    ∀ row' hop', ix.Forwards scope name row' hop' → hop'.named = true → hop'.namedShadowsGlob = false
  open_to : ∀ c, hop.restrictedTo = some c → ix.Sees r c.1 c.2

structure InOrder (r : Requester) (scope : Scope) (name : String) : Prop where
  later : ∀ row hop, ix.Follows r scope name row hop → hop.laterImportBinds = true
  oneFile : ∀ row hop row' hop', ix.Follows r scope name row hop → ix.Follows r scope name row' hop' →
    row.filePath = row'.filePath
  apart : ∀ row hop row' hop', ix.Follows r scope name row hop → ix.Follows r scope name row' hop' →
    hop.position = hop'.position → row = row'

/-- A row that binds a name: the last one where rows stand in order, else each. -/
def Binding (provides : Step → Prop) (r : Requester) (scope : Scope) (name : String) (row : NodeRow) (hop : Hop) :
    Prop :=
  ix.Follows r scope name row hop ∧ (ix.InOrder r scope name →
    (hop.named = true ∨ provides hop.target) ∧ ∀ row' hop', ix.Follows r scope name row' hop' →
      hop'.position.after hop.position = true → ¬ (hop'.named = true ∨ provides hop'.target))

/-- A re-export after every declaration of its file, which binds the name, replaces them. -/
def Rebound (provides : Step → Prop) (r : Requester) (step : Step) : Prop :=
  ∃ name, step.2 = .name name ∧ (∃ c, ix.Answers r step c ∧ ix.rules.rebinding c.language = true) ∧
    ∃ row hop, ix.Binding provides r step.1 name row hop ∧
      (∀ row' hop', ix.Binding provides r step.1 name row' hop' → row' = row) ∧
      (∃ c, ix.Answers r step c ∧ c.filePath = row.filePath) ∧
      ∀ c, ix.Answers r step c → c.filePath = row.filePath → hop.position.after (position c) = true

def Leads (provides : Step → Prop) (r : Requester) (step next : Step) : Prop :=
  ∃ name row hop, step.2 = .name name ∧ ix.Binding provides r step.1 name row hop ∧ hop.target = next

def levels (provides : Nat → Step → Prop) (r : Requester) (cap : Nat) (start : Step) : Nat → Set Step × Set Step
  | 0 => ({start}, {start})
  | k + 1 =>
    let met := levels provides r cap start k
    let next := { step | step ∉ met.2 ∧ ∃ prev ∈ met.1, ix.Leads (provides (cap - (k + 1))) r prev step }
    (next, met.2 ∪ next)

/-- A candidate at a depth of at most `cap`. At the cap no hop is left to rebind it. -/
def OfferedAt (provides : Nat → Step → Prop) (r : Requester) (cap : Nat) (start : Step) (k : Nat) (c : Candidate) :
    Prop :=
  k ≤ cap ∧ ∃ step ∈ (ix.levels provides r cap start k).1, ix.Answers r step c ∧
    (k < cap → ¬ ix.Rebound (provides (cap - (k + 1))) r step)

def Provides (r : Requester) (cap : Nat) (start : Step) : Prop :=
  ∃ k c, ix.OfferedAt (fun left step => ∃ _ : left < cap, Provides r left step) r cap start k c
termination_by cap

def Shallowest (start : Step) (k : Nat) : Prop :=
  (∃ c, ix.OfferedAt (ix.Provides r) r maxReexportDepth start k c) ∧
    ∀ j < k, ∀ c, ¬ ix.OfferedAt (ix.Provides r) r maxReexportDepth start j c

/-- A candidate at the smallest depth that has any. -/
def Finds (start : Step) (k : Nat) (c : Candidate) : Prop :=
  ix.Shallowest r start k ∧ ix.OfferedAt (ix.Provides r) r maxReexportDepth start k c

variable (p : Placeholder)

/-- The member of the one head that a scope re-exports under a name's second to last segment. -/
def HeadMember (r : Requester) (path : QualifiedPath) (c : Candidate) : Prop :=
  ∃ head member h k, path.headName = some head ∧ path.last = some member ∧ 0 < k ∧
    ix.Finds { r with engineAnswer := false } (p.scope, .name head) k h ∧
    (∀ h', ix.Finds { r with engineAnswer := false } (p.scope, .name head) k h' → h' = h) ∧
    ix.Answers r (homeScope h, .qualifiedName (h.qualifiedName ++ member.sepText ++ member.name)) c

/-- The declarations a placeholder may be linked to. -/
def Resolves (r : Requester) (c : Candidate) : Prop :=
  (∃ k, ix.Finds r (p.scope, p.key) k c) ∨
    ((∀ k, ¬ ix.Shallowest r (p.scope, p.key) k) ∧
      ∃ path, p.key.isName = false ∧ p.keyPath = some path ∧ ix.HeadMember p r path c)

def TypeMember (c : Candidate) : Prop :=
  ∃ n ∈ ix.store.nodes, n.kind = .type ∧ n.qualifiedName ∈ ix.enclosing c ∧
    match c.container with
    | some key => n.language = c.language ∧ n.container = some key
    | none => n.filePath = c.filePath

/-- Under a name a type member only counts among its like. -/
def Kept (r : Requester) (c : Candidate) : Prop :=
  ix.Resolves p r c ∧ (p.key.isName = true → (∃ c', ix.Resolves p r c' ∧ ¬ ix.TypeMember c') → ¬ ix.TypeMember c)

end Index

def FitsKind (kept : Candidate → Prop) (required : Option (List NodeKind)) (c : Candidate) : Prop :=
  kept c ∧ ∀ kinds, required = some kinds →
    ∃ before after, kinds = before ++ c.kind :: after ∧ ∀ kind ∈ before, ∀ c', kept c' → c'.kind ≠ kind

/-- One candidate fits, or those that fit are one property's accessors and it is the getter. -/
def SingleChoice (kept : Candidate → Prop) (key : Key) (required : Option (List NodeKind)) (id : String) : Prop :=
  ∃ c, FitsKind kept required c ∧ c.id = id ∧
    ((∀ c', FitsKind kept required c' → c' = c) ∨
      (key.isName = false ∧ isGetter c = true ∧ ∀ c', FitsKind kept required c' → c'.filePath = c.filePath ∧
        (c' = c ∨ (isGetter c' = false ∧ isAccessor c' = true))))

def Index.Chosen (ix : Index) (p : Placeholder) (kind : EdgeKind) (source : SourceTier) (id : String) : Prop :=
  ∃ required, requiredTargetKind kind (admitsUnseen kind source p.key) = some required ∧
    SingleChoice (ix.Kept p { p.requester with engineAnswer := admitsUnseen kind source p.key }) p.key required id

open List

namespace Index

variable {ix : Index} {language x current : String}

theorem parentOf_row {key parent : String} (h : ix.parentOf language key = some parent) :
    key ∈ ix.store.containers.rows.map ContainerRow.key := by
  obtain ⟨c, hc, _⟩ := Option.bind_eq_some_iff.mp h
  have hk : c.language = language ∧ c.key = key := by simpa using find?_some hc
  exact mem_map.mpr ⟨c, mem_of_find?_eq_some hc, hk.2⟩

theorem parentChainFrom_above {fuel : Nat} {seen : List String}
    (hx : x ∈ ix.parentChainFrom language fuel current seen) : ix.Above language current x := by
  induction fuel generalizing current seen with
  | zero => exact nomatch hx
  | succ fuel ih =>
    unfold parentChainFrom at hx
    cases hp : ix.parentOf language current with
    | none =>
      rw [hp] at hx
      exact nomatch hx
    | some parent =>
      rw [hp] at hx
      dsimp only at hx
      split at hx
      next => exact nomatch hx
      next =>
        rcases mem_cons.mp hx with rfl | hx
        · exact Relation.ReflTransGen.single hp
        · exact Relation.ReflTransGen.head hp (ih hx)

/-- With fuel for the table the chain of parents comes to every container above. -/
theorem parentChainFrom_complete {fuel : Nat} {looked : List String}
    (hfuel : fuel + looked.length = ix.store.containers.rows.length) (hnodup : (current :: looked).Nodup)
    (hlooked : ∀ y ∈ looked, ∃ z ∈ current :: looked, ix.parentOf language y = some z)
    (hx : ix.Above language current x) :
    x ∈ current :: looked ∨ x ∈ ix.parentChainFrom language fuel current (current :: looked) := by
  induction fuel generalizing current looked with
  | zero =>
    rcases Relation.ReflTransGen.cases_head hx with rfl | ⟨parent, hp, _⟩
    · exact .inl mem_cons_self
    · have hsub : current :: looked ⊆ ix.store.containers.rows.map ContainerRow.key := by
        intro y hy
        rcases mem_cons.mp hy with rfl | hy
        · exact parentOf_row hp
        · obtain ⟨z, _, hz⟩ := hlooked y hy
          exact parentOf_row hz
      have hlen := (hnodup.subperm hsub).length_le
      simp only [length_cons, length_map] at hlen
      omega
  | succ fuel ih =>
    rcases Relation.ReflTransGen.cases_head hx with rfl | ⟨parent, hp, hrest⟩
    · exact .inl mem_cons_self
    · have hclosed : ∀ y ∈ current :: looked, ∃ z, z ∈ parent :: current :: looked ∧ ix.parentOf language y = some z := by
        intro y hy
        rcases mem_cons.mp hy with rfl | hy
        · exact ⟨parent, mem_cons_self, hp⟩
        · obtain ⟨z, hz, hyz⟩ := hlooked y hy
          exact ⟨z, mem_cons_of_mem _ hz, hyz⟩
      unfold parentChainFrom
      rw [hp]
      dsimp only
      split
      next hseen =>
        left
        clear ih hrest
        induction hx with
        | refl => exact mem_cons_self
        | tail _ hstep ihx =>
          obtain ⟨z, hz, hyz⟩ := hclosed _ ihx
          rw [hstep] at hyz
          cases hyz
          rcases mem_cons.mp hz with rfl | hz
          · exact hseen
          · exact hz
      next hseen =>
        rcases ih (by simp only [length_cons]; omega) (nodup_cons.mpr ⟨hseen, hnodup⟩) hclosed hrest with hx | hx
        · rcases mem_cons.mp hx with rfl | hx
          · exact .inr mem_cons_self
          · exact .inl hx
        · exact .inr (mem_cons_of_mem _ hx)

theorem mem_parentChain {origin : String} :
    x ∈ origin :: ix.parentChain language origin ↔ ix.Above language origin x := by
  constructor
  · intro hx
    rcases mem_cons.mp hx with rfl | hx
    · exact Relation.ReflTransGen.refl
    · exact parentChainFrom_above hx
  · intro hx
    have h : x ∈ [origin] ∨ x ∈ ix.parentChain language origin :=
      parentChainFrom_complete rfl (nodup_singleton origin) (fun y hy => absurd hy not_mem_nil) hx
    rcases h with h | h
    · rw [mem_singleton.mp h]
      exact mem_cons_self
    · exact mem_cons_of_mem _ h

variable {r : Requester} {c : Candidate}

theorem sees_iff {container : Option String} : ix.sees r language container ↔ ix.Sees r language container := by
  unfold sees Sees
  cases container with
  | none => simp
  | some visibleIn =>
    cases ho : r.container with
    | none => simp
    | some origin =>
      simp only [Bool.and_eq_true, decide_eq_true_eq, mem_parentChain, Option.some.injEq]
      constructor
      · exact fun h => ⟨visibleIn, origin, rfl, rfl, h.1, h.2⟩
      · rintro ⟨_, _, rfl, rfl, h⟩
        exact h

theorem visible_iff {scope : Scope} : ix.visible r scope c ↔ ix.Visible r scope c := by
  unfold visible Visible
  cases c.visibility with
  | everywhere => simp
  | file => cases scope <;> simp
  | container => exact sees_iff

theorem isDeclaration_iff {nativeKind : Option String} :
    isDeclaration nativeKind ↔ ∀ kind ∈ nonDeclarationNativeKinds, nativeKind ≠ some kind := by
  unfold isDeclaration
  cases nativeKind with
  | none => simp
  | some kind =>
    simp only [Option.any_some, Bool.not_eq_true', decide_eq_false_iff_not, ne_eq, Option.some.injEq]
    exact ⟨fun h other ho he => h (he ▸ ho), fun h hk => h kind hk rfl⟩

theorem mem_admitted {step : Step} : c ∈ ix.admitted r step ↔ ix.Answers r step c := by
  unfold admitted admits
  rw [mem_filter, mem_declared, isDeclaration_iff, Bool.or_eq_true, visible_iff, Bool.and_eq_true, Bool.not_eq_true']
  constructor
  · exact fun ⟨⟨h1, h2, h3, h4⟩, h5⟩ => ⟨h1, h2, h3, h4, h5⟩
  · exact fun h => ⟨⟨h.stored, h.declares, h.inScope, h.fits⟩, h.seen⟩

variable {scope : Scope} {name : String}

def forwardRows (ix : Index) (scope : Scope) (name : String) : List (NodeRow × Hop) :=
  (ix.reexports scope name).filterMap (fun row => (ix.hopOf name row).map (row, ·))

variable {row : NodeRow} {hop : Hop}

theorem mem_forwardRows : (row, hop) ∈ ix.forwardRows scope name ↔ ix.Forwards scope name row hop := by
  unfold forwardRows reexports
  simp only [mem_filterMap, mem_filter, Bool.and_eq_true, Option.map_eq_some_iff, Prod.mk.injEq, isReexport,
    decide_eq_true_eq]
  constructor
  · rintro ⟨_, ⟨hm, ⟨hk, hs⟩, hp⟩, _, hh, rfl, rfl⟩
    exact ⟨hm, hk, hs, hp, hh⟩
  · exact fun h => ⟨row, ⟨h.stored, ⟨h.reexport, h.inScope⟩, h.publishes⟩, hop, h.leads, rfl, rfl⟩

theorem hops_eq : ix.hops scope name = (ix.forwardRows scope name).map Prod.snd := by
  unfold hops forwardRows
  rw [map_filterMap]
  congr 1
  funext row
  cases ix.hopOf name row <;> rfl

theorem forwardRows_nodup : ((ix.forwardRows scope name).map Prod.fst).Nodup := by
  have hsub : ((ix.forwardRows scope name).map Prod.fst).Sublist (ix.reexports scope name) := by
    unfold forwardRows
    induction ix.reexports scope name with
    | nil => simp
    | cons row _ ih =>
      cases hh : ix.hopOf name row with
      | none => simpa [filterMap_cons, hh] using ih.cons row
      | some hop => simpa [filterMap_cons, hh] using ih
  have hrows : (ix.reexports scope name).Nodup := ix.store.nodes.nodup.of_map.filter _
  exact hrows.sublist hsub

theorem Forwards.position (h : ix.Forwards scope name row hop) : hop.position = Index.position row := by
  obtain ⟨t, _, ht⟩ := Option.bind_eq_some_iff.mp h.leads
  obtain ⟨key, _, rfl⟩ := Option.map_eq_some_iff.mp ht
  rfl

def keepsHop (ix : Index) (r : Requester) (scope : Scope) (name : String) (hop : Hop) : Bool :=
  (hop.named || !hop.namedShadowsGlob || !(ix.hops scope name).any (fun h => h.named && h.namedShadowsGlob)) &&
    ix.mayFollow r hop

def followedRows (ix : Index) (r : Requester) (scope : Scope) (name : String) : List (NodeRow × Hop) :=
  (ix.forwardRows scope name).filter (fun p => ix.keepsHop r scope name p.2)

theorem followed_eq : ix.followed r scope name = (ix.followedRows r scope name).map Prod.snd := by
  have hun : Hop.unshadowed (ix.hops scope name) = (ix.hops scope name).filter (fun hop =>
      hop.named || !hop.namedShadowsGlob || !(ix.hops scope name).any (fun h => h.named && h.namedShadowsGlob)) := by
    unfold Hop.unshadowed
    cases (ix.hops scope name).any (fun h => h.named && h.namedShadowsGlob) with
    | true => simp
    | false => simp
  unfold followed followedRows
  rw [hun, filter_filter, hops_eq, filter_map]
  congr 1
  apply filter_congr
  intro p _
  simp only [Function.comp_apply, keepsHop, ← hops_eq]
  rw [Bool.and_comm]

theorem mayFollow_iff : ix.mayFollow r hop ↔ ∀ c, hop.restrictedTo = some c → ix.Sees r c.1 c.2 := by
  unfold mayFollow
  cases hop.restrictedTo with
  | none => simp
  | some c =>
    simp only [Option.all_some, Option.some.injEq, sees_iff]
    exact ⟨fun h c' hc => hc ▸ h, fun h => h c rfl⟩

theorem mem_followedRows : (row, hop) ∈ ix.followedRows r scope name ↔ ix.Follows r scope name row hop := by
  have hany : (ix.hops scope name).any (fun h => h.named && h.namedShadowsGlob) = false ↔
      ∀ row' hop', ix.Forwards scope name row' hop' → hop'.named → hop'.namedShadowsGlob = false := by
    rw [hops_eq, any_eq_false]
    constructor
    · intro h row' hop' hf hn
      have hh := h hop' (mem_map.mpr ⟨_, mem_forwardRows.mpr hf, rfl⟩)
      simpa [hn] using hh
    · intro h hop' hm
      obtain ⟨p, hp, rfl⟩ := mem_map.mp hm
      have hh := h p.1 p.2 (mem_forwardRows.mp hp)
      cases hn : p.2.named with
      | false => simp
      | true => simp [hh hn]
  unfold followedRows keepsHop
  rw [mem_filter, mem_forwardRows, Bool.and_eq_true, Bool.or_eq_true, Bool.or_eq_true, Bool.not_eq_true',
    Bool.not_eq_true', hany, mayFollow_iff, or_assoc]
  exact ⟨fun h => ⟨h.1, h.2.1, h.2.2⟩, fun h => ⟨h.toForwards, h.unhidden, h.open_to⟩⟩

theorem followedRows_nodup : ((ix.followedRows r scope name).map Prod.fst).Nodup :=
  forwardRows_nodup.sublist (filter_sublist.map _)

/-- The computed test of the rows' order says that they stand in order. -/
theorem inOrder_iff : ((ix.followed r scope name).all (·.laterImportBinds) && Hop.ordered (ix.followed r scope name)) =
    true ↔ ix.InOrder r scope name := by
  have hnodup : (ix.followedRows r scope name).Nodup := followedRows_nodup.of_map
  have hpos : ∀ p ∈ ix.followedRows r scope name, p.2.position = Index.position p.1 :=
    fun p hp => (mem_followedRows.mp hp).toForwards.position
  rw [followed_eq]
  unfold Hop.ordered
  rw [Bool.and_eq_true, Bool.and_eq_true, all_eq_true, all_eq_true, decide_eq_true_iff, map_map,
    nodup_map_iff_inj_on hnodup]
  constructor
  · rintro ⟨hlater, hfile, hapart⟩
    have hhead : ∀ p ∈ ix.followedRows r scope name, some p.1.filePath =
        ((ix.followedRows r scope name).map Prod.snd).head?.map (·.position.1) := by
      intro p hp
      have h := of_decide_eq_true (hfile p.2 (mem_map.mpr ⟨p, hp, rfl⟩))
      rw [hpos p hp] at h
      exact h
    refine ⟨?_, ?_, ?_⟩
    · exact fun row hop hf => hlater hop (mem_map.mpr ⟨_, mem_followedRows.mpr hf, rfl⟩)
    · intro row hop row' hop' hf hf'
      have h1 := hhead _ (mem_followedRows.mpr hf)
      have h2 := hhead _ (mem_followedRows.mpr hf')
      exact Option.some.inj (h1.trans h2.symm)
    · intro row hop row' hop' hf hf' he
      have h := hapart _ (mem_followedRows.mpr hf) _ (mem_followedRows.mpr hf') (congrArg Prod.snd he)
      exact congrArg Prod.fst h
  · intro h
    refine ⟨?_, ?_, ?_⟩
    · intro hop hm
      obtain ⟨p, hp, rfl⟩ := mem_map.mp hm
      exact h.later p.1 p.2 (mem_followedRows.mp hp)
    · intro hop hm
      obtain ⟨p, hp, rfl⟩ := mem_map.mp hm
      cases hl : ix.followedRows r scope name with
      | nil =>
        rw [hl] at hp
        exact nomatch hp
      | cons q qs =>
        have hq : q ∈ ix.followedRows r scope name := by
          rw [hl]
          exact mem_cons_self
        have he := h.oneFile _ _ _ _ (mem_followedRows.mp hp) (mem_followedRows.mp hq)
        simp only [map_cons, head?_cons, Option.map_some, decide_eq_true_eq, Option.some.injEq]
        rw [hpos p hp, hpos q hq]
        exact he
    · intro p hp q hq he
      have hf := h.oneFile _ _ _ _ (mem_followedRows.mp hp) (mem_followedRows.mp hq)
      have hpq : p.2.position = q.2.position := by
        refine Prod.ext ?_ he
        rw [hpos p hp, hpos q hq]
        exact hf
      have hrow := h.apart _ _ _ _ (mem_followedRows.mp hp) (mem_followedRows.mp hq) hpq
      exact inj_on_of_nodup_map followedRows_nodup hp hq hrow

end Index

end GMesh
