import GMesh.Resolver

namespace GMesh

namespace Index

variable (ix : Index) (r : Requester)

def sees (language : String) (container : Option String) : Bool :=
  match container, r.container with
  | some visibleIn, some origin =>
    decide (language = r.language) && decide (visibleIn ∈ origin :: ix.parentChain r.language origin)
  | _, _ => false

def visible (scope : Scope) (c : Candidate) : Bool :=
  match c.visibility, scope with
  | .everywhere, _ => true
  | .file, .container _ _ => decide (c.filePath = r.file)
  | .file, .file _ => false
  | .container, _ => ix.sees r c.language c.visibilityContainer

variable (step : Step)

def admits (c : Candidate) : Bool :=
  (r.engineAnswer && !step.2.isName) || ix.visible r step.1 c

def admitted : List Candidate := (ix.declared step).filter (ix.admits r step)

def mayFollow (hop : Hop) : Bool :=
  hop.restrictedTo.all (fun c => ix.sees r c.1 c.2)

def followed (scope : Scope) (name : String) : List Hop :=
  (Hop.unshadowed (ix.hops scope name)).filter (ix.mayFollow r)

def laterBinding (provides : Step → Bool) (hops : List Hop) : List Hop :=
  if Hop.ordered hops then ((Hop.latestFirst hops).find? (fun h => h.named || provides h.target)).toList else hops

def bindingHops (provides : Step → Bool) (r : Requester) (scope : Scope) (name : String) : List Hop :=
  let rows := ix.followed r scope name
  if !rows.isEmpty && rows.all (·.laterImportBinds) then laterBinding provides rows else rows

def asksHops : Bool :=
  step.2.isName && (ix.admitted r step).any (fun c => ix.rules.rebinding c.language)

def expand (provides : Step → Bool) (r : Requester) (step : Step) : List Hop :=
  match step.2 with
  | .qualifiedName _ => []
  | .name name => ix.bindingHops provides r step.1 name

def offered (provides : Step → Bool) (r : Requester) (step : Step) : List Candidate :=
  if ix.asksHops r step && Hop.rebinds (ix.expand provides r step) (ix.admitted r step) then []
  else ix.admitted r step

def nextSteps (provides : Step → Bool) (r : Requester) (frontier visited : List Step) : List Step :=
  keepFirst (fun step => step) visited (frontier.flatMap fun step => (ix.expand provides r step).map Hop.target)

def walkFrom (r : Requester) : Nat → Nat → List Step → List Step → List Candidate × Nat
  | 0, depth, frontier, _ => (keepFirst NodeRow.id [] (frontier.flatMap (ix.admitted r)), depth)
  | left + 1, depth, frontier, visited =>
    let provides := fun step => !(walkFrom r left 0 [step] [step]).1.isEmpty
    let candidates := keepFirst NodeRow.id [] (frontier.flatMap (ix.offered provides r))
    if candidates ≠ [] then (candidates, depth)
    else
      let next := ix.nextSteps provides r frontier visited
      if next = [] then ([], 0) else walkFrom r left (depth + 1) next (next ++ visited)

def provides (cap : Nat) (step : Step) : Bool := !(ix.walkFrom r cap 0 [step] [step]).1.isEmpty

def walk : List Candidate × Nat := ix.walkFrom r maxReexportDepth 0 [step] [step]

def throughHead (p : Placeholder) (path : QualifiedPath) (r : Requester) : List Candidate :=
  match path.headName, path.last with
  | some head, some member =>
    match ix.walk { r with engineAnswer := false } (p.scope, .name head) with
    | ([h], depth) =>
      if depth = 0 then []
      else ix.admitted r (homeScope h, .qualifiedName (h.qualifiedName ++ member.sepText ++ member.name))
    | _ => []
  | _, _ => []

def resolve (p : Placeholder) (r : Requester) : List Candidate :=
  let candidates := (ix.walk r (p.scope, p.key)).1
  if candidates ≠ [] then candidates
  else
    match p.key, p.keyPath with
    | .qualifiedName _, some path => ix.throughHead p path r
    | _, _ => []

def dropTypeMembers (key : Key) (candidates : List Candidate) : List Candidate :=
  if !key.isName || decide (candidates.length < 2) then candidates
  else
    let nonMembers := candidates.filter (fun c => !ix.isTypeMember c)
    if nonMembers.isEmpty then candidates else nonMembers

def choose (key : Key) (required : Option (List NodeKind)) (candidates : List Candidate) : Option String :=
  pick key required (ix.dropTypeMembers key candidates)

end Index

open List

variable {ix : Index} {c : Candidate}

namespace Index

def typeMember (ix : Index) (id : String) : Bool := (ix.store.nodes.find? id).any ix.isTypeMember

theorem typeMember_id (hc : c ∈ ix.store.nodes) : ix.typeMember c.id = ix.isTypeMember c := by
  unfold typeMember
  rw [KeyedTable.find?_key hc]
  rfl

theorem mem_declared {step : Step} :
    c ∈ ix.declared step ↔ c ∈ ix.store.nodes ∧ isDeclaration c.nativeKind ∧ step.1.holds c ∧ step.2.fits c := by
  unfold declared
  rw [List.mem_filter, Bool.and_eq_true, Bool.and_eq_true, and_assoc]
  rfl

end Index

structure Caches.Valid (ix : Index) (c : Caches) : Prop where
  declared : c.declared.Holds ix.declared
  hops : c.hops.Holds fun k => ix.hops k.1 k.2
  visibleFrom : c.visibleFrom.Holds fun k => k.2 :: ix.parentChain k.1 k.2
  typeMembers : c.typeMembers.Holds ix.typeMember
  provides : c.provides.Holds fun k => ix.provides k.2.2 k.2.1 k.1

theorem Caches.empty_valid (ix : Index) : Caches.Valid ix {} :=
  ⟨Cache.empty_holds _, Cache.empty_holds _, Cache.empty_holds _, Cache.empty_holds _, Cache.empty_holds _⟩

namespace Resolver

theorem declared_gives (step : Step) : Gives (Caches.Valid ix) (declared ix step) (ix.declared step) :=
  Gives.remember (fun _ h => h.declared) (fun _ _ h hc => { h with declared := hc }) (.pure _)

theorem hops_gives (scope : Scope) (name : String) :
    Gives (Caches.Valid ix) (hops ix scope name) (ix.hops scope name) :=
  Gives.remember (f := fun k : Scope × String => ix.hops k.1 k.2) (fun _ h => h.hops)
    (fun _ _ h hc => { h with hops := hc }) (.pure _)

theorem visibleFrom_gives (language origin : String) :
    Gives (Caches.Valid ix) (visibleFrom ix language origin) (origin :: ix.parentChain language origin) :=
  Gives.remember (f := fun k : String × String => k.2 :: ix.parentChain k.1 k.2) (fun _ h => h.visibleFrom)
    (fun _ _ h hc => { h with visibleFrom := hc }) (.pure _)

theorem isTypeMember_gives (hc : c ∈ ix.store.nodes) :
    Gives (Caches.Valid ix) (isTypeMember ix c) (ix.isTypeMember c) := by
  have hm := Index.typeMember_id hc
  rw [← hm]
  refine .remember (fun _ h => h.typeMembers) (fun _ _ h hc => { h with typeMembers := hc }) ?_
  rw [hm]
  exact .pure _

section

variable (r : Requester)

theorem sees_gives (language : String) (container : Option String) :
    Gives (Caches.Valid ix) (sees ix r language container) (ix.sees r language container) := by
  unfold sees Index.sees
  cases container with
  | none => exact .pure false
  | some visibleIn =>
    cases r.container with
    | none => exact .pure false
    | some origin =>
      dsimp only
      by_cases he : language = r.language
      · rw [if_neg (not_not.mpr he), decide_eq_true he, Bool.true_and]
        exact .bind (visibleFrom_gives r.language origin) (.pure _)
      · rw [if_pos he, decide_eq_false he, Bool.false_and]
        exact .pure false

theorem visible_gives (scope : Scope) (c : Candidate) :
    Gives (Caches.Valid ix) (visible ix r scope c) (ix.visible r scope c) := by
  unfold visible Index.visible
  cases c.visibility with
  | everywhere => exact .pure true
  | file =>
    cases scope with
    | file path => exact .pure false
    | container language key => exact .pure _
  | container => exact sees_gives r c.language c.visibilityContainer

theorem admits_gives (step : Step) (c : Candidate) :
    Gives (Caches.Valid ix) (admits ix r step c) (ix.admits r step c) := by
  unfold admits Index.admits
  cases h : r.engineAnswer && !step.2.isName with
  | true => exact .pure true
  | false => exact visible_gives r step.1 c

theorem admitted_gives (step : Step) : Gives (Caches.Valid ix) (admitted ix r step) (ix.admitted r step) :=
  Gives.bind (declared_gives step) (.filterM fun c _ => admits_gives r step c)

theorem mayFollow_gives (hop : Hop) : Gives (Caches.Valid ix) (mayFollow ix r hop) (ix.mayFollow r hop) := by
  unfold mayFollow Index.mayFollow
  cases hop.restrictedTo with
  | none => exact .pure true
  | some c => exact sees_gives r c.1 c.2

end

section Provides

variable {provides : Step → StateM Caches Bool} {plain : Step → Bool} {r : Requester}
  (hp : ∀ step, Gives (Caches.Valid ix) (provides step) (plain step))

include hp

theorem laterBinding_gives (hops : List Hop) :
    Gives (Caches.Valid ix) (laterBinding provides hops) (Index.laterBinding plain hops) := by
  unfold laterBinding Index.laterBinding
  cases Hop.ordered hops with
  | false => exact .pure hops
  | true =>
    refine .bind (.findM? fun hop _ => ?_) (.pure _)
    cases hn : hop.named with
    | true => exact .pure true
    | false => exact hp hop.target

theorem bindingHops_gives (scope : Scope) (name : String) :
    Gives (Caches.Valid ix) (bindingHops ix provides r scope name) (ix.bindingHops plain r scope name) := by
  refine .bind (hops_gives scope name) (.bind (.filterM fun hop _ => mayFollow_gives r hop) ?_)
  show Gives _ (if !(ix.followed r scope name).isEmpty && (ix.followed r scope name).all (·.laterImportBinds) then
    laterBinding provides (ix.followed r scope name) else pure (ix.followed r scope name)) _
  unfold Index.bindingHops
  dsimp only
  split
  next => exact laterBinding_gives hp _
  next => exact .pure _

theorem expand_gives {step : Step} {computed : Option (List Hop)}
    (hc : ∀ bound, computed = some bound → bound = ix.expand plain r step) :
    Gives (Caches.Valid ix) (expand ix provides r step computed) (ix.expand plain r step) := by
  unfold expand
  cases hk : step.2 with
  | qualifiedName text =>
    have he : ix.expand plain r step = [] := by
      unfold Index.expand
      rw [hk]
    rw [he]
    exact .pure []
  | name text =>
    cases computed with
    | some bound =>
      rw [← hc bound rfl]
      exact .pure bound
    | none =>
      have he : ix.expand plain r step = ix.bindingHops plain r step.1 text := by
        unfold Index.expand
        rw [hk]
      rw [he]
      exact bindingHops_gives hp step.1 text

theorem search_gives (step : Step) :
    Gives (Caches.Valid ix) (search ix provides r step)
      (ix.offered plain r step, if ix.asksHops r step then some (ix.expand plain r step) else none) := by
  refine .bind (admitted_gives r step) ?_
  unfold Index.offered Index.asksHops
  cases hk : step.2 with
  | qualifiedName text =>
    exact .pure _
  | name text =>
    have he : ix.expand plain r step = ix.bindingHops plain r step.1 text := by
      unfold Index.expand
      rw [hk]
    cases hany : (ix.admitted r step).any (fun c => ix.rules.rebinding c.language) with
    | false =>
      exact .pure _
    | true =>
      rw [he]
      exact .bind (bindingHops_gives hp step.1 text) (.pure _)

end Provides

/-- Over valid caches the walk answers as it does without any. -/
theorem walkFrom_gives (r : Requester) (left depth : Nat) (frontier visited : List Step) :
    Gives (Caches.Valid ix) (walkFrom ix r left depth frontier visited)
      (ix.walkFrom r left depth frontier visited) := by
  induction left generalizing depth frontier visited with
  | zero =>
    refine .bind (.mapM fun step _ => admitted_gives r step) ?_
    exact .pure _
  | succ left ih =>
    have hp : ∀ step, Gives (Caches.Valid ix)
        (remember Caches.provides (fun caches c => { caches with provides := c }) (step, left, r) do
          let found ← walkFrom ix r left 0 [step] [step]
          pure (!found.1.isEmpty)) (ix.provides r left step) := by
      intro step
      exact .remember (f := fun k : Step × Nat × Requester => ix.provides k.2.2 k.2.1 k.1) (fun _ h => h.provides)
        (fun _ _ h hc => { h with provides := hc }) (.bind (ih 0 [step] [step]) (.pure _))
    refine .bind (.mapM fun step _ => search_gives hp step) ?_
    let searched := fun step => (ix.offered (ix.provides r left) r step,
      if ix.asksHops r step then some (ix.expand (ix.provides r left) r step) else none)
    have hfound : (frontier.map searched).flatMap Prod.fst = frontier.flatMap (ix.offered (ix.provides r left) r) :=
      flatMap_map searched Prod.fst frontier
    have hzip : frontier.zip (frontier.map searched) = frontier.map (fun step => (step, searched step)) := by
      have hz : (frontier.map (fun step => step)).zip (frontier.map searched) = _ := zip_map'
      rwa [map_id'] at hz
    rw [hfound, hzip]
    show Gives _ (if keepFirst NodeRow.id [] (frontier.flatMap (ix.offered (ix.provides r left) r)) ≠ [] then _ else _)
      (if keepFirst NodeRow.id [] (frontier.flatMap (ix.offered (ix.provides r left) r)) ≠ [] then _ else _)
    split
    next => exact .pure _
    next =>
      refine .bind (.mapM (g := fun p => ix.expand (ix.provides r left) r p.1) ?_) ?_
      · intro p hpm
        obtain ⟨step, _, rfl⟩ := mem_map.mp hpm
        refine expand_gives hp ?_
        intro bound hb
        dsimp only [searched] at hb
        split at hb
        next => exact (Option.some.inj hb).symm
        next => cases hb
      · have hnext : ((frontier.map (fun step => (step, searched step))).map
            (fun p => ix.expand (ix.provides r left) r p.1)).flatten.map Hop.target =
            frontier.flatMap fun step => (ix.expand (ix.provides r left) r step).map Hop.target := by
          rw [map_map, ← flatMap_def, map_flatMap]
          rfl
        rw [hnext]
        show Gives _ (if ix.nextSteps (ix.provides r left) r frontier visited = [] then _ else _)
          (if ix.nextSteps (ix.provides r left) r frontier visited = [] then _ else _)
        split
        next => exact .pure _
        next => exact ih _ _ _

theorem walk_gives (r : Requester) (step : Step) : Gives (Caches.Valid ix) (walk ix r step) (ix.walk r step) :=
  walkFrom_gives r maxReexportDepth 0 [step] [step]

theorem throughHead_gives (p : Placeholder) (path : QualifiedPath) (r : Requester) :
    Gives (Caches.Valid ix) (throughHead ix p path r) (ix.throughHead p path r) := by
  unfold throughHead Index.throughHead
  cases path.headName with
  | none => exact .pure []
  | some head =>
    cases path.last with
    | none => exact .pure []
    | some member =>
      refine .bind (walk_gives { r with engineAnswer := false } (p.scope, .name head)) ?_
      dsimp only
      generalize ix.walk { r with engineAnswer := false } (p.scope, .name head) = walked
      obtain ⟨heads, depth⟩ := walked
      match heads with
      | [] => exact .pure []
      | [h] =>
        dsimp only
        split
        next => exact .pure []
        next => exact admitted_gives r _
      | _ :: _ :: _ => exact .pure []

theorem resolve_gives (p : Placeholder) (r : Requester) :
    Gives (Caches.Valid ix) (resolve ix p r) (ix.resolve p r) := by
  refine .bind (walk_gives r (p.scope, p.key)) ?_
  unfold Index.resolve
  dsimp only
  split
  next => exact .pure _
  next =>
    cases p.key with
    | name text => exact .pure []
    | qualifiedName text =>
      cases p.keyPath with
      | none => exact .pure []
      | some path => exact throughHead_gives p path r

variable {candidates : List Candidate} (hc : ∀ c ∈ candidates, c ∈ ix.store.nodes)

include hc

theorem dropTypeMembers_gives (key : Key) :
    Gives (Caches.Valid ix) (dropTypeMembers ix key candidates) (ix.dropTypeMembers key candidates) := by
  unfold dropTypeMembers Index.dropTypeMembers
  split
  next => exact .pure candidates
  next =>
    refine .bind (.filterM fun c hm => ?_) (.pure _)
    exact .bind (isTypeMember_gives (hc c hm)) (.pure _)

end Resolver

end GMesh
