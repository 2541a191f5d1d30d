import GMesh.Memo
import GMesh.SymbolLinks

namespace GMesh

structure Caches where
  declared : Cache Step (List Candidate) := .empty
  hops : Cache (Scope × String) (List Hop) := .empty
  visibleFrom : Cache (String × String) (List String) := .empty
  typeMembers : Cache String Bool := .empty
  provides : Cache (Step × Nat × Requester) Bool := .empty

namespace Resolver

variable (ix : Index)

def declared (step : Step) : StateM Caches (List Candidate) :=
  remember Caches.declared (fun caches c => { caches with declared := c }) step (pure (ix.declared step))

def hops (scope : Scope) (name : String) : StateM Caches (List Hop) :=
  remember Caches.hops (fun caches c => { caches with hops := c }) (scope, name) (pure (ix.hops scope name))

def visibleFrom (language origin : String) : StateM Caches (List String) :=
  remember Caches.visibleFrom (fun caches c => { caches with visibleFrom := c }) (language, origin)
    (pure (origin :: ix.parentChain language origin))

def isTypeMember (c : Candidate) : StateM Caches Bool :=
  remember Caches.typeMembers (fun caches c => { caches with typeMembers := c }) c.id (pure (ix.isTypeMember c))

variable (r : Requester)

/-- Whether a requester sees a row that is visible in one container only. -/
def sees (language : String) (container : Option String) : StateM Caches Bool :=
  match container, r.container with
  | some visibleIn, some origin =>
    if language ≠ r.language then pure false
    else do
      let chain ← visibleFrom ix r.language origin
      pure (decide (visibleIn ∈ chain))
  | _, _ => pure false

def visible (scope : Scope) (c : Candidate) : StateM Caches Bool :=
  match c.visibility with
  | .everywhere => pure true
  | .file =>
    match scope with
    | .container _ _ => pure (decide (c.filePath = r.file))
    | .file _ => pure false
  | .container => sees ix r c.language c.visibilityContainer

variable (step : Step)

/-- An engine's exact answer is admitted unseen. -/
def admits (c : Candidate) : StateM Caches Bool :=
  if r.engineAnswer && !step.2.isName then pure true else visible ix r step.1 c

def admitted : StateM Caches (List Candidate) := do
  (← declared ix step).filterM (admits ix r step)

def mayFollow (hop : Hop) : StateM Caches Bool :=
  match hop.restrictedTo with
  | some (language, container) => sees ix r language container
  | none => pure true

/-- Of the rows for a name the one that binds it: the latest that is named or provides it. -/
def laterBinding (provides : Step → StateM Caches Bool) (hops : List Hop) : StateM Caches (List Hop) :=
  if Hop.ordered hops then do
    let winner ← (Hop.latestFirst hops).findM? (fun hop => if hop.named then pure true else provides hop.target)
    pure winner.toList
  else pure hops

def bindingHops (provides : Step → StateM Caches Bool) (r : Requester) (scope : Scope) (name : String) :
    StateM Caches (List Hop) := do
  let rows ← hops ix scope name
  let followed ← (Hop.unshadowed rows).filterM (mayFollow ix r)
  if !followed.isEmpty && followed.all (·.laterImportBinds) then laterBinding provides followed else pure followed

def search (provides : Step → StateM Caches Bool) (r : Requester) (step : Step) :
    StateM Caches (List Candidate × Option (List Hop)) := do
  let found ← admitted ix r step
  match step.2 with
  | .qualifiedName _ => pure (found, none)
  | .name name =>
    if found.any (fun c => ix.rules.rebinding c.language) then do
      let bound ← bindingHops ix provides r step.1 name
      pure (if Hop.rebinds bound found then [] else found, some bound)
    else pure (found, none)

/-- The hops of a step of the frontier. A qualified name is never passed through. -/
def expand (provides : Step → StateM Caches Bool) (r : Requester) (step : Step) (computed : Option (List Hop)) :
    StateM Caches (List Hop) :=
  match step.2 with
  | .qualifiedName _ => pure []
  | .name name =>
    match computed with
    | some bound => pure bound
    | none => bindingHops ix provides r step.1 name

/-- The levels of a breadth-first walk with `left` hops, from a frontier at `depth`. -/
def walkFrom (r : Requester) : Nat → Nat → List Step → List Step → StateM Caches (List Candidate × Nat)
  | 0, depth, frontier, _ => do
    let found ← frontier.mapM (admitted ix r)
    pure (keepFirst NodeRow.id [] found.flatten, depth)
  | left + 1, depth, frontier, visited => do
    let provides := fun step => remember Caches.provides (fun caches c => { caches with provides := c }) (step, left, r) do
      let (candidates, _) ← walkFrom r left 0 [step] [step]
      pure (!candidates.isEmpty)
    let searched ← frontier.mapM (search ix provides r)
    let candidates := keepFirst NodeRow.id [] (searched.flatMap Prod.fst)
    if candidates ≠ [] then pure (candidates, depth)
    else do
      let bound ← (frontier.zip searched).mapM (fun p => expand ix provides r p.1 p.2.2)
      let next := keepFirst (fun step => step) visited (bound.flatten.map Hop.target)
      if next = [] then pure ([], 0) else walkFrom r left (depth + 1) next (next ++ visited)

/-- The visible declarations at the shallowest level that has any, with its depth. -/
def walkCapped (cap : Nat) : StateM Caches (List Candidate × Nat) :=
  walkFrom ix r cap 0 [step] [step]

def walk : StateM Caches (List Candidate × Nat) := walkCapped ix r step maxReexportDepth

/-- A qualified name's member, reached through the one head its scope re-exports. -/
def throughHead (p : Placeholder) (path : QualifiedPath) (r : Requester) : StateM Caches (List Candidate) :=
  match path.headName, path.last with
  | some head, some member => do
    let (heads, depth) ← walk ix { r with engineAnswer := false } (p.scope, .name head)
    match heads with
    | [h] =>
      if depth = 0 then pure []
      else admitted ix r (homeScope h, .qualifiedName (h.qualifiedName ++ member.sepText ++ member.name))
    | _ => pure []
  | _, _ => pure []

def resolve (p : Placeholder) (r : Requester) : StateM Caches (List Candidate) := do
  let (candidates, _) ← walk ix r (p.scope, p.key)
  if candidates ≠ [] then pure candidates
  else
    match p.key, p.keyPath with
    | .qualifiedName _, some path => throughHead ix p path r
    | _, _ => pure []

/-- Under a name, type members go when a candidate that is none was found. -/
def dropTypeMembers (key : Key) (candidates : List Candidate) : StateM Caches (List Candidate) :=
  if !key.isName || decide (candidates.length < 2) then pure candidates
  else do
    let nonMembers ← candidates.filterM (fun c => do return !(← isTypeMember ix c))
    pure (if nonMembers.isEmpty then candidates else nonMembers)

def choose (key : Key) (required : Option (List NodeKind)) (candidates : List Candidate) :
    StateM Caches (Option String) := do
  let kept ← dropTypeMembers ix key candidates
  pure (pick key required kept)

end Resolver

end GMesh
