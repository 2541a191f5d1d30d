import GMesh.Containers

namespace GMesh

/-- Where a key is looked up. A container key is unique within its language only. -/
inductive Scope
  | file (path : String)
  | container (language key : String)
  deriving DecidableEq, Repr

namespace Scope

def fromRow (kind : ScopeKind) (scope language : String) : Scope :=
  match kind with
  | .file => .file scope
  | .container => .container language scope

def containerOf (language : String) (container : Option String) : Option Scope :=
  (container.filter (fun key => decide (key ≠ ""))).map (fun key => .container language key)

def ofNode (file language : String) (container : Option String) : List Scope :=
  .file file :: (containerOf language container).toList

def holds (scope : Scope) (n : NodeRow) : Bool :=
  match scope with
  | .file path => decide (n.filePath = path)
  | .container language key => decide (n.language = language ∧ n.container = some key)

end Scope

inductive Key
  | name (text : String)
  | qualifiedName (text : String)
  deriving DecidableEq, Repr

namespace Key

def fromRow (kind : KeyKind) (key : String) : Key :=
  match kind with
  | .name => .name key
  | .qualifiedName => .qualifiedName key

def isName : Key → Bool
  | .name _ => true
  | .qualifiedName _ => false

def fits (key : Key) (n : NodeRow) : Bool :=
  match key with
  | .name text => decide (n.name = text)
  | .qualifiedName text => decide (n.qualifiedName = text)

end Key

/-- A scope and key the walk looks a declaration up at. -/
abbrev Step := Scope × Key

structure Requester where
  file : String
  container : Option String := none
  language : String
  engineAnswer : Bool := false
  deriving DecidableEq, Repr

structure Placeholder where
  id : String
  scope : Scope
  key : Key
  keyPath : Option QualifiedPath := none
  requester : Requester
  deriving DecidableEq, Repr

/-- The languages whose plugins declare a rule on their re-exports. -/
structure LinkRules where
  namedShadowsGlob : List String := []
  laterImportBinds : List String := []

def LinkRules.shadows (rules : LinkRules) (language : String) : Bool := decide (language ∈ rules.namedShadowsGlob)

def LinkRules.rebinding (rules : LinkRules) (language : String) : Bool := decide (language ∈ rules.laterImportBinds)

abbrev Candidate := NodeRow

abbrev Position := String × Int × Int

structure Hop where
  target : Step
  named : Bool
  namedShadowsGlob : Bool
  laterImportBinds : Bool
  position : Position
  restrictedTo : Option (String × Option String) := none
  deriving DecidableEq, Repr

def pendingSymbolNativeKind : String := "pending_symbol"
def reexportNativeKind : String := "reexport"
def reexportAllName : String := "*"
def defaultExportName : String := "default"
def maxReexportDepth : Nat := 8

variable (n : NodeRow)

def isPlaceholder : Bool :=
  decide (n.kind = .module ∧ n.nativeKind = some pendingSymbolNativeKind)

def isReexport : Bool := decide (n.kind = .module ∧ n.nativeKind = some reexportNativeKind)

def isDeclaration (nativeKind : Option String) : Bool :=
  !nativeKind.any (fun kind => decide (kind ∈ nonDeclarationNativeKinds))

/-- The node kinds an edge kind accepts, in order of preference. An outer `none` is no usage edge, an inner one
accepts any. -/
def linkableEdgeKinds : EdgeKind → Option (Option (List NodeKind))
  | .calls => some (some [.function])
  | .supertypeOf => some (some [.type, .function])
  | .references => some none
  | _ => none

def engineAnswerEdgeKinds : List EdgeKind := [.calls, .references]

def engineAnswerCallTargetKinds : List NodeKind := [.function, .variable, .type]

def isEngineAnswer (source : SourceTier) (key : Key) : Bool := decide (source = .semantic) && !key.isName

def requiredTargetKind (kind : EdgeKind) (engineAnswer : Bool) : Option (Option (List NodeKind)) :=
  if engineAnswer ∧ kind = .calls then some (some engineAnswerCallTargetKinds) else linkableEdgeKinds kind

/-- Whether edges on a placeholder are an engine's answer that visibility does not bind. -/
def admitsUnseen (kind : EdgeKind) (source : SourceTier) (key : Key) : Bool :=
  isEngineAnswer source key && decide (kind ∈ engineAnswerEdgeKinds)

def getterNativeKinds : List String := ["method", "getter"]
def accessorNativeKinds : List String := ["setter", "deleter"]

def isGetter (c : Candidate) : Bool := c.nativeKind.any (fun kind => decide (kind ∈ getterNativeKinds))
def isAccessor (c : Candidate) : Bool := c.nativeKind.any (fun kind => decide (kind ∈ accessorNativeKinds))

/-- One round of the scan for a getter: `none` once it is ambiguous. -/
def scanAccessor (getter : Option (Option Candidate)) (c : Candidate) : Option (Option Candidate) :=
  match getter with
  | none => none
  | some found =>
    if isGetter c then (if found.isSome then none else some (some c))
    else if isAccessor c then some found else none

/-- The getter among several accessors of one property that a qualified name found. -/
def soleAccessorGetter (key : Key) (several : List Candidate) : Option Candidate :=
  if key.isName then none
  else
    match several with
    | [] => none
    | first :: rest =>
      if rest.any (fun c => decide (c.filePath ≠ first.filePath)) then none
      else (several.foldl scanAccessor (some none)).join

/-- What linking reads: the tables of the index and the rules of its languages. -/
structure Index where
  store : Store
  rules : LinkRules

namespace Index

variable (ix : Index)

def declared (step : Step) : List Candidate :=
  ix.store.nodes.rows.filter (fun n => isDeclaration n.nativeKind && step.1.holds n && step.2.fits n)

def reexports (scope : Scope) (name : String) : List NodeRow :=
  ix.store.nodes.rows.filter (fun n =>
    isReexport n && scope.holds n && decide (n.name = name ∨ n.name = reexportAllName))

/-- The key a re-export forwards a name under, never a default through a whole module. -/
def hopKey (published name : String) (kind : KeyKind) (key : String) : Option Key :=
  if published ≠ reexportAllName then some (.fromRow kind key)
  else
    match kind with
    | .name => if name ≠ defaultExportName then some (.name name) else none
    | .qualifiedName => none

def position : Position := (n.filePath, n.startLine, n.startCol)

/-- The hop a re-export row offers. A row without a target offers none. -/
def hopOf (name : String) (n : NodeRow) : Option Hop :=
  (ix.store.targets.find? n.id).bind fun t =>
    (hopKey n.name name t.keyKind t.key).map fun key =>
      { target := (.fromRow t.scopeKind t.scope n.language, key)
        named := decide (n.name ≠ reexportAllName)
        namedShadowsGlob := ix.rules.shadows n.language
        laterImportBinds := ix.rules.rebinding n.language
        position := position n
        restrictedTo := if n.visibility = .container then some (n.language, n.visibilityContainer) else none }

def hops (scope : Scope) (name : String) : List Hop := (ix.reexports scope name).filterMap (ix.hopOf name)

/-- `SELECT parentKey FROM containers WHERE language = ? AND key = ?`. -/
def parentOf (language key : String) : Option String :=
  (ix.store.containers.rows.find? (fun c => decide (c.language = language ∧ c.key = key))).bind (·.parentKey)

def parentChainFrom (language : String) : Nat → String → List String → List String
  | 0, _, _ => []
  | fuel + 1, current, seen =>
    match ix.parentOf language current with
    | none => []
    | some parent => if parent ∈ seen then [] else parent :: parentChainFrom language fuel parent (parent :: seen)

/-- The ancestors of a container, never one twice. The table's length is fuel enough. -/
def parentChain (language key : String) : List String :=
  ix.parentChainFrom language ix.store.containers.rows.length key [key]

variable (c : Candidate)

def enclosing : List String :=
  match c.qualifiedPath.bind (fun p => p.head.map (p, ·)) with
  | none => []
  | some (path, head) =>
    let tail := (path.last.map (fun s => s.sepText ++ s.name)).getD ""
    let own := (List.range' 1 (path.segments.length - 1)).map path.suffixFrom
    let stored := (ix.store.suffixes.rows.filter (fun r => decide (r.nodeId = c.id))).map SuffixRow.suffix
    head.display :: (stored.filter (fun suffix => decide (suffix ∉ own))).filterMap (fun suffix =>
      (stripSuffix suffix tail).filter (fun parent => decide (parent ≠ "")))

def typeBeside (qualifiedName : String) : Bool :=
  ix.store.nodes.rows.any (fun n => decide (n.kind = .type ∧ n.qualifiedName = qualifiedName) &&
    (match c.container with
      | some key => decide (n.language = c.language ∧ n.container = some key)
      | none => decide (n.filePath = c.filePath)))

def isTypeMember : Bool := (ix.enclosing c).any (ix.typeBeside c)

end Index

def Position.after (a b : Position) : Bool := decide (b.2.1 < a.2.1) || (decide (b.2.1 = a.2.1) && decide (b.2.2 < a.2.2))

variable (hops : List Hop) (candidates : List Candidate)

namespace Hop

/-- A named row hides the whole-module ones where its language says so. -/
def unshadowed : List Hop :=
  if hops.any (fun h => h.named && h.namedShadowsGlob) then hops.filter (fun h => h.named || !h.namedShadowsGlob)
  else hops

def ordered : Bool :=
  hops.all (fun h => decide (some h.position.1 = hops.head?.map (·.position.1))) &&
    decide ((hops.map (·.position.2)).Nodup)

def latestFirst : List Hop :=
  hops.insertionSort (fun a b => b.position.after a.position = false)

/-- Whether the hop that binds a name is the only one and after the latest candidate of its file. -/
def rebinds : Bool :=
  match hops with
  | [hop] =>
    let beside := candidates.filter (fun c => decide (c.filePath = hop.position.1))
    !beside.isEmpty && beside.all (fun c => hop.position.after (Index.position c))
  | _ => false

end Hop

def ofKind (kind : NodeKind) : List Candidate :=
  candidates.filter (fun c => decide (c.kind = kind))

def fitting (required : Option (List NodeKind)) (candidates : List Candidate) : List Candidate :=
  match required with
  | none => candidates
  | some kinds => ((kinds.map (ofKind candidates)).find? (fun l => !l.isEmpty)).getD []

def pick (key : Key) (required : Option (List NodeKind)) (candidates : List Candidate) : Option String :=
  match fitting required candidates with
  | [] => none
  | [c] => some c.id
  | several => (soleAccessorGetter key several).map NodeRow.id

def homeScope : Scope := (Scope.containerOf n.language n.container).getD (.file n.filePath)

end GMesh
