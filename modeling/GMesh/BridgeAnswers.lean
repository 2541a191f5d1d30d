import GMesh.SdkGraph
import Mathlib.Data.List.DropRight

namespace GMesh

/-- The characters that `char::is_alphanumeric` accepts. -/
abbrev Alphabet := Char → Bool

def lineText (source : List Char) (line : Nat) : List Char :=
  (((source.splitOn '\n')[line]?).map (List.rdropWhile (· == '\r'))).getD []

def occursAt (text name : List Char) (col : Nat) : Bool := decide ((text.drop col).take name.length = name)

def wordAt (word : Alphabet) (text name : List Char) (col : Nat) : Bool :=
  occursAt text name col && !(decide (0 < col) && (text[col - 1]?).any word) && !(text[col + name.length]?).any word

def columns (first last width : Nat) : List Nat := List.range' first (last + 1 - (first + width))

def lines (r : TextRange) : List Nat := List.range' r.start.line (max r.stop.line r.start.line + 1 - r.start.line)

def namePosition (source : List Char) (node : DeclaredRecord) : TextPosition :=
  let name := node.name.toList
  if name = [] then node.range.start
  else
    ((lines node.range).findSome? fun line =>
      let text := lineText source line
      let first := if line = node.range.start.line then node.range.start.col else 0
      ((columns first text.length name.length).find? (occursAt text name)).map (⟨line, ·⟩)).getD node.range.start

variable (alphanumeric : Alphabet)

def declarationNamePosition (source : List Char) (name : String)
    (declaration : DeclarationRecord) : Option TextPosition :=
  let name := name.toList
  let r := declaration.range
  if name = [] then none
  else
    (lines r).findSome? fun line =>
      let text := lineText source line
      let first := if line = r.start.line then r.start.col else 0
      let last := if line = r.stop.line then min r.stop.col text.length else text.length
      ((columns first last name.length).find? (wordAt (fun c => alphanumeric c || c == '_') text name)).map (⟨line, ·⟩)

/-- Whether the position is the first whole word of the node's name in its range. -/
def landsOnName (index : SdkIndex) (path : String) (place : TextPosition)
    (node : DeclaredRecord) : Bool :=
  let name := node.name.toList
  match index.source path with
  | none => false
  | some source =>
    !name.isEmpty && decide ((List.range' node.range.start.line (node.range.stop.line + 1 - node.range.start.line)).findSome?
      (fun line =>
        let text := lineText source line
        let first := if line = node.range.start.line then node.range.start.col else 0
        ((columns first text.length name.length).find?
          (wordAt (fun c => alphanumeric c || c == '_' || c == '$') text name)).map (TextPosition.mk line)) = some place)

/-- The nearest column where an occurrence of `written` starts and covers `col`. -/
def writtenStart (line : List Char) (col : Nat) (written : List Char) : Option Nat :=
  let lowest := col + 1 - written.length
  (List.range' lowest (col + 1 - lowest)).reverse.find? (occursAt line written)

def siteRange (source : Option (List Char)) (place : TextPosition) (written : String) : TextRange :=
  let start := ((source.bind fun s => (s.splitOn '\n')[place.line]?).bind
    fun line => writtenStart line place.col written.toList).getD place.col
  ⟨⟨place.line, start⟩, ⟨place.line, start + written.length⟩⟩

def scanParameters : List Char → Nat → Nat → Option Nat → Option (Nat × Option Nat)
  | [], _, _, _ => none
  | c :: rest, i, depth, comma =>
    if c = '(' ∨ c = '[' ∨ c = '{' then scanParameters rest (i + 1) (depth + 1) comma
    else if (c = ')' ∨ c = ']' ∨ c = '}') ∧ 0 < depth then scanParameters rest (i + 1) (depth - 1) comma
    else if c = ')' then some (i, comma)
    else if c = ',' ∧ depth = 0 ∧ comma = none then scanParameters rest (i + 1) depth (some i)
    else scanParameters rest (i + 1) depth comma

def withoutFirstParameter (text : List Char) : Option (List Char) := do
  let opened ← (List.range' 1 (text.length - 1)).find? fun i =>
    (text[i]?).any (· == '(') && (text[i - 1]?).any (fun c => alphanumeric c || c == '_')
  let (close, comma) ← scanParameters (text.drop (opened + 1)) (opened + 1) 0 none
  if close = opened + 1 then none
  else some (text.take (opened + 1) ++ (text.drop (comma.elim close (· + 1))).dropWhile (· == ' '))

/-- Whether a candidate's hover is the call's, or is without its first parameter. -/
def hoverMatches (declared call : List Char) : Bool :=
  !declared.isEmpty && !call.isEmpty &&
    (decide (declared = call) || decide (withoutFirstParameter alphanumeric declared = some call))

example : hoverMatches Char.isAlphanum "load(self: A, x: int)".toList "load(x: int)".toList = true := by decide +kernel

inductive OverloadDisambiguation
  | none | hover
  deriving DecidableEq, Repr

structure SemanticConfig where
  language : String := ""
  engine : String := ""
  implementationKinds : List String := []
  overloadDisambiguation : OverloadDisambiguation := .none
  deriving DecidableEq, Repr

structure Budgets where
  maxSites : Nat := 1000000
  concurrency : Nat := 8
  warmUp : Bool := false
  deriving DecidableEq, Repr

inductive Hovered
  | call
  | candidate (node : String) (ordinal : Int)
  deriving DecidableEq, Repr

inductive Ask
  | definition (site : OpenSite)
  | implementation (anchor : String)
  | implementor (anchor forFile : String)
  | overload (site : OpenSite)
  | overloadHover (pending : Nat) (hovered : Hovered) (forFile : String)
  deriving DecidableEq, Repr

inductive Method
  | definition | implementation | hover
  deriving DecidableEq, Repr

structure Question where
  file : String
  position : TextPosition
  ask : Ask
  deriving DecidableEq, Repr

variable (q : Question)

namespace Question

def method : Method :=
  match q.ask with
  | .definition _ | .implementor _ _ | .overload _ => .definition
  | .implementation _ => .implementation
  | .overloadHover _ _ _ => .hover

def accountedTo : String :=
  match q.ask with
  | .overloadHover _ _ forFile => forFile
  | _ => q.file

def rememberedFor : String :=
  match q.ask with
  | .implementor _ forFile => forFile
  | .overloadHover _ _ forFile => forFile
  | _ => q.file

end Question

structure Questions where
  asking : List Question := []
  unanswerable : Nat := 0
  truncated : Bool := false
  deriving DecidableEq, Repr

def isAddressable (n : NodeRow) : Bool :=
  decide (n.kind ≠ .file) &&
    !decide (n.nativeKind = some "pending_symbol" ∨ n.nativeKind = some "reexport" ∨
      n.nativeKind = some "resolved_module" ∨ n.nativeKind = some "external_module")

def isMemberOfType (nodes : List DeclaredRecord) (n : DeclaredRecord) : Bool :=
  ((n.qualifiedPath.toList ++ n.aliasPaths).filterMap QualifiedPath.head).any fun parent =>
    nodes.any fun ty => decide (ty.kind = .type) && ty.qualifiedName == parent.display

/-- Whether the linker links an edge of the kind to such a declaration by name. -/
def acceptsKind (edge : EdgeKind) (kind : NodeKind) : Bool :=
  match edge with
  | .calls => decide (kind = .function)
  | .supertypeOf => decide (kind = .type ∨ kind = .function)
  | _ => true

def declares (nodes : List DeclaredRecord) (edge : EdgeKind) (name : String) : Bool :=
  let named := nodes.filter fun n => n.name == name && isAddressable n.toNodeRow
  let keepMembers := named.all (isMemberOfType nodes)
  named.any fun n => (keepMembers || !isMemberOfType nodes n) && acceptsKind edge n.kind

/-- Whether the structural edge is a hop that the linker cannot settle. -/
def unsettledHop (index : SdkIndex) (graph : SdkGraph) (replaced : String) : Bool :=
  match graph.edgeAt replaced with
  | none => false
  | some edge =>
    match graph.nodeAt edge.toId with
    | none => false
    | some placeholder =>
      match placeholder.target with
      | none => false
      | some target =>
        decide (placeholder.nativeKind = some "pending_symbol" ∧ target.scopeKind = .file ∧ target.keyKind = .name) &&
          (index.graph target.scope).any fun declaring => !declares declaring.nodes edge.kind target.key

def overloadedNodes (index : SdkIndex) : List DeclaredRecord :=
  index.files.flatMap fun f => f.graph.nodes.filter fun n => !n.declarations.isEmpty

/-- Whether the structural edge lands on an overload set, or on a placeholder of one. -/
def targetsOverload (index : SdkIndex) (graph : SdkGraph) (replaced : String) : Bool :=
  (graph.edgeAt replaced).any fun edge =>
    (overloadedNodes index).any (fun n => n.id == edge.toId) ||
      ((graph.nodeAt edge.toId).bind (·.target)).any fun target =>
        match target.keyKind with
        | .name => (overloadedNodes index).any fun n => n.name == target.key
        | .qualifiedName => (overloadedNodes index).any fun n => n.qualifiedName == target.key

def siteAsk (index : SdkIndex) (graph : SdkGraph) (site : OpenSite) : Option Ask :=
  match site.kind, site.replaces with
  | .implementation, _ => none
  | .overloadCall, none => none
  | .overloadCall, some replaced => if targetsOverload index graph replaced then some (.overload site) else none
  | .reference, some replaced => if unsettledHop index graph replaced then some (.definition site) else none
  | _, _ => some (.definition site)

def siteKey (site : OpenSite) : String × TextPosition := (site.fromId, site.position)

def askedAsOverload (overloads : List (String × TextPosition)) (q : Question) : Bool :=
  match q.ask with
  | .definition site => decide (site.kind = .reference) && site.replaces.isSome && decide (siteKey site ∈ overloads)
  | _ => false

def siteQuestions (index : SdkIndex) (entry : FileEntry) : List Question :=
  let asked := entry.graph.openSites.filterMap fun site =>
    (siteAsk index entry.graph site).map fun ask => (⟨entry.path, site.position, ask⟩ : Question)
  let overloads := asked.filterMap fun q =>
    match q.ask with
    | .overload site => some (siteKey site)
    | _ => none
  asked.filter fun q => !askedAsOverload overloads q

def anchorQuestions (config : SemanticConfig) (entry : FileEntry) : List Question :=
  (entry.graph.nodes.filter fun n => n.nativeKind.any fun kind => config.implementationKinds.contains kind).map
    fun n => ⟨entry.path, namePosition entry.source n, .implementation n.id⟩

def fileQuestions (index : SdkIndex) (config : SemanticConfig) (entry : FileEntry) : List Question :=
  siteQuestions index entry ++ anchorQuestions config entry

/-- The questions of the files in scope order, up to the last whole file under the ceiling, but always of the first.
-/
def planFiles (index : SdkIndex) (config : SemanticConfig) (budgets : Budgets) : List String → Questions → Questions
  | [], plan => plan
  | path :: rest, plan =>
    match index.entry path with
    | none => planFiles index config budgets rest plan
    | some entry =>
      let forFile := fileQuestions index config entry
      let skipped := entry.graph.openSites.countP fun site => decide (site.kind = .implementation)
      if plan.asking.length + forFile.length ≤ budgets.maxSites ∨ (plan.asking = [] ∧ 0 < budgets.maxSites) then
        planFiles index config budgets rest
          { plan with asking := plan.asking ++ forFile, unanswerable := plan.unanswerable + skipped }
      else { plan with truncated := true }

def questions (index : SdkIndex) (scope : List String) (config : SemanticConfig) (budgets : Budgets) : Questions :=
  planFiles index config budgets scope {}

/-- What the bridge knows of its server: ids, the alphabet of words, where a URI is and how columns are counted. -/
structure ServerView where
  digest : Digest
  alphanumeric : Alphabet
  relative : String → Option String
  toWireColumn : List Char → Nat → Nat

structure ServerLocation where
  uri : String
  line : Nat
  column : Nat
  deriving DecidableEq, Repr

structure ServerAnswer where
  locations : List ServerLocation := []
  hover : Option (List Char) := none
  deriving DecidableEq, Repr

def Question.isEmptyAnswer (answer : ServerAnswer) : Bool :=
  match q.ask with
  | .overloadHover _ _ _ => answer.hover.isNone
  | _ => answer.locations.isEmpty

def addressOf (node : DeclaredRecord) (fromContainer : Option String) : PlaceholderTargetRecord where
  scopeKind := if node.container.isSome then .container else .file
  scope := node.container.getD node.filePath
  keyKind := .qualifiedName
  key := node.qualifiedName
  fromContainer := fromContainer
  keyPath := node.qualifiedPath

structure Landing where
  path : String
  node : DeclaredRecord
  location : ServerLocation
  deriving DecidableEq, Repr

inductive Choice
  | bound (ordinal : Int)
  | unbound
  | hover (candidates : List Int)
  deriving DecidableEq, Repr

namespace ServerView

variable (v : ServerView) (index : SdkIndex) (l : ServerLocation)

def fileAt : Option String := (v.relative l.uri).filter fun path => (index.entry path).isSome

def wirePosition (path : String) (l : ServerLocation) : TextPosition where
  line := l.line
  col := v.toWireColumn (lineText ((index.source path).getD []) l.line) l.column

def nodeAt (l : ServerLocation) : Option Landing :=
  (v.fileAt index l).bind fun path =>
    ((index.nodeAt path (v.wirePosition index path l)).filter fun n => isAddressable n.toNodeRow).map
      fun n => ⟨path, n, l⟩

def landsOnName (l : Landing) : Bool :=
  GMesh.landsOnName v.alphanumeric index l.path (v.wirePosition index l.path l.location) l.node

def agreed : List Landing → Option Landing
  | [] => none
  | first :: rest => if rest.all fun l => l.node.id == first.node.id then some first else none

/-- The one node of an answer, by the locations at their node's own name. -/
def namedLanding (found : List ServerLocation) : Option Landing :=
  agreed ((found.filterMap (v.nodeAt index)).filter (v.landsOnName index))

/-- What a definition answer points at. Locations that disagree are read again by name. -/
def definitionTarget (site : OpenSite) (found : List ServerLocation) : Option Landing :=
  let landed := found.filterMap (v.nodeAt index)
  if landed = [] then none
  else
    match agreed landed with
    | some target => some target
    | none => if site.edgeKind = .calls then v.namedLanding index found else none

variable (file : String)

/-- Whether a landing is the referrer, or a node of the file that contains the site. -/
def encloses (site : OpenSite) (l : Landing) : Bool :=
  l.node.id == site.fromId || (l.path == file && l.node.range.contains site.position)

def definitionLanding (site : OpenSite) (found : List ServerLocation) : Option Landing :=
  (v.definitionTarget index site found).filter fun l =>
    (!encloses file site l && (decide (site.edgeKind ≠ .calls) || decide (l.node.kind = .function))) ||
      v.landsOnName index l

def tighterDeclaration (a b : DeclaredRecord × DeclarationRecord) : Bool :=
  if a.2.range.span = b.2.range.span then
    if a.1.id = b.1.id then decide (a.2.ordinal < b.2.ordinal) else decide (a.1.id < b.1.id)
  else a.2.range.span.upTo b.2.range.span

def declarationAt : Option (Landing × Int) :=
  (v.fileAt index l).bind fun path =>
    let place := v.wirePosition index path l
    let held := ((index.graph path).elim [] SdkGraph.nodes).flatMap fun n =>
      if isAddressable n.toNodeRow then
        (n.declarations.filter fun c => c.range.contains place).map fun c => (n, c)
      else []
    (held.foldl (fun best c =>
      match best with
      | none => some c
      | some b => if tighterDeclaration c b then some c else some b) none).map fun c => (⟨path, c.1, l⟩, c.2.ordinal)

def overloadAt : Option (Landing × Option Int) :=
  match v.declarationAt index l with
  | some (landing, ordinal) => some (landing, some ordinal)
  | none => (v.nodeAt index l).map fun landing => (landing, none)

/-- The one node of all locations, with the ordinals of the declarations they land in. -/
def overloadLanding (found : List ServerLocation) : Option (Landing × List Int) :=
  let landed := found.filterMap (v.overloadAt index)
  (agreed (landed.map Prod.fst)).map fun l => (l, ((landed.filterMap Prod.snd).dedup).insertionSort (· ≤ ·))

/-- Whether an overload answer agrees with the structural edge its site refines. -/
def refines (site : OpenSite) (replaced : String) (node : DeclaredRecord) : Bool :=
  (index.graph file).any fun graph => (graph.edgeAt replaced).any fun edge =>
    edge.toId == node.id ||
      (answerIds v.digest file site.fromId site.edgeKind (addressOf node site.fromContainer) none).2 == replaced ||
      ((graph.nodeAt edge.toId).bind (·.target)).any fun target =>
        match target.keyKind with
        | .name => target.key == node.name
        | .qualifiedName => target.key == node.qualifiedName

def untypedCallAnswered (site : OpenSite) (found : List ServerLocation) (recorded : Bool) : Bool :=
  decide (site.kind = .receiverCall) && site.replaces.isNone && !found.isEmpty &&
    (recorded || found.all fun l => (v.fileAt index l).isNone)

end ServerView

def supertypeReaches (index : SdkIndex) (path fromId : String) (anchor : DeclaredRecord) : Bool :=
  let address := addressOf anchor none
  (index.graph path).any fun graph => graph.edges.any fun edge =>
    decide (edge.kind = .supertypeOf) && edge.fromId == fromId &&
      (edge.toId == anchor.id || index.linkedTarget edge.id == some anchor.id ||
        ((index.linkedTarget edge.id).isNone && graph.nodes.any fun n =>
          n.id == edge.toId && n.nativeKind == some "pending_symbol" && n.target.any fun target =>
            decide (target.scopeKind = address.scopeKind ∧ target.scope = address.scope ∧ target.keyKind = .name) &&
              target.key == anchor.qualifiedName))


/-- The one bindable ordinal binds; several go to `hover` where that is allowed. Beside bodiless declarations one with
a body is not bindable. -/
def chooseOverload (node : DeclaredRecord) (ordinals : List Int) (disambiguation : OverloadDisambiguation) : Choice :=
  let stubs := node.declarations.any fun c => !c.hasBody
  let bindable := fun ordinal => (node.declarations.find? fun c => c.ordinal == ordinal).any fun c => !(stubs && c.hasBody)
  match ordinals with
  | [] => .unbound
  | [ordinal] => if bindable ordinal then .bound ordinal else .unbound
  | _ =>
    if disambiguation = .hover ∧ ordinals.filter bindable ≠ [] then .hover (ordinals.filter bindable) else .unbound

structure PlaceholderAddress where
  file : String
  scopeKind : ScopeKind
  scope : String
  keyKind : KeyKind
  key : String
  deriving DecidableEq, Repr

def addressKey (file : String) (target : PlaceholderTargetRecord) : PlaceholderAddress :=
  ⟨file, target.scopeKind, target.scope, target.keyKind, target.key⟩

/-- The node one address gets, and the use site whose name and range it shows. -/
structure HeldPlaceholder where
  address : PlaceholderAddress
  id : String
  target : PlaceholderTargetRecord
  name : String
  range : TextRange
  deriving DecidableEq, Repr

def witnessBefore (name : String) (range : TextRange) (held : HeldPlaceholder) : Bool :=
  if range.start ≠ held.range.start then range.start.upTo held.range.start
  else if range.stop ≠ held.range.stop then range.stop.upTo held.range.stop
  else decide (name < held.name)

structure RecordedEdge where
  id : String
  inFile : String
  fromId : String
  kind : EdgeKind
  toId : String
  declaration : String
  toDeclaration : Option Int
  deriving DecidableEq, Repr

structure OverloadLanding where
  file : String
  site : OpenSite
  nodeId : String
  nodeName : String
  address : PlaceholderTargetRecord
  range : TextRange
  deriving DecidableEq, Repr

structure PendingOverload where
  landing : OverloadLanding
  candidates : List Int
  call : Option (List Char) := none
  waiting : Nat
  deriving DecidableEq, Repr

structure BoundSite where
  replaced : String
  position : TextPosition
  id : String
  deriving DecidableEq, Repr

structure Confirmed where
  replaced : String
  fromId : String
  kind : EdgeKind
  declaration : String
  deriving DecidableEq, Repr

structure Answers where
  placeholders : KeyedTable HeldPlaceholder.address := ∅
  recorded : List RecordedEdge := []
  seen : List String := []
  byFile : List (String × String) := []
  retract : List String := []
  confirmed : List Confirmed := []
  contradicted : List String := []
  upheld : List String := []
  resend : List EdgeRow := []
  untypedAnswered : List (String × String) := []
  overloadBound : KeyedTable (fun b : BoundSite => (b.replaced, b.position)) := ∅
  pending : List (Option PendingOverload) := []
  hovers : String × Int → Option (List Char) := fun _ => none

namespace Answers

def emittedFor (a : Answers) (file : String) : List String := (a.byFile.filter fun e => e.1 == file).map Prod.snd

variable (v : ServerView)

/-- The placeholder of an address, which shows the earliest of its sites. -/
def holdPlaceholder (a : Answers) (inFile name : String) (range : TextRange)
    (target : PlaceholderTargetRecord) : KeyedTable HeldPlaceholder.address × String :=
  let key := addressKey inFile target
  match a.placeholders.find? key with
  | some held =>
    (if witnessBefore name range held then a.placeholders.put { held with name := name, range := range }
      else a.placeholders, held.id)
  | none =>
    let id := placeholderId v.digest inFile target
    (a.placeholders.put ⟨key, id, target, name, range⟩, id)

/-- One answer: the placeholder of its target and the edge onto it, remembered against `forFile`. -/
def record (a : Answers) (forFile inFile fromId : String) (kind : EdgeKind) (name : String)
    (range : TextRange) (target : PlaceholderTargetRecord) (declaration : String) (toDeclaration : Option Int) :
    Answers × String :=
  let held := a.holdPlaceholder v inFile name range target
  let id := edgeId v.digest fromId kind held.2 toDeclaration
  if id ∈ a.seen then ({ a with placeholders := held.1 }, id)
  else
    ({ a with
      placeholders := held.1
      seen := id :: a.seen
      recorded := a.recorded ++ [⟨id, inFile, fromId, kind, held.2, declaration, toDeclaration⟩]
      byFile := a.byFile ++ [(forFile, id)] }, id)

/-- What one overload answer concluded. An unbound call leaves its structural edge. -/
def conclude (a : Answers) (l : OverloadLanding) (ordinal : Option Int) : Answers :=
  if l.site.kind = .overloadCall ∧ ordinal = none then a
  else
    let (b, id) := a.record v l.file l.file l.site.fromId l.site.edgeKind l.nodeName l.range l.address l.nodeId ordinal
    match l.site.kind, l.site.replaces with
    | .overloadCall, some replaced =>
      { b with overloadBound := b.overloadBound.put ⟨replaced, l.site.position, id⟩ }
    | _, _ => b

variable (index : SdkIndex)

/-- The hover questions at candidates that have none yet, and those with nowhere to ask. -/
def candidateHovers (a : Answers) (node : DeclaredRecord) (nodeFile forFile : String)
    (candidates : List Int) : List (Int × Option Question) :=
  (candidates.filter fun ordinal => (a.hovers (node.id, ordinal)).isNone).map fun ordinal =>
    (ordinal, ((node.declarations.find? fun c => c.ordinal == ordinal).bind
      (declarationNamePosition v.alphanumeric ((index.source nodeFile).getD []) node.name)).map fun position =>
        ⟨nodeFile, position, .overloadHover a.pending.length (.candidate node.id ordinal) forFile⟩)

/-- Binds an answer on a node's declarations, leaves it unbound, or asks the hovers that decide. -/
def bindOverload (config : SemanticConfig) (index : SdkIndex) (a : Answers) (l : OverloadLanding)
    (node : DeclaredRecord) (nodeFile : String) (ordinals : List Int) : Answers × List Question :=
  match chooseOverload node ordinals config.overloadDisambiguation with
  | .bound ordinal => (a.conclude v l (some ordinal), [])
  | .unbound => (a.conclude v l none, [])
  | .hover candidates =>
    let hovers := a.candidateHovers v index node nodeFile l.file candidates
    let nowhere := (hovers.filter fun h => h.2.isNone).map Prod.fst
    let again := ⟨l.file, l.site.position, .overloadHover a.pending.length .call l.file⟩ :: hovers.filterMap Prod.snd
    ({ a with
      hovers := fun k => if k.1 = node.id ∧ k.2 ∈ nowhere then some [] else a.hovers k
      pending := a.pending ++ [some ⟨l, candidates, none, again.length⟩] }, again)

def matching (a : Answers) (p : PendingOverload) : Option Int :=
  match p.candidates.filter fun ordinal =>
      (a.hovers (p.landing.nodeId, ordinal)).any fun declared => hoverMatches v.alphanumeric declared (p.call.getD []) with
  | [one] => some one
  | _ => none

def hovered (a : Answers) (pending : Nat) (hover : Hovered) (text : Option (List Char)) : Answers :=
  match a.pending[pending]? with
  | some (some p) =>
    let p := match hover with
      | .call => { p with call := some (text.getD []) }
      | .candidate _ _ => p
    let p := { p with waiting := p.waiting - 1 }
    let a := match hover with
      | .call => a
      | .candidate node ordinal => { a with hovers := Function.update a.hovers (node, ordinal) (some (text.getD [])) }
    if 0 < p.waiting then { a with pending := a.pending.set pending (some p) }
    else { a with pending := a.pending.set pending none }.conclude v p.landing (a.matching v p)
  | _ => a

def recordImplementor (a : Answers) (anchor forFile : String) (l : ServerLocation) :
    Option Answers :=
  (index.node anchor).bind fun anchorNode => (v.nodeAt index l).bind fun landing =>
    if landing.node.id = anchorNode.id then some a
    else if landing.node.kind ≠ .type then none
    else if supertypeReaches index landing.path landing.node.id anchorNode then some a
    else some (a.record v forFile landing.path landing.node.id .supertypeOf anchorNode.name
      (siteRange none landing.node.range.start anchorNode.name) (addressOf anchorNode landing.node.container)
      anchorNode.id none).1

/-- What an implementation answer records, and the second hops where it met no declaration. -/
def recordImplementors (v : ServerView) (index : SdkIndex) (anchor file : String) :
    List ServerLocation → Answers → Answers × List Question
  | [], a => (a, [])
  | l :: rest, a =>
    match a.recordImplementor v index anchor file l with
    | some b => recordImplementors v index anchor file rest b
    | none =>
      let (b, again) := recordImplementors v index anchor file rest a
      match v.fileAt index l with
      | none => (b, again)
      | some path => (b, ⟨path, v.wirePosition index path l, .implementor anchor file⟩ :: again)

def overloadLandingOf (file : String) (site : OpenSite) (node : DeclaredRecord) : OverloadLanding where
  file := file
  site := site
  nodeId := node.id
  nodeName := node.name
  address := addressOf node site.fromContainer
  range := siteRange (index.source file) site.position site.name

/-- Whether the answer is the structural edge's target, or what core linked it onto, or would get its id. -/
def agreesWith (file : String) (site : OpenSite) (node : DeclaredRecord)
    (replaced : String) : Bool :=
  ((index.graph file).bind fun g => g.edgeAt replaced).any (fun e => e.toId == node.id) ||
    index.linkedTarget replaced == some node.id ||
    (answerIds v.digest file site.fromId site.edgeKind (addressOf node site.fromContainer) none).2 == replaced

def recordDefinition (a : Answers) (file : String) (site : OpenSite)
    (found : List ServerLocation) : Answers :=
  let a := if v.untypedCallAnswered index site found (v.definitionTarget index site found).isSome then
    { a with untypedAnswered := (site.fromId, site.name) :: a.untypedAnswered } else a
  match v.definitionLanding index file site found with
  | none => { a with upheld := site.replaces.toList ++ a.upheld }
  | some l =>
    if site.replaces.any (agreesWith v index file site l.node) then
      { a with
        upheld := site.replaces.toList ++ a.upheld
        confirmed := a.confirmed ++ site.replaces.toList.map fun r => ⟨r, site.fromId, site.edgeKind, l.node.id⟩ }
    else
      let b := (a.record v file file site.fromId site.edgeKind l.node.name
        (siteRange (index.source file) site.position site.name) (addressOf l.node site.fromContainer) l.node.id none).1
      { b with
        contradicted := site.replaces.toList ++ b.contradicted
        retract := site.replaces.toList ++ b.retract }

end Answers

def recordAnswer (v : ServerView) (config : SemanticConfig) (index : SdkIndex) (a : Answers) (q : Question)
    (answer : ServerAnswer) : Answers × List Question :=
  match q.ask with
  | .definition site =>
    match (v.overloadLanding index answer.locations).filter fun l =>
        decide (site.kind = .receiverCall) && site.replaces.isNone && !l.1.node.declarations.isEmpty with
    | some (l, ordinals) =>
      { a with untypedAnswered := (site.fromId, site.name) :: a.untypedAnswered }.bindOverload v config index
        (Answers.overloadLandingOf index q.file site l.node) l.node l.path ordinals
    | none => (a.recordDefinition v index q.file site answer.locations, [])
  | .implementation anchor => Answers.recordImplementors v index anchor q.file answer.locations a
  | .implementor anchor forFile =>
    (answer.locations.foldl (fun a l => (a.recordImplementor v index anchor forFile l).getD a) a, [])
  | .overload site =>
    match (v.overloadLanding index answer.locations).filter fun l =>
        site.replaces.any fun replaced => v.refines index q.file site replaced l.1.node with
    | some (l, ordinals) =>
      a.bindOverload v config index (Answers.overloadLandingOf index q.file site l.node) l.node l.path ordinals
    | none => (a, [])
  | .overloadHover pending hover _ => (a.hovered v pending hover answer.hover, [])

end GMesh
