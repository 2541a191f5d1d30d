import GMesh.BridgeAnswers

namespace GMesh

variable (config : SemanticConfig)

namespace Answers

def drop (a : Answers) (dropped : List String) : Answers :=
  { a with
    recorded := a.recorded.filter fun e => decide (e.id ∉ dropped)
    byFile := a.byFile.filter fun e => decide (e.2 ∉ dropped) }

def overloadSites (index : SdkIndex) (finished : List String) : List (String × TextPosition) :=
  finished.flatMap fun file => ((index.graph file).elim [] SdkGraph.openSites).filterMap fun site =>
    if site.kind = .overloadCall then site.replaces.map fun replaced => (replaced, site.position) else none

/-- The structural edges all of whose overload sites bound an ordinal. -/
def boundEdges (a : Answers) (index : SdkIndex) (finished : List String) : List String :=
  let sites := overloadSites index finished
  ((sites.map Prod.fst).filter fun replaced =>
    (sites.filter fun s => s.1 == replaced).all fun s => a.overloadBound.contains s).dedup

def settleOverloads (a : Answers) (index : SdkIndex) (finished : List String) : Answers :=
  let bound := a.boundEdges index finished
  let keep := (a.overloadBound.rows.filter fun b => decide (b.replaced ∈ bound)).map BoundSite.id
  let dropped := (a.overloadBound.rows.filter fun b => decide (b.replaced ∉ bound ∧ b.id ∉ keep)).map BoundSite.id
  { a.drop dropped with retract := bound ++ a.retract }

/-- The edges that sites of finished files name and no verdict is against. -/
def restored (a : Answers) (index : SdkIndex) (finished bound : List String) : List EdgeRow :=
  let named := finished.flatMap fun file => (index.graph file).elim [] fun graph =>
    (graph.openSites.filterMap OpenSite.replaces).map fun replaced => (graph, replaced)
  (keepFirst Prod.snd [] (named.filter fun n =>
    decide (n.2 ∉ bound ∧ ¬ (n.2 ∈ a.contradicted ∧ n.2 ∉ a.upheld)))).filterMap fun n => n.1.edgeAt n.2

/-- Whether a restored structural edge already says what a recorded edge says. -/
def covers (a : Answers) (resent : List EdgeRow) (e : RecordedEdge) : Bool :=
  e.toDeclaration.isNone && (resent.any fun r => r.id == e.id ||
    (r.fromId == e.fromId && r.toId == e.declaration && decide (r.kind = e.kind)) ||
    a.confirmed.any fun c => c.replaced == r.id && c.fromId == e.fromId && c.declaration == e.declaration &&
      decide (c.kind = e.kind))

def settle (a : Answers) (index : SdkIndex) (finished : List String) : Answers :=
  let b := a.settleOverloads index finished
  let resent := a.restored index finished (a.boundEdges index finished)
  { b.drop ((b.recorded.filter (b.covers resent)).map RecordedEdge.id) with resend := resent }

def addressBefore (a b : PlaceholderAddress) : Bool :=
  if a.file ≠ b.file then decide (a.file < b.file)
  else if a.scopeKind ≠ b.scopeKind then decide (a.scopeKind = .file)
  else if a.scope ≠ b.scope then decide (a.scope < b.scope)
  else if a.keyKind ≠ b.keyKind then decide (a.keyKind = .name)
  else decide (a.key ≤ b.key)

def placeholderNode (h : HeldPlaceholder) : DeclaredRecord where
  id := h.id
  kind := .module
  name := h.name
  qualifiedName := renderTarget h.target
  filePath := h.address.file
  startLine := h.range.start.line
  startCol := h.range.start.col
  endLine := h.range.stop.line
  endCol := h.range.stop.col
  language := config.language
  nativeKind := some "pending_symbol"
  target := some h.target

def recordedRow (e : RecordedEdge) : EdgeRow where
  id := e.id
  fromId := e.fromId
  toId := e.toId
  kind := e.kind
  source := .semantic
  engine := config.engine
  toDeclaration := e.toDeclaration

/-- The pass's diff: the recorded edges with their placeholders, the restored edges, and the retracted ones that are
not sent. -/
def finish (a : Answers) : IndexDiff where
  upsertNodes := ((a.placeholders.rows.filter fun h => a.recorded.any fun e => e.toId == h.id).insertionSort
    (fun h k => addressBefore h.address k.address = true)).map (placeholderNode config)
  upsertEdges := (a.recorded.insertionSort (fun e f => e.inFile ≤ f.inFile)).map (recordedRow config) ++ a.resend
  deleteEdgeIds := ((a.retract.filter fun id =>
    decide (id ∉ a.recorded.map RecordedEdge.id ∧ id ∉ a.resend.map (·.id))).dedup).insertionSort (· ≤ ·)

def retractStale (a : Answers) (remembered : String → List String) (covered : List String) (now : String → List String) :
    Answers :=
  { a with retract := (covered.flatMap fun file => (remembered file).filter fun id => decide (id ∉ now file)) ++ a.retract }

end Answers

variable (graph : SdkGraph)

def untypedSites (node name : String) : Nat :=
  graph.openSites.countP fun site =>
    decide (site.kind = .receiverCall) && site.replaces.isNone && site.fromId == node && site.name == name

variable (answered : List (String × String)) (node : DeclaredRecord)

/-- The names of a node's list with a site that was not answered, or with none. -/
def keptUntypedCalls : List String :=
  node.untypedCalls.filter fun name =>
    decide (untypedSites graph node.id name = 0 ∨ answered.count (node.id, name) < untypedSites graph node.id name)

def isTrimmed : Bool :=
  decide ((keptUntypedCalls graph answered node).length < node.untypedCalls.length)

def trimUntypedCalls (index : SdkIndex) (files : List String) (answered : List (String × String))
    (trimmed : String → List String) : List DeclaredRecord × (String → List String) :=
  (files.flatMap fun file => (index.graph file).elim [] fun graph => graph.nodes.filterMap fun node =>
      if isTrimmed graph answered node then
        some { node with untypedCalls := keptUntypedCalls graph answered node }
      else if node.untypedCalls ≠ [] ∧ node.id ∈ trimmed file then some node
      else none,
    fun file => if file ∈ files then
        (index.graph file).elim [] fun graph => (graph.nodes.filter (isTrimmed graph answered)).map (·.id)
      else trimmed file)

end GMesh
