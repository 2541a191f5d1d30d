import GMesh.IndexRows

namespace GMesh

structure TextPosition where
  line : Nat
  col : Nat
  deriving DecidableEq, Repr

def TextPosition.upTo (p q : TextPosition) : Bool := decide (p.line < q.line) || (p.line == q.line && decide (p.col ≤ q.col))

structure TextRange where
  start : TextPosition
  stop : TextPosition
  deriving DecidableEq, Repr

def TextRange.contains (r : TextRange) (p : TextPosition) : Bool := r.start.upTo p && p.upTo r.stop

/-- The size by which the innermost range is picked: lines, then columns. -/
def TextRange.span (r : TextRange) : TextPosition where
  line := r.stop.line - r.start.line
  col := if r.stop.line - r.start.line = 0 then r.stop.col - r.start.col else r.stop.col

def NodeRow.range (n : NodeRow) : TextRange where
  start := ⟨n.startLine.toNat, n.startCol.toNat⟩
  stop := ⟨n.endLine.toNat, n.endCol.toNat⟩

def DeclarationRecord.range (c : DeclarationRecord) : TextRange where
  start := ⟨c.startLine.toNat, c.startCol.toNat⟩
  stop := ⟨c.endLine.toNat, c.endCol.toNat⟩

inductive OpenSiteKind
  | receiverCall | receiverField | reference | implementation | overloadCall
  deriving DecidableEq, Repr

/-- A use site left open. `replaces` names the edge guessed there. -/
structure OpenSite where
  fromId : String
  position : TextPosition
  name : String := ""
  kind : OpenSiteKind := .receiverCall
  edgeKind : EdgeKind := .calls
  fromContainer : Option String := none
  replaces : Option String := none
  deriving DecidableEq, Repr

structure SdkGraph where
  nodes : List DeclaredRecord := []
  edges : List EdgeRow := []
  openSites : List OpenSite := []
  deriving DecidableEq, Repr

namespace SdkGraph

def nodeAt (g : SdkGraph) (id : String) : Option DeclaredRecord := g.nodes.find? (fun n => n.id == id)

def edgeAt (g : SdkGraph) (id : String) : Option EdgeRow := g.edges.find? (fun e => e.id == id)

end SdkGraph

structure FileEntry where
  path : String
  source : List Char := []
  graph : SdkGraph := {}
  deriving DecidableEq, Repr

/-- The plugin's view of the project, in path order, with core's link result. -/
structure SdkIndex where
  files : List FileEntry := []
  linked : List (String × String) := []
  ordered : (files.map FileEntry.path).Pairwise (· < ·) := by decide +kernel

/-- Whether `a` is tighter than `b`: a smaller range, on a tie not the file's node, then the smaller id. -/
def DeclaredRecord.tighter (a b : DeclaredRecord) : Bool :=
  if a.range.span = b.range.span then
    if (a.kind = .file) = (b.kind = .file) then decide (a.id < b.id) else decide (b.kind = .file)
  else a.range.span.upTo b.range.span

namespace SdkIndex

variable (index : SdkIndex)

def entry (path : String) : Option FileEntry := index.files.find? (fun f => f.path == path)

def graph (path : String) : Option SdkGraph := (index.entry path).map FileEntry.graph

def source (path : String) : Option (List Char) := (index.entry path).map FileEntry.source

def paths : List String := index.files.map FileEntry.path

def linkedTarget (edge : String) : Option String := (index.linked.find? (fun l => l.1 == edge)).map Prod.snd

def node (id : String) : Option DeclaredRecord := index.files.findSome? fun f => f.graph.nodeAt id

def nodeAt (path : String) (position : TextPosition) : Option DeclaredRecord :=
  ((index.graph path).elim [] fun g => g.nodes.filter fun n => n.range.contains position).foldl (fun best n =>
    match best with
    | none => some n
    | some held => if n.tighter held then some n else some held) none

end SdkIndex

/-- The hash that ids are made with, of the tag and the fields. -/
abbrev Digest := List String → String

def NodeKind.wireValue : NodeKind → String
  | .file => "File"
  | .module => "Module"
  | .type => "Type"
  | .function => "Function"
  | .variable => "Variable"

def EdgeKind.wireValue : EdgeKind → String
  | .defines => "DEFINES"
  | .imports => "IMPORTS"
  | .calls => "CALLS"
  | .supertypeOf => "SUPERTYPE_OF"
  | .references => "REFERENCES"
  | .exports => "EXPORTS"

variable (digest : Digest)

def nodeId (filePath : String) (kind : NodeKind) (qualifiedName : String)
    (nativeKind : Option String) : String :=
  digest ["node", filePath, kind.wireValue, qualifiedName, nativeKind.getD ""]

def edgeId (fromId : String) (kind : EdgeKind) (toId : String) (toDeclaration : Option Int) : String :=
  digest (["edge", fromId, kind.wireValue, toId] ++ toDeclaration.toList.map Int.repr)

def renderTarget (target : PlaceholderTargetRecord) : String :=
  let key := match target.keyKind with
    | .name => target.key
    | .qualifiedName => "=" ++ target.key
  match target.scopeKind with
  | .file => target.scope ++ "#" ++ key
  | .container => target.scope ++ "::" ++ key

def placeholderId (file : String) (target : PlaceholderTargetRecord) : String :=
  nodeId digest file .module (renderTarget target) (some "pending_symbol")

/-- The placeholder id and the edge id that an answer onto `target` gets. -/
def answerIds (inFile fromId : String) (kind : EdgeKind) (target : PlaceholderTargetRecord)
    (toDeclaration : Option Int) : String × String :=
  let placeholder := placeholderId digest inFile target
  (placeholder, edgeId digest fromId kind placeholder toDeclaration)

end GMesh
