import GMesh.SymbolLinkDiff

namespace GMesh

structure WireDeclaration where
  startLine : Int := 0
  startCol : Int := 0
  endLine : Int := 0
  endCol : Int := 0
  signature : Option String := none
  hasBody : Bool := false
  deriving DecidableEq, Repr

structure WireNode extends NodeRecord where
  declarations : Option (List WireDeclaration) := none
  deriving DecidableEq, Repr

structure FileGraph where
  nodes : List WireNode := []
  edges : List EdgeRow := []
  deriving DecidableEq, Repr

variable (g : FileGraph)

namespace FileGraph

def nodeAt (id : String) : Option WireNode := lastWhere (fun n => decide (n.id = id)) g.nodes

def edgeAt (id : String) : Option EdgeRow := lastWhere (fun e => decide (e.id = id)) g.edges

end FileGraph

/-- The answer to a `fileChanged`, with whether its upserts are the whole file. -/
structure FileChangeDiff extends Diff where
  complete : Bool := false
  deriving DecidableEq, Repr

def FileGraph.changedNodes (other : FileGraph) : List WireNode :=
  g.nodes.filter (fun n => decide (other.nodeAt n.id ≠ some n))

def FileGraph.changedEdges (other : FileGraph) : List EdgeRow :=
  g.edges.filter (fun e => decide (other.edgeAt e.id ≠ some e))

def diffFile (previous : Option FileGraph) (next : FileGraph) : FileChangeDiff where
  deleteNodeIds := ((previous.getD {}).changedNodes next).map (·.id)
  upsertNodes := (next.changedNodes (previous.getD {})).map WireNode.toNodeRecord
  deleteEdgeIds := ((previous.getD {}).changedEdges next).map (·.id)
  upsertEdges := next.changedEdges (previous.getD {})
  complete := previous.isNone

inductive FileScope
  | partialDiff | complete | gone
  deriving DecidableEq, Repr

abbrev LanguagePath := String × String

structure LinkedFileDiff where
  goneImporters : List String := []
  waitingImporters : List LanguagePath := []
  deriving DecidableEq, Repr

variable (s : Store) (path : String) (ids : ContainerIds) (rules : LinkRules) (scope : FileScope) (d : Diff)

namespace Store

def fileNodeIds : List String :=
  ((s.nodes.rows.filter (fun n => decide (n.filePath = path))).map (·.id)).insertionSort (· ≤ ·)

def fileEdges : List EdgeRow :=
  (s.edges.rows.filter (fun e => decide (e.fromId ∈ s.fileNodeIds path))).insertionSort (fun e f => e.id ≤ f.id)

def removedNodeIds : List String :=
  (s.fileNodeIds path).filter (fun id => decide (id ∉ d.upsertNodes.map (·.id)))

/-- The file's stored edges that the diff does not upsert. Of a file that stays, semantic ones stay with their nodes.
-/
def removedEdgeIds : List String :=
  ((s.fileEdges path).filter (fun e => decide (e.id ∉ d.upsertEdges.map (·.id)) &&
    !decide (scope = .complete ∧ e.source = .semantic ∧ e.fromId ∉ s.removedNodeIds path d))).map (·.id)

def widen : Diff :=
  if scope = .partialDiff then d
  else
    { d with
      deleteEdgeIds := d.deleteEdgeIds ++
        (s.removedEdgeIds path scope d).filter (fun id => decide (id ∉ d.deleteEdgeIds))
      deleteNodeIds := d.deleteNodeIds ++
        (s.removedNodeIds path d).filter (fun id => decide (id ∉ d.deleteNodeIds)) }

def fileNodes : List NodeRow :=
  s.nodes.rows.filter (fun n => decide (n.filePath = path ∧ n.kind = .file))

/-- The languages of an importing node: those of its file's `File` nodes, or its own. -/
def importerLanguages (n : NodeRow) : List String :=
  match s.fileNodes n.filePath with
  | [] => [n.language]
  | files => files.map (·.language)

def importersOnto (targets : List String) : List LanguagePath :=
  let rows := (s.edges.rows.filter (fun e => decide (e.toId ∈ targets ∧ e.kind = .imports))).filterMap
    (fun e => (s.nodes.find? e.fromId).filter (fun n => decide (n.filePath ≠ path ∧ n.filePath ≠ "")))
  let importers := rows.flatMap (fun n => (s.importerLanguages n).map (·, n.filePath))
  (keySet (importers.map Prod.swap)).map Prod.swap

def importersOf : Option (String × List LanguagePath) :=
  (s.fileNodes path).head?.map fun file =>
    (file.language, s.importersOnto path ((s.fileNodes path).map (·.id)))

def waitingImporters : List LanguagePath :=
  s.importersOnto path
    ((s.targets.rows.filter (fun t => decide (t.scopeKind = .file ∧ t.scope = path))).map (·.nodeId) ++
      (s.alsoScopes.rows.filter (fun r => decide (r.scope = path))).map (·.nodeId))

def linkApplied : Store := ((s.linkDiffImports d).linkDiff rules d).1

def applyAndLink (s : Store) (d : Diff) : Store :=
  (s.applyDiff ids d).linkApplied rules d

/-- Commits and links one file's diff. Of a gone file the importers of its language are handed back. -/
def applyFileDiffLinked (s : Store) (d : Diff) (path : String)
    (scope : FileScope) : Store × LinkedFileDiff :=
  (s.applyAndLink ids rules (s.widen path scope d),
    if scope = .gone then
      match s.importersOf path with
      | none => {}
      | some (language, importers) => { goneImporters := (importers.filter (fun i => decide (i.1 = language))).map (·.2) }
    else { waitingImporters := s.waitingImporters path })

end Store

end GMesh
