import GMesh.FileDiff
import GMesh.LanguageSwap

namespace GMesh

open List Option

structure DeclarationRecord where
  ordinal : Int
  startLine : Int := 0
  startCol : Int := 0
  endLine : Int := 0
  endCol : Int := 0
  signature : Option String := none
  hasBody : Bool := false
  deriving DecidableEq, Repr

/-- A node record with the declarations that go to their own table. -/
structure DeclaredRecord extends NodeRecord where
  declarations : List DeclarationRecord := []
  deriving DecidableEq, Repr

structure IndexDiff where
  upsertNodes : List DeclaredRecord := []
  deleteNodeIds : List String := []
  upsertEdges : List EdgeRow := []
  deleteEdgeIds : List String := []
  deriving DecidableEq, Repr

def IndexDiff.toDiff (d : IndexDiff) : Diff where
  upsertNodes := d.upsertNodes.map DeclaredRecord.toNodeRecord
  deleteNodeIds := d.deleteNodeIds
  upsertEdges := d.upsertEdges
  deleteEdgeIds := d.deleteEdgeIds

def declarationRow (id : String) (c : DeclarationRecord) : DeclarationRow where
  nodeId := id
  ordinal := c.ordinal
  startLine := c.startLine
  startCol := c.startCol
  endLine := c.endLine
  endCol := c.endCol
  signature := c.signature
  hasBody := c.hasBody

theorem IndexDiff.eq_empty {d : IndexDiff} (hd : d.toDiff.isEmpty) : d = {} := by
  have hempty := Diff.eq_empty hd
  cases d
  simpa [IndexDiff.toDiff] using hempty

def KeyedTable.insert? {κ ρ : Type} [DecidableEq κ] {key : ρ → κ} (t : KeyedTable key) (r : ρ) :
    Option (KeyedTable key) :=
  if t.contains (key r) then none else some (t.put r)

def DeclarationTable.without (t : DeclarationTable) (id : String) : DeclarationTable :=
  t.filter (fun r => decide (r.nodeId ≠ id))

def replaceDeclarations (t : DeclarationTable) (n : DeclaredRecord) : Option DeclarationTable :=
  n.declarations.foldlM (fun t c => t.insert? (declarationRow n.id c)) (DeclarationTable.without t n.id)

namespace IndexFile

def deleteNode (f : IndexFile) (id : String) : IndexFile where
  toStore := f.toStore.deleteNode id
  declarations := DeclarationTable.without f.declarations id

def deleteNamed (d : Diff) (f : IndexFile) (id : String) : IndexFile where
  toStore := f.toStore.deleteNamed d id
  declarations := DeclarationTable.without f.declarations id

def upsertNode (f : IndexFile) (n : DeclaredRecord) : Option IndexFile :=
  (replaceDeclarations f.declarations n).map fun declarations =>
    { toStore := f.toStore.upsertNode n.toNodeRecord, declarations }

def writeRows (f : IndexFile) (d : IndexDiff) : Option IndexFile :=
  let pruned := d.deleteNodeIds.foldl (deleteNamed d.toDiff)
    { f with toStore := d.deleteEdgeIds.foldl Store.deleteEdge f.toStore }
  (d.upsertNodes.foldlM upsertNode pruned).map fun g =>
    { g with toStore := d.upsertEdges.foldl Store.upsertEdge g.toStore }

def recount (ids : ContainerIds) (f : IndexFile) (key : ContainerKey) : IndexFile where
  toStore := f.toStore.recount ids key
  declarations := if f.definesCount (ids.containerId key) = 0 then
    DeclarationTable.without f.declarations (ids.containerId key) else f.declarations

def attach (ids : ContainerIds) (f : IndexFile) (p : Pending) : IndexFile :=
  p.touched.foldl (recount ids)
    { f with toStore := (p.members.foldl (Store.attachMember ids) f.toStore).applyParents p.parents }

def writeDiff (ids : ContainerIds) (f : IndexFile) (d : IndexDiff) : Option IndexFile :=
  match f.toStore.detach ids d.toDiff with
  | (detached, some pending) => (writeRows { f with toStore := detached } d).map fun g => g.attach ids pending
  | (detached, none) => writeRows { f with toStore := detached } d

def applyDiff (ids : ContainerIds) (f : IndexFile) (d : IndexDiff) : Option IndexFile :=
  if d.toDiff.isEmpty then some f else f.writeDiff ids d

def keeps (f : IndexFile) (d : IndexDiff) (n : DeclaredRecord) : Bool := f.toStore.keeps d.toDiff n.toNodeRecord

def insertedPart (f : IndexFile) (d : IndexDiff) : IndexDiff :=
  { d with upsertNodes := d.upsertNodes.filter (fun n => !f.keeps d n) }

def keptPart (f : IndexFile) (d : IndexDiff) : List DeclaredRecord := d.upsertNodes.filter (f.keeps d)

def replaceUntypedCalls (f : IndexFile) (n : DeclaredRecord) : IndexFile :=
  { f with toStore := f.toStore.replaceUntypedCalls n.toNodeRecord }

/-- A node already stored keeps its row and takes only its untyped calls. -/
def applySemanticDiff (ids : ContainerIds) (f : IndexFile) (d : IndexDiff) : Option IndexFile :=
  if d.toDiff.isEmpty then some f
  else (f.applyDiff ids (f.insertedPart d)).map fun g => (f.keptPart d).foldl replaceUntypedCalls g

/-- Adds the deletes that the scope implies for the file's stored rows. -/
def widen (f : IndexFile) (path : String) (scope : FileScope) (d : IndexDiff) : IndexDiff :=
  { d with
    deleteNodeIds := (f.toStore.widen path scope d.toDiff).deleteNodeIds
    deleteEdgeIds := (f.toStore.widen path scope d.toDiff).deleteEdgeIds }

def linkImport (f : IndexFile) (p : ImportPlaceholder) : IndexFile :=
  match f.toStore.importTarget p with
  | none => f
  | some target =>
    let repointed := { f with toStore := f.toStore.repointImports p.id target }
    if repointed.incident p.id then repointed else repointed.deleteNode p.id

def linkDiffImports (f : IndexFile) (d : IndexDiff) : IndexFile := (f.wokenImports d.toDiff).foldl linkImport f

def linkAllImports (f : IndexFile) : IndexFile :=
  ((f.nodes.rows.filter isResolvedModule).filterMap fun n =>
    (f.targets.find? n.id).map (Store.importPlaceholderOf n)).foldl linkImport f

def linkDiff (rules : LinkRules) (f : IndexFile) (d : IndexDiff) : IndexFile :=
  { f with toStore := (f.toStore.linkDiff rules d.toDiff).1 }

def linkAll (rules : LinkRules) (f : IndexFile) : IndexFile :=
  { f with toStore := (f.toStore.linkAll rules).1 }

def isPlaceholderOf (f : IndexFile) (language id : String) : Bool :=
  (f.nodes.find? id).any (fun n => decide (n.language = language) && isPlaceholder n)

/-- One placeholder of the language goes, with its edges and every row keyed by it. -/
def deletePlaceholder (language : String) (f : IndexFile) (id : String) : IndexFile :=
  if f.isPlaceholderOf language id then
    { f with
      edges := f.edges.filter (fun e => decide (e.fromId ≠ id ∧ e.toId ≠ id))
      containers := f.containers.erase id }.deleteNode id
  else f

def deletePlaceholders (f : IndexFile) (language : String) (ids : List String) : IndexFile :=
  ids.foldl (deletePlaceholder language) f

section Project

variable {ids : ContainerIds} {f g : IndexFile} {d : IndexDiff}

theorem foldlM_upsertNode_toStore {ns : List DeclaredRecord} (h : ns.foldlM upsertNode f = some g) :
    g.toStore = (ns.map DeclaredRecord.toNodeRecord).foldl Store.upsertNode f.toStore := by
  induction ns generalizing f with
  | nil =>
    cases h
    rfl
  | cons _ _ ih =>
    obtain ⟨mid, hmid, hrest⟩ := bind_eq_some_iff.mp h
    obtain ⟨declarations, _, rfl⟩ := map_eq_some_iff.mp hmid
    exact ih hrest

theorem writeRows_toStore (h : f.writeRows d = some g) : g.toStore = f.toStore.writeRows d.toDiff := by
  obtain ⟨mid, hmid, rfl⟩ := map_eq_some_iff.mp h
  have hpruned : ∀ (xs : List String) (f : IndexFile),
      (xs.foldl (deleteNamed d.toDiff) f).toStore = xs.foldl (Store.deleteNamed d.toDiff) f.toStore :=
    fun xs f => (foldl_hom IndexFile.toStore fun _ _ => rfl).symm
  rw [foldlM_upsertNode_toStore hmid, hpruned]
  rfl

theorem attach_toStore (f : IndexFile) (p : Pending) : (f.attach ids p).toStore = f.toStore.attach ids p :=
  (foldl_hom IndexFile.toStore fun _ _ => rfl).symm

theorem applyDiff_eq (f : IndexFile) (d : IndexDiff) : f.applyDiff ids d =
    (writeRows { f with toStore := (f.toStore.detach ids d.toDiff).1 } d).map fun g =>
      g.attach ids ((f.toStore.detach ids d.toDiff).2.getD {}) := by
  unfold applyDiff
  split
  next hempty =>
    rw [IndexDiff.eq_empty hempty]
    unfold Store.detach
    split <;> rfl
  next =>
    unfold writeDiff
    rcases f.toStore.detach ids d.toDiff with ⟨detached, _ | pending⟩
    · exact map_id'.symm
    · rfl

theorem applySemanticDiff_eq (f : IndexFile) (d : IndexDiff) : f.applySemanticDiff ids d =
    (f.applyDiff ids (f.insertedPart d)).map fun g => (f.keptPart d).foldl replaceUntypedCalls g := by
  unfold applySemanticDiff
  split
  next hempty =>
    rw [IndexDiff.eq_empty hempty]
    rfl
  next => rfl

theorem applyDiff_toStore (h : f.applyDiff ids d = some g) : g.toStore = f.toStore.applyDiff ids d.toDiff := by
  rw [applyDiff_eq] at h
  obtain ⟨mid, hmid, rfl⟩ := map_eq_some_iff.mp h
  rw [attach_toStore, writeRows_toStore hmid, Store.applyDiff_eq]

theorem insertedPart_toDiff (f : IndexFile) (d : IndexDiff) :
    (f.insertedPart d).toDiff = f.toStore.insertedPart d.toDiff := by
  simp only [insertedPart, Store.insertedPart, IndexDiff.toDiff, List.filter_map]
  rfl

theorem applySemanticDiff_toStore (h : f.applySemanticDiff ids d = some g) :
    g.toStore = f.toStore.applySemanticDiff ids d.toDiff := by
  rw [applySemanticDiff_eq] at h
  obtain ⟨mid, hmid, rfl⟩ := Option.map_eq_some_iff.mp h
  have hkept : (f.keptPart d).map DeclaredRecord.toNodeRecord =
      d.toDiff.upsertNodes.filter (f.toStore.keeps d.toDiff) := by
    simp only [keptPart, IndexDiff.toDiff, List.filter_map]
    rfl
  rw [Store.applySemanticDiff_eq, ← insertedPart_toDiff, ← applyDiff_toStore hmid, ← hkept, foldl_map]
  exact (foldl_hom IndexFile.toStore fun _ _ => rfl).symm

theorem linkImport_toStore (f : IndexFile) (p : ImportPlaceholder) :
    (f.linkImport p).toStore = f.toStore.linkImport p := by
  unfold linkImport Store.linkImport
  cases f.toStore.importTarget p with
  | none => rfl
  | some target =>
    dsimp only
    split <;> rfl

theorem foldl_linkImport_toStore (ps : List ImportPlaceholder) (f : IndexFile) :
    (ps.foldl linkImport f).toStore = f.toStore.linkImports ps :=
  (foldl_hom IndexFile.toStore fun f p => (linkImport_toStore f p).symm).symm

end Project

end IndexFile

end GMesh
