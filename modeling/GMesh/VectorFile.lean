import GMesh.EmbedText
import GMesh.LinkedHistory

namespace GMesh

structure VectorFile (V : Type) extends IndexFile where
  vectors : String → Option V := fun _ => none

namespace VectorFile

variable {V : Type} (ids : ContainerIds) (rules : LinkRules)

def withoutVector (vectors : String → Option V) (id : String) : String → Option V := Function.update vectors id none

def deleteNode (f : VectorFile V) (id : String) : VectorFile V where
  toIndexFile := f.toIndexFile.deleteNode id
  vectors := withoutVector f.vectors id

/-- The plugin's own rows. A node that is only written again keeps its vector. -/
def writeRows (f : VectorFile V) (d : IndexDiff) : Option (VectorFile V) :=
  (f.toIndexFile.writeRows d).map fun g =>
    { toIndexFile := g, vectors := d.deleteNodeIds.foldl withoutVector f.vectors }

def recount (f : VectorFile V) (key : ContainerKey) : VectorFile V where
  toIndexFile := f.toIndexFile.recount ids key
  vectors := if f.definesCount (ids.containerId key) = 0 then withoutVector f.vectors (ids.containerId key)
    else f.vectors

def attach (f : VectorFile V) (p : Pending) : VectorFile V :=
  p.touched.foldl (recount ids)
    { f with toStore := (p.members.foldl (Store.attachMember ids) f.toStore).applyParents p.parents }

def writeDiff (f : VectorFile V) (d : IndexDiff) : Option (VectorFile V) :=
  match f.toStore.detach ids d.toDiff with
  | (detached, some pending) => (writeRows { f with toStore := detached } d).map fun g => g.attach ids pending
  | (detached, none) => writeRows { f with toStore := detached } d

def applyDiff (f : VectorFile V) (d : IndexDiff) : Option (VectorFile V) :=
  if d.toDiff.isEmpty then some f else f.writeDiff ids d

/-- A stored node keeps its row and vector, and takes the untyped calls. -/
def applySemanticDiff (f : VectorFile V) (d : IndexDiff) : Option (VectorFile V) :=
  if d.toDiff.isEmpty then some f
  else (f.applyDiff ids (f.insertedPart d)).map fun g =>
    { toIndexFile := (f.keptPart d).foldl IndexFile.replaceUntypedCalls g.toIndexFile, vectors := g.vectors }

def linkImport (f : VectorFile V) (p : ImportPlaceholder) : VectorFile V :=
  match f.toStore.importTarget p with
  | none => f
  | some target =>
    let repointed := { f with toStore := f.toStore.repointImports p.id target }
    if repointed.incident p.id then repointed else repointed.deleteNode p.id

def linkWritten (f : VectorFile V) (d : IndexDiff) : VectorFile V :=
  let linked := (f.wokenImports d.toDiff).foldl linkImport f
  { toIndexFile := linked.toIndexFile.linkDiff rules d, vectors := linked.vectors }

def applyFileDiffLinked (f : VectorFile V) (path : String) (scope : FileScope) (d : IndexDiff) :
    Option (VectorFile V) :=
  (f.applyDiff ids (f.widen path scope d)).map fun g => g.linkWritten rules (f.widen path scope d)

def applySemanticDiffLinked (f : VectorFile V) (d : IndexDiff) : Option (VectorFile V) :=
  (f.applySemanticDiff ids d).map fun g => g.linkWritten rules d

variable {ids rules} {f g h : VectorFile V} {d : IndexDiff}

/-- Every vector there is was there before, and its node is still as it was. -/
def Spares (f g : VectorFile V) : Prop :=
  ∀ x v, g.vectors x = some v →
    f.vectors x = some v ∧ ∀ n, f.nodes.find? x = some n → g.nodes.find? x = some n

theorem Spares.refl (f : VectorFile V) : f.Spares f := fun _ _ hv => ⟨hv, fun _ hn => hn⟩

theorem Spares.trans (hf : f.Spares g) (hg : g.Spares h) : f.Spares h := by
  intro x v hv
  obtain ⟨hmid, hkept⟩ := hg x v hv
  obtain ⟨hold, hfirst⟩ := hf x v hmid
  exact ⟨hold, fun n hn => hkept n (hfirst n hn)⟩

theorem Spares.foldl {ι : Type} {op : VectorFile V → ι → VectorFile V} (hop : ∀ (f : VectorFile V) i, f.Spares (op f i))
    (is : List ι) (f : VectorFile V) : f.Spares (is.foldl op f) := by
  induction is generalizing f with
  | nil => exact .refl f
  | cons i _ ih => exact (hop f i).trans (ih (op f i))

variable {vectors : String → Option V}

theorem withoutVector_eq_some {id x : String} {v : V} (h : withoutVector vectors id x = some v) :
    x ≠ id ∧ vectors x = some v := by
  unfold withoutVector at h
  by_cases hx : x = id
  · simp [hx] at h
  · rw [Function.update_of_ne hx] at h
    exact ⟨hx, h⟩

theorem foldl_withoutVector_eq_some {xs : List String} {x : String} {v : V}
    (h : xs.foldl withoutVector vectors x = some v) : x ∉ xs ∧ vectors x = some v := by
  induction xs generalizing vectors with
  | nil => exact ⟨by simp, h⟩
  | cons _ _ ih =>
    obtain ⟨hxs, hrest⟩ := ih h
    obtain ⟨hid, hv⟩ := withoutVector_eq_some hrest
    exact ⟨by simp [hid, hxs], hv⟩

theorem spares_deleteNode (f : VectorFile V) (id : String) : f.Spares (f.deleteNode id) := by
  intro x v hv
  obtain ⟨hx, hold⟩ := withoutVector_eq_some hv
  refine ⟨hold, fun n hn => ?_⟩
  show (f.nodes.erase id).find? x = some n
  rw [KeyedTable.find?_erase, if_neg hx, hn]

theorem spares_recount (f : VectorFile V) (key : ContainerKey) : f.Spares (f.recount ids key) := by
  intro x v hv
  have hkept : ¬(x = ids.containerId key ∧ f.definesCount (ids.containerId key) = 0) ∧ f.vectors x = some v := by
    unfold recount at hv
    split at hv
    next hz =>
      obtain ⟨hx, hold⟩ := withoutVector_eq_some hv
      exact ⟨fun h => hx h.1, hold⟩
    next hz => exact ⟨fun h => hz h.2, hv⟩
  refine ⟨hkept.2, fun n hn => ?_⟩
  show (f.toStore.recount ids key).nodes.find? x = some n
  rw [Store.recount_nodes_find?, if_neg hkept.1, hn]

theorem spares_attach (f : VectorFile V) (p : Pending) : f.Spares (f.attach ids p) := by
  refine Spares.trans ?_ (Spares.foldl spares_recount p.touched _)
  refine fun x v hv => ⟨hv, fun n hn => ?_⟩
  rw [Store.applyParents_toGraph, Store.foldl_attachMember_nodes, KeyedTable.find?_foldl_insertIgnore, hn]
  rfl

theorem spares_linkImport (f : VectorFile V) (p : ImportPlaceholder) : f.Spares (f.linkImport p) := by
  unfold linkImport
  split
  next => exact .refl f
  next =>
    dsimp only
    split
    next => exact fun x v hv => ⟨hv, fun n hn => hn⟩
    next => exact Spares.trans (fun x v hv => ⟨hv, fun n hn => hn⟩) (spares_deleteNode _ p.id)

theorem spares_linkWritten (f : VectorFile V) (d : IndexDiff) : f.Spares (f.linkWritten rules d) :=
  (Spares.foldl spares_linkImport (f.wokenImports d.toDiff) f).trans fun _ _ hv => ⟨hv, fun _ hn => hn⟩

def Rewrites (d : IndexDiff) (f g : VectorFile V) : Prop :=
  ∀ x v, g.vectors x = some v → f.vectors x = some v ∧ x ∉ d.deleteNodeIds ∧ ∀ n, f.nodes.find? x = some n →
    g.nodes.find? x = some (((d.toDiff.lastRecord x).map NodeRecord.toNodeRow).getD n)

theorem Rewrites.spares (hf : Rewrites d f g) (hg : g.Spares h) : Rewrites d f h := by
  intro x v hv
  obtain ⟨hmid, hkept⟩ := hg x v hv
  obtain ⟨hold, hdel, hrow⟩ := hf x v hmid
  exact ⟨hold, hdel, fun n hn => hkept _ (hrow n hn)⟩

theorem rewrites_writeRows (hg : f.writeRows d = some g) : Rewrites d f g := by
  intro x v hv
  obtain ⟨mid, hmid, rfl⟩ := Option.map_eq_some_iff.mp hg
  obtain ⟨hdel, hold⟩ := foldl_withoutVector_eq_some hv
  refine ⟨hold, hdel, fun n hn => ?_⟩
  have hrow := Store.writeRows_find? f.toStore d.toDiff x
  have hkept : x ∉ d.toDiff.deleteNodeIds := hdel
  rw [if_neg hkept, hn] at hrow
  rw [IndexFile.writeRows_toStore hmid, hrow]
  cases d.toDiff.lastRecord x <;> rfl

theorem applyDiff_eq (f : VectorFile V) (d : IndexDiff) : f.applyDiff ids d =
    (writeRows { f with toStore := (f.toStore.detach ids d.toDiff).1 } d).map fun g =>
      g.attach ids ((f.toStore.detach ids d.toDiff).2.getD {}) := by
  unfold applyDiff
  split
  next hempty =>
    rw [IndexDiff.eq_empty hempty]
    unfold Store.detach
    split <;> rfl
  next =>
    unfold writeDiff
    rcases f.toStore.detach ids d.toDiff with ⟨detached, _ | pending⟩
    · exact Option.map_id'.symm
    · rfl

theorem rewrites_applyDiff (hg : f.applyDiff ids d = some g) : Rewrites d f g := by
  rw [applyDiff_eq] at hg
  obtain ⟨mid, hmid, rfl⟩ := Option.map_eq_some_iff.mp hg
  refine Rewrites.spares ?_ (spares_attach mid _)
  intro x v hv
  have hrows := rewrites_writeRows hmid x v hv
  rwa [(Store.detach_frame ids f.toStore d.toDiff).1] at hrows

end VectorFile

open List

/-- A vector that was computed outside the lock, with the text it describes. -/
structure ComputedEmbedding (V : Type) where
  nodeId : String
  embedding : V
  text : Line
  deriving DecidableEq, Repr

structure ComputedBatch (V : Type) where
  embeddings : List (ComputedEmbedding V) := []
  dropped : List String := []
  deriving DecidableEq, Repr

/-- The vectors of the nodes that have text, and the nodes the filter refuses. -/
def ComputedBatch.compute {V : Type} (embed : Line → V) (nodes : List NodeRow) : ComputedBatch V where
  embeddings := nodes.filterMap fun n => n.nodeText.map fun text => ⟨n.id, embed text, text⟩
  dropped := (nodes.filter (·.isFiltered)).map (·.id)

namespace VectorFile

variable {V : Type} (f : VectorFile V)

def currentText (id : String) : Option Line := (f.nodes.find? id).bind NodeRow.nodeText

def storeDropped (id : String) : VectorFile V :=
  if (f.currentText id).isSome then f else { f with vectors := withoutVector f.vectors id }

def storeEmbedding (e : ComputedEmbedding V) : VectorFile V :=
  if f.currentText e.nodeId = some e.text then
    { f with vectors := Function.update f.vectors e.nodeId (some e.embedding) }
  else f

/-- Writes a batch, each vector only to a node that still has its text. -/
def storeVectors (batch : ComputedBatch V) : VectorFile V :=
  batch.embeddings.foldl storeEmbedding (batch.dropped.foldl storeDropped f)

def isCandidate (n : NodeRow) : Bool :=
  (f.vectors n.id).isNone && (n.docComment.isSome || n.signature.isSome) && !n.generated

def candidateRecord (n : NodeRow) : NodeRow where
  id := n.id
  kind := n.kind
  name := n.name
  qualifiedName := n.qualifiedName
  filePath := n.filePath
  docComment := n.docComment
  signature := n.signature

def candidatePage (pick : NodeRow → Bool) : List NodeRow :=
  (f.nodes.rows.filter fun n => f.isCandidate n && pick n).map candidateRecord

end VectorFile

inductive WriterPhase (V : Type)
  | idle
  | committedAnswer (nodes : List NodeRow)
  | committed (nodes : List NodeRow)
  | computed (batch : ComputedBatch V)
  | pageRead (nodes : List NodeRow)
  | pageComputed (batch : ComputedBatch V)

namespace WriterPhase

variable {V : Type}

def isOpen : WriterPhase V → Bool
  | idle | pageRead _ | pageComputed _ => false
  | committedAnswer _ | committed _ | computed _ => true

end WriterPhase

inductive WriterStep
  | commitFile (path : String) (scope : FileScope) (d : IndexDiff)
  | commitSemantic (d : IndexDiff)
  | lookUp
  | compute
  | store
  | readPage (pick : NodeRow → Bool)

structure Embedding (V : Type) where
  file : VectorFile V := {}
  phases : Nat → WriterPhase V := fun _ => .idle

namespace Embedding

variable {V : Type} (embed : Line → V) (ids : ContainerIds) (rules : LinkRules)

def moved (s : Embedding V) (w : Nat) (phase : WriterPhase V) : Embedding V :=
  { s with phases := Function.update s.phases w phase }

def sentRows (d : IndexDiff) : List NodeRow := d.upsertNodes.map (·.toNodeRow)

def regrouped (f : IndexFile) (d : IndexDiff) : List NodeRow :=
  ((f.insertedPart d).upsertNodes ++ f.keptPart d).map (·.toNodeRow)

/-- A step that its writer's phase does not allow, and a failed commit, change nothing. -/
def step (s : Embedding V) (w : Nat) : WriterStep → Embedding V
  | .commitFile path scope d =>
    match s.phases w, s.file.applyFileDiffLinked ids rules path scope d with
    | .idle, some f => { s with file := f }.moved w (.committed (sentRows d))
    | _, _ => s
  | .commitSemantic d =>
    match s.phases w, s.file.applySemanticDiffLinked ids rules d with
    | .idle, some f => { s with file := f }.moved w (.committedAnswer (regrouped s.file.toIndexFile d))
    | _, _ => s
  | .lookUp =>
    match s.phases w with
    | .committedAnswer nodes => s.moved w (.committed (nodes.filter fun n => (s.file.vectors n.id).isNone))
    | _ => s
  | .compute =>
    match s.phases w with
    | .committed nodes => s.moved w (.computed (.compute embed nodes))
    | .pageRead nodes => s.moved w (.pageComputed (.compute embed nodes))
    | _ => s
  | .store =>
    match s.phases w with
    | .computed batch | .pageComputed batch => { s with file := s.file.storeVectors batch }.moved w .idle
    | _ => s
  | .readPage pick =>
    match s.phases w with
    | .idle => s.moved w (.pageRead (s.file.candidatePage pick))
    | _ => s

def run (opened : VectorFile V) : List (Nat × WriterStep) → Embedding V
  | [] => { file := opened }
  | (w, a) :: before => (run opened before).step embed ids rules w a

/-- No node with a vector is sent again with nothing to embed, but for deleted and generated ones. -/
def SendsText (f : VectorFile V) : WriterStep → Prop
  | .commitFile path scope d => ∀ x, (f.vectors x).isSome → x ∉ (f.widen path scope d).deleteNodeIds →
      ∀ n, d.toDiff.lastRecord x = some n → n.isBare = true → n.generated = true
  | _ => True

def RunSendsText (opened : VectorFile V) : List (Nat × WriterStep) → Prop
  | [] => True
  | (_, a) :: before => RunSendsText opened before ∧ SendsText (run embed ids rules opened before).file a

end Embedding

namespace WriterPhase

variable {V : Type}

def Owes (x : String) (text : Option Line) : WriterPhase V → Prop
  | committed nodes => ∃ n ∈ nodes, n.id = x ∧ n.nodeText = text ∧ (text = none → n.isFiltered = true)
  | computed batch =>
    match text with
    | some t => ∃ e ∈ batch.embeddings, e.nodeId = x ∧ e.text = t
    | none => x ∈ batch.dropped
  | _ => False

def Sound (embed : Line → V) : WriterPhase V → Prop
  | computed batch | pageComputed batch => ∀ e ∈ batch.embeddings, e.embedding = embed e.text
  | _ => True

theorem sound_compute (embed : Line → V) (nodes : List NodeRow) :
    ∀ e ∈ (ComputedBatch.compute embed nodes).embeddings, e.embedding = embed e.text := by
  intro e he
  obtain ⟨n, _, hn⟩ := mem_filterMap.mp he
  obtain ⟨text, _, rfl⟩ := Option.map_eq_some_iff.mp hn
  rfl

theorem owes_compute (embed : Line → V) {nodes : List NodeRow} {x : String} {text : Option Line}
    (h : (committed nodes : WriterPhase V).Owes x text) : (computed (.compute embed nodes)).Owes x text := by
  obtain ⟨n, hn, rfl, rfl, hnone⟩ := h
  cases htext : n.nodeText with
  | none => exact mem_map_of_mem (List.mem_filter.mpr ⟨hn, hnone htext⟩)
  | some t => exact ⟨⟨n.id, embed t, t⟩, mem_filterMap.mpr ⟨n, hn, by simp [htext]⟩, rfl, rfl⟩

end WriterPhase

namespace VectorFile

variable {V : Type} {f : VectorFile V} {x : String} {v : V}

theorem storeDropped_toIndexFile (f : VectorFile V) (id : String) :
    (f.storeDropped id).toIndexFile = f.toIndexFile := by
  unfold storeDropped
  split <;> rfl

theorem storeEmbedding_toIndexFile (f : VectorFile V) (e : ComputedEmbedding V) :
    (f.storeEmbedding e).toIndexFile = f.toIndexFile := by
  unfold storeEmbedding
  split <;> rfl

theorem foldl_storeDropped_toIndexFile (xs : List String) (f : VectorFile V) :
    (xs.foldl storeDropped f).toIndexFile = f.toIndexFile :=
  List.foldlRecOn (motive := fun g : VectorFile V => g.toIndexFile = f.toIndexFile) xs storeDropped rfl
    fun g hg id _ => (storeDropped_toIndexFile g id).trans hg

theorem storeVectors_toIndexFile (f : VectorFile V) (batch : ComputedBatch V) :
    (f.storeVectors batch).toIndexFile = f.toIndexFile :=
  List.foldlRecOn (motive := fun g : VectorFile V => g.toIndexFile = f.toIndexFile) batch.embeddings storeEmbedding
    (foldl_storeDropped_toIndexFile batch.dropped f) fun g hg e _ => (storeEmbedding_toIndexFile g e).trans hg

theorem currentText_congr {g : VectorFile V} (h : g.toIndexFile = f.toIndexFile) (x : String) :
    g.currentText x = f.currentText x := by
  unfold currentText
  rw [h]

theorem foldl_storeDropped_vector {xs : List String} (h : (xs.foldl storeDropped f).vectors x = some v) :
    f.vectors x = some v ∧ (x ∈ xs → (f.currentText x).isSome) := by
  induction xs generalizing f with
  | nil => exact ⟨h, by simp⟩
  | cons id _ ih =>
    obtain ⟨hv, htext⟩ := ih h
    rw [currentText_congr (storeDropped_toIndexFile f id)] at htext
    unfold storeDropped at hv
    split at hv
    next hid =>
      refine ⟨hv, fun hx => ?_⟩
      rcases mem_cons.mp hx with rfl | hx
      · exact hid
      · exact htext hx
    next =>
      obtain ⟨hne, hv⟩ := withoutVector_eq_some hv
      exact ⟨hv, fun hx => htext ((mem_cons.mp hx).resolve_left hne)⟩

/-- A vector is the batch's for the text its node has, or was there before. -/
theorem foldl_storeEmbedding_vector {es : List (ComputedEmbedding V)}
    (h : (es.foldl storeEmbedding f).vectors x = some v) :
    (∃ e ∈ es, f.currentText x = some e.text ∧ v = e.embedding) ∨
      (f.vectors x = some v ∧ ∀ e ∈ es, e.nodeId = x → f.currentText x ≠ some e.text) := by
  induction es generalizing f with
  | nil => exact .inr ⟨h, by simp⟩
  | cons e _ ih =>
    have hih := ih h
    rw [currentText_congr (storeEmbedding_toIndexFile f e)] at hih
    rcases hih with ⟨e', he', htext, hv⟩ | ⟨hv, hnone⟩
    · exact .inl ⟨e', mem_cons_of_mem e he', htext, hv⟩
    · unfold storeEmbedding at hv
      split at hv
      next hcur =>
        dsimp only at hv
        by_cases hx : x = e.nodeId
        · subst hx
          rw [Function.update_self] at hv
          exact .inl ⟨e, mem_cons_self, hcur, (Option.some.inj hv).symm⟩
        · rw [Function.update_of_ne hx] at hv
          refine .inr ⟨hv, fun e' he' hid => ?_⟩
          rcases mem_cons.mp he' with rfl | he'
          · exact absurd hid.symm hx
          · exact hnone e' he' hid
      next hcur =>
        refine .inr ⟨hv, fun e' he' hid => ?_⟩
        rcases mem_cons.mp he' with rfl | he'
        · exact hid ▸ hcur
        · exact hnone e' he' hid

end VectorFile

end GMesh
