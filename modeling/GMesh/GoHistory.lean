import GMesh.Store

namespace GMesh

structure GoNodeId where
  filePath : String
  kind : NodeKind
  qualifiedName : String
  nativeKind : String
  deriving DecidableEq, Repr

structure GoEdgeId where
  fromId : GoNodeId
  kind : EdgeKind
  toId : GoNodeId
  deriving DecidableEq, Repr

structure GoEdge where
  id : GoEdgeId
  source : SourceTier := .syntactic
  resolved : Bool := false
  specifier : String := ""
  deriving DecidableEq, Repr

inductive GoSiteKind
  | selection | bareName
  deriving DecidableEq, Repr

structure GoOpenSite where
  line : Nat
  col : Nat
  kind : GoSiteKind
  isCall : Bool
  enclosingSymbol : Option GoNodeId
  enclosingCaller : Option GoNodeId
  deriving DecidableEq, Repr

/-- A use that the structural tier answered with an edge onto a placeholder. -/
structure GoPlaceholderUse where
  line : Nat
  col : Nat
  kind : EdgeKind
  edgeId : GoEdgeId
  fromId : GoNodeId
  enclosingSymbol : Option GoNodeId
  deriving DecidableEq, Repr

structure GoGraph (relPath : String) where
  edges : List GoEdge
  openSites : List GoOpenSite
  placeholderUses : List GoPlaceholderUse
  owned : ∀ e ∈ edges, e.id.fromId.filePath = relPath

/-- A declaration as an answer addresses it, a twinned name in its file. -/
structure GoObject where
  container : String
  key : String
  isFunc : Bool
  scopeFile : Option String := none
  deriving DecidableEq, Repr

structure SitePos where
  file : String
  line : Nat
  col : Nat
  deriving DecidableEq, Repr

structure GoResolutions where
  selections : SitePos → Option GoObject := fun _ => none
  uses : SitePos → Option GoObject := fun _ => none

def GoResolutions.objectAt (r : GoResolutions) (pos : SitePos) : GoSiteKind → Option GoObject
  | .selection => (r.selections pos).or (r.uses pos)
  | .bareName => r.uses pos

/-- The placeholder of a declaration. One of a container has the id of the structural tier's own. -/
def goPlaceholderId (relPath : String) (o : GoObject) : GoNodeId where
  filePath := relPath
  kind := .module
  qualifiedName := o.container ++ "." ++ o.key ++ (o.scopeFile.map ("@" ++ ·)).getD ""
  nativeKind := "pending_symbol"

namespace GoResolutions

variable (r : GoResolutions) (relPath : String)

def siteEdge (site : GoOpenSite) : Option GoEdgeId :=
  (r.objectAt ⟨relPath, site.line, site.col⟩ site.kind).bind fun o =>
    let toId := goPlaceholderId relPath o
    match if site.isCall && o.isFunc then site.enclosingCaller else none with
    | some caller => some ⟨caller, .calls, toId⟩
    | none => site.enclosingSymbol.map fun symbol => ⟨symbol, .references, toId⟩

/-- Whether a use is a conversion or of a twinned name, so that its structural edge is retracted. -/
def retractsUse (use : GoPlaceholderUse) : Bool :=
  (r.uses ⟨relPath, use.line, use.col⟩).any fun o => (use.kind == .calls && !o.isFunc) || o.scopeFile.isSome

def useEdge (use : GoPlaceholderUse) : Option GoEdgeId :=
  (r.uses ⟨relPath, use.line, use.col⟩).bind fun o =>
    let toId := goPlaceholderId relPath o
    if use.kind = .calls ∧ o.isFunc = false then
      use.enclosingSymbol.map fun symbol => ⟨symbol, .references, toId⟩
    else if o.scopeFile.isSome then some ⟨use.fromId, use.kind, toId⟩
    else none

end GoResolutions

structure GoDiff where
  upsertEdges : List GoEdge := []
  deleteEdgeIds : List GoEdgeId := []
  deriving DecidableEq, Repr

structure SemanticDiff where
  edges : List GoEdge := []
  edgesByFile : List (String × GoEdgeId) := []
  retracted : List GoEdgeId := []
  deriving DecidableEq, Repr

namespace SemanticDiff

variable (d : SemanticDiff)

def edge (relPath : String) (id : GoEdgeId) : SemanticDiff :=
  if id ∈ d.edges.map (·.id) then d
  else { d with edges := d.edges ++ [{ id, source := .semantic }], edgesByFile := d.edgesByFile ++ [(relPath, id)] }

def retract (id : GoEdgeId) : SemanticDiff := { d with retracted := d.retracted ++ [id] }

def optionalEdge (relPath : String) (id : Option GoEdgeId) : SemanticDiff :=
  match id with
  | some id => d.edge relPath id
  | none => d

variable (r : GoResolutions)

def answerUse (relPath : String) (d : SemanticDiff) (use : GoPlaceholderUse) : SemanticDiff :=
  if r.retractsUse relPath use then (d.retract use.edgeId).optionalEdge relPath (r.useEdge relPath use) else d

def answerFile (d : SemanticDiff) (relPath : String) (g : GoGraph relPath) : SemanticDiff :=
  g.placeholderUses.foldl (answerUse r relPath)
    (g.openSites.foldl (fun d site => d.optionalEdge relPath (r.siteEdge relPath site)) d)

def answerPath (extractions : (relPath : String) → Option (GoGraph relPath)) (d : SemanticDiff)
    (relPath : String) : SemanticDiff :=
  match extractions relPath with
  | some g => d.answerFile r relPath g
  | none => d

end SemanticDiff

structure GoPass where
  scope : List String
  resolved : GoResolutions := {}
  supertypes : List (String × GoNodeId × GoObject) := []

def supertypeEdge (s : String × GoNodeId × GoObject) : GoEdgeId :=
  ⟨s.2.1, .supertypeOf, goPlaceholderId s.1 s.2.2⟩

/-- The edges last sent of each file, and those its passes last emitted. -/
structure GoPlugin where
  files : String → Option (List GoEdge) := fun _ => none
  emittedEdges : String → List GoEdgeId := fun _ => []

/-- The files' extractions, the plugin, core's edges, and those with a use that is a conversion or of a twinned name.
-/
structure GoWorld where
  extractions : (relPath : String) → Option (GoGraph relPath)
  plugin : GoPlugin := {}
  store : KeyedTable GoEdge.id
  answered : List GoEdgeId := []

/-- A call to the plugin. A pass that loads nothing answers with the empty diff. -/
inductive GoEvent
  | fileChanged (relPath : String) (graph : Option (GoGraph relPath))
  | semanticPass (pass : Option GoPass)

namespace GoPass

variable (p : GoPass) (extractions : (relPath : String) → Option (GoGraph relPath))

def builder : SemanticDiff :=
  p.supertypes.foldl (fun d s => d.edge s.1 (supertypeEdge s))
    (p.scope.foldl (SemanticDiff.answerPath p.resolved extractions) {})

def stale (emitted : String → List GoEdgeId) : List GoEdgeId :=
  p.scope.flatMap fun relPath => (emitted relPath).filter fun id =>
    decide ((relPath, id) ∉ (p.builder extractions).edgesByFile)

def finish (emitted : String → List GoEdgeId) : GoDiff where
  upsertEdges := (p.builder extractions).edges
  deleteEdgeIds := ((p.builder extractions).retracted ++ p.stale extractions emitted).filter fun id =>
    decide (id ∉ (p.builder extractions).edges.map (·.id))

end GoPass

def handleFileChanged (previous : Option (List GoEdge)) (next : Option (List GoEdge)) : GoDiff :=
  match next with
  | none => { deleteEdgeIds := (previous.getD []).map (·.id) }
  | some next =>
    { upsertEdges := next.filter fun e =>
        decide (lastWhere (fun f => decide (f.id = e.id)) (previous.getD []) ≠ some e)
      deleteEdgeIds := ((previous.getD []).map (·.id)).filter fun id => decide (id ∉ next.map (·.id)) }

def applyGoDiff (store : KeyedTable GoEdge.id) (d : GoDiff) : KeyedTable GoEdge.id :=
  d.upsertEdges.foldl (·.put ·) (d.deleteEdgeIds.foldl (·.erase ·) store)

namespace GoWorld

def step (w : GoWorld) : GoEvent → GoWorld
  | .fileChanged relPath graph =>
    { w with
      extractions := Function.update w.extractions relPath graph
      plugin := { w.plugin with files := Function.update w.plugin.files relPath (graph.map (·.edges)) }
      store := applyGoDiff w.store (handleFileChanged (w.plugin.files relPath) (graph.map (·.edges))) }
  | .semanticPass (some p) =>
    { w with
      plugin := { w.plugin with
        emittedEdges := fun relPath =>
          if relPath ∈ p.scope then ((p.builder w.extractions).edgesByFile.filter (·.1 = relPath)).map (·.2)
          else w.plugin.emittedEdges relPath }
      store := applyGoDiff w.store (p.finish w.extractions w.plugin.emittedEdges)
      answered := w.answered ++ (p.builder w.extractions).retracted }
  | .semanticPass none => w

def run (w : GoWorld) : List GoEvent → GoWorld
  | [] => w
  | event :: before => (run w before).step event

end GoWorld

namespace SemanticDiff

variable {d : SemanticDiff} {r : GoResolutions} {relPath : String} {id x : GoEdgeId}

def Produces (d : SemanticDiff) (x : GoEdgeId) : Prop := x ∈ d.edges.map (·.id)

def Filed (d : SemanticDiff) : Prop := ∀ q ∈ d.edgesByFile, d.Produces q.2

theorem produces_edge : (d.edge relPath id).Produces x ↔ d.Produces x ∨ x = id := by
  unfold edge Produces
  split
  next hid =>
    constructor
    · exact .inl
    · intro h
      rcases h with h | h
      · exact h
      · exact h ▸ hid
  next => simp

theorem retracted_edge : (d.edge relPath id).retracted = d.retracted := by
  unfold edge
  split <;> rfl

theorem Filed.edge (hd : d.Filed) : (d.edge relPath id).Filed := by
  intro q hq
  rw [produces_edge]
  unfold SemanticDiff.edge at hq
  split at hq
  next => exact .inl (hd q hq)
  next =>
    rcases List.mem_append.mp hq with hq | hq
    · exact .inl (hd q hq)
    · exact .inr (congrArg Prod.snd (List.mem_singleton.mp hq))

variable {id : Option GoEdgeId}

theorem produces_optionalEdge : (d.optionalEdge relPath id).Produces x ↔ d.Produces x ∨ id = some x := by
  cases id with
  | none => simp [optionalEdge]
  | some id =>
    rw [optionalEdge, produces_edge]
    simp [eq_comm]

theorem retracted_optionalEdge : (d.optionalEdge relPath id).retracted = d.retracted := by
  cases id with
  | none => rfl
  | some id => exact retracted_edge

theorem Filed.optionalEdge (hd : d.Filed) : (d.optionalEdge relPath id).Filed := by
  cases id with
  | none => exact hd
  | some id => exact hd.edge

variable {use : GoPlaceholderUse}

theorem retractsUse_of_useEdge (h : r.useEdge relPath use = some x) : r.retractsUse relPath use := by
  obtain ⟨o, ho, h⟩ := Option.bind_eq_some_iff.mp h
  rw [GoResolutions.retractsUse, ho]
  split at h
  next hc => simp [hc.1, hc.2]
  next =>
    split at h
    next hs => simp [hs]
    next => simp at h

theorem produces_answerUse :
    (answerUse r relPath d use).Produces x ↔ d.Produces x ∨ r.useEdge relPath use = some x := by
  unfold answerUse
  split
  next => exact produces_optionalEdge
  next h =>
    constructor
    · exact .inl
    · intro hx
      rcases hx with hx | hx
      · exact hx
      · exact absurd (retractsUse_of_useEdge hx) h

theorem mem_retracted_answerUse :
    x ∈ (answerUse r relPath d use).retracted ↔ x ∈ d.retracted ∨ r.retractsUse relPath use ∧ use.edgeId = x := by
  unfold answerUse
  split
  next h =>
    rw [retracted_optionalEdge]
    simp [retract, h, eq_comm]
  next h => simp [h]

theorem Filed.answerUse (hd : d.Filed) : (answerUse r relPath d use).Filed := by
  unfold SemanticDiff.answerUse
  split
  next => exact .optionalEdge (d := d.retract use.edgeId) hd
  next => exact hd

def Answers (r : GoResolutions) (g : GoGraph relPath) (x : GoEdgeId) : Prop :=
  (∃ site ∈ g.openSites, r.siteEdge relPath site = some x) ∨
    ∃ use ∈ g.placeholderUses, r.useEdge relPath use = some x

/-- Some use that gave this edge is a conversion, or of a twinned name. -/
def Corrects (r : GoResolutions) (g : GoGraph relPath) (x : GoEdgeId) : Prop :=
  ∃ use ∈ g.placeholderUses, r.retractsUse relPath use = true ∧ use.edgeId = x

variable {g : GoGraph relPath}

theorem produces_answerFile : (d.answerFile r relPath g).Produces x ↔ d.Produces x ∨ Answers r g x := by
  have hsites := foldl_adds (f := fun d site => d.optionalEdge relPath (r.siteEdge relPath site))
    (fun _ _ _ => produces_optionalEdge) g.openSites d x
  have huses := foldl_adds (f := answerUse r relPath) (fun _ _ _ => produces_answerUse) g.placeholderUses
  rw [answerFile, huses, hsites, or_assoc, Answers]

theorem mem_retracted_answerFile : x ∈ (d.answerFile r relPath g).retracted ↔ x ∈ d.retracted ∨ Corrects r g x := by
  have hsites : (g.openSites.foldl (fun d site => d.optionalEdge relPath (r.siteEdge relPath site)) d).retracted =
      d.retracted :=
    List.foldlRecOn (motive := (retracted · = d.retracted)) _ _ rfl fun _ h _ _ => retracted_optionalEdge.trans h
  have huses := foldl_adds (f := answerUse r relPath) (P := fun d x => x ∈ d.retracted)
    (fun _ _ _ => mem_retracted_answerUse) g.placeholderUses
  rw [answerFile, huses, hsites, Corrects]

theorem Filed.answerFile (hd : d.Filed) : (d.answerFile r relPath g).Filed :=
  List.foldlRecOn _ _ (List.foldlRecOn _ _ hd fun _ h _ _ => h.optionalEdge) fun _ h _ _ => h.answerUse

section Path

variable {extractions : (relPath : String) → Option (GoGraph relPath)}

theorem produces_answerPath : (answerPath r extractions d relPath).Produces x ↔
    d.Produces x ∨ ∃ g, extractions relPath = some g ∧ Answers r g x := by
  unfold answerPath
  split
  next g hg => simp [produces_answerFile, hg]
  next hg => simp [hg]

theorem mem_retracted_answerPath : x ∈ (answerPath r extractions d relPath).retracted ↔
    x ∈ d.retracted ∨ ∃ g, extractions relPath = some g ∧ Corrects r g x := by
  unfold answerPath
  split
  next g hg => simp [mem_retracted_answerFile, hg]
  next hg => simp [hg]

theorem Filed.answerPath (hd : d.Filed) : (answerPath r extractions d relPath).Filed := by
  unfold SemanticDiff.answerPath
  split
  next => exact hd.answerFile
  next => exact hd

end Path

end SemanticDiff

namespace GoPass

variable {p : GoPass} {extractions : (relPath : String) → Option (GoGraph relPath)} {x : GoEdgeId}

def Draws (p : GoPass) (extractions : (relPath : String) → Option (GoGraph relPath)) (x : GoEdgeId) : Prop :=
  (∃ relPath ∈ p.scope, ∃ g, extractions relPath = some g ∧ SemanticDiff.Answers p.resolved g x) ∨
    ∃ s ∈ p.supertypes, x = supertypeEdge s

/-- The pass answers a use of this edge as a conversion, or as a twinned name. -/
def Retracts (p : GoPass) (extractions : (relPath : String) → Option (GoGraph relPath)) (x : GoEdgeId) : Prop :=
  ∃ relPath ∈ p.scope, ∃ g, extractions relPath = some g ∧ SemanticDiff.Corrects p.resolved g x

theorem produces_builder : (p.builder extractions).Produces x ↔ p.Draws extractions x := by
  have hsupertypes := foldl_adds (f := fun (d : SemanticDiff) s => d.edge s.1 (supertypeEdge s))
    (fun _ _ _ => SemanticDiff.produces_edge) p.supertypes
  have hscope := foldl_adds (f := SemanticDiff.answerPath p.resolved extractions)
    (fun _ _ _ => SemanticDiff.produces_answerPath) p.scope {} x
  have hempty : ¬({} : SemanticDiff).Produces x := by simp [SemanticDiff.Produces]
  rw [builder, hsupertypes, hscope, or_iff_right hempty, Draws]

theorem mem_retracted_builder : x ∈ (p.builder extractions).retracted ↔ p.Retracts extractions x := by
  have hscope := foldl_adds (f := SemanticDiff.answerPath p.resolved extractions) (P := fun d x => x ∈ d.retracted)
    (fun _ _ _ => SemanticDiff.mem_retracted_answerPath) p.scope {} x
  have hsupertypes : (p.builder extractions).retracted =
      (p.scope.foldl (SemanticDiff.answerPath p.resolved extractions) {}).retracted :=
    List.foldlRecOn (motive := (SemanticDiff.retracted · = _)) _ _ rfl fun _ h _ _ => SemanticDiff.retracted_edge.trans h
  rw [hsupertypes, hscope, or_iff_right List.not_mem_nil, Retracts]

theorem filed_builder : (p.builder extractions).Filed := by
  have hempty : ({} : SemanticDiff).Filed := by simp [SemanticDiff.Filed]
  exact List.foldlRecOn _ _ (List.foldlRecOn _ _ hempty fun _ h _ _ => h.answerPath) fun _ h _ _ => h.edge

def Recalls (p : GoPass) (emitted : String → List GoEdgeId) (x : GoEdgeId) : Prop :=
  ∃ relPath ∈ p.scope, x ∈ emitted relPath

variable {emitted : String → List GoEdgeId}

theorem mem_finish_deleteEdgeIds : x ∈ (p.finish extractions emitted).deleteEdgeIds ↔
    (p.Retracts extractions x ∨ p.Recalls emitted x) ∧ ¬p.Draws extractions x := by
  have hfiled : ∀ {relPath}, ¬p.Draws extractions x → (relPath, x) ∉ (p.builder extractions).edgesByFile :=
    fun hx hq => hx (produces_builder.mp (filed_builder _ hq))
  have hstale : ¬p.Draws extractions x → (x ∈ p.stale extractions emitted ↔ p.Recalls emitted x) := by
    intro hx
    simp [stale, Recalls, hfiled hx]
  have hproduced : x ∈ (p.builder extractions).edges.map (·.id) ↔ p.Draws extractions x := produces_builder
  rw [finish, List.mem_filter, List.mem_append, mem_retracted_builder, decide_eq_true_iff, hproduced]
  exact and_congr_left fun hx => or_congr_right (hstale hx)

end GoPass

open List

variable {w : GoWorld} {x : GoEdgeId}

theorem contains_applyGoDiff {store : KeyedTable GoEdge.id} {d : GoDiff} :
    (applyGoDiff store d).contains x ↔ x ∈ d.upsertEdges.map (·.id) ∨ (store.contains x ∧ x ∉ d.deleteEdgeIds) := by
  unfold applyGoDiff KeyedTable.contains
  rw [KeyedTable.find?_foldl_put, KeyedTable.find?_foldl_erase, Option.isSome_or, Bool.or_eq_true, lastWhere_isSome_iff]
  apply or_congr
  · simp
  · split
    next h => simp [h]
    next h => simp [h]

namespace GoWorld

def Has (w : GoWorld) (relPath : String) (x : GoEdgeId) : Prop :=
  ∃ g, w.extractions relPath = some g ∧ x ∈ g.edges.map (·.id)

/-- Every edge of a last extraction is stored, or a use of it is a conversion or of a twinned name. -/
def Keeps (w : GoWorld) : Prop :=
  ∀ relPath x, w.Has relPath x → w.store.contains x = true ∨ x ∈ w.answered

/-- A plugin process that has just started over a project that is indexed. -/
structure Fresh (w : GoWorld) : Prop where
  plugin : w.plugin = {}
  answered : w.answered = []
  stored : ∀ relPath x, w.Has relPath x → w.store.contains x = true

/-- A pass draws again what earlier passes emitted for its files and a last extraction has, but for conversions and
twinned names. -/
def Spares (w : GoWorld) (p : GoPass) : Prop :=
  ∀ relPath x, w.Has relPath x → p.Recalls w.plugin.emittedEdges x →
    x ∈ w.answered ∨ p.Retracts w.extractions x ∨ p.Draws w.extractions x

def Cached (w : GoWorld) : Prop :=
  ∀ relPath es, w.plugin.files relPath = some es → (w.extractions relPath).map (·.edges) = some es

theorem Has.filePath {relPath : String} (h : w.Has relPath x) : x.fromId.filePath = relPath := by
  obtain ⟨g, -, hx⟩ := h
  obtain ⟨e, he, rfl⟩ := mem_map.mp hx
  exact g.owned e he

theorem Fresh.keeps (hw : w.Fresh) : w.Keeps := fun relPath x hx => .inl (hw.stored relPath x hx)

theorem Fresh.cached (hw : w.Fresh) : w.Cached := by
  intro relPath es h
  rw [hw.plugin] at h
  exact nomatch h

theorem Cached.has (hw : w.Cached) {relPath : String} {e : GoEdge}
    (he : e ∈ (w.plugin.files relPath).getD []) : w.Has relPath e.id := by
  cases hes : w.plugin.files relPath with
  | none => simp [hes] at he
  | some es =>
    rw [hes, Option.getD_some] at he
    obtain ⟨g, hg, rfl⟩ := Option.map_eq_some_iff.mp (hw relPath es hes)
    exact ⟨g, hg, mem_map_of_mem he⟩

theorem Cached.step (hw : w.Cached) (event : GoEvent) : (w.step event).Cached := by
  cases event with
  | fileChanged relPath graph =>
    intro other es hes
    by_cases h : other = relPath
    · subst h
      simpa [GoWorld.step] using hes
    · have hes' : w.plugin.files other = some es := by simpa [GoWorld.step, h] using hes
      simpa [GoWorld.step, h] using hw other es hes'
  | semanticPass pass =>
    cases pass with
    | none => exact hw
    | some p => exact hw

theorem cached_run (hw : w.Cached) (events : List GoEvent) : (w.run events).Cached := by
  induction events with
  | nil => exact hw
  | cons event _ ih => exact ih.step event

end GoWorld

variable {previous : Option (List GoEdge)}

theorem mem_handleFileChanged_deleteEdgeIds {next : Option (List GoEdge)}
    (hx : x ∈ (handleFileChanged previous next).deleteEdgeIds) :
    (∃ e ∈ previous.getD [], e.id = x) ∧ x ∉ (next.getD []).map (·.id) := by
  cases next with
  | none => exact ⟨mem_map.mp hx, by simp⟩
  | some next =>
    obtain ⟨hp, hn⟩ := mem_filter.mp hx
    exact ⟨mem_map.mp hp, of_decide_eq_true hn⟩

theorem handleFileChanged_sends {next : List GoEdge} {e : GoEdge} (he : e ∈ next) :
    e ∈ (handleFileChanged previous (some next)).upsertEdges ∨ e ∈ previous.getD [] := by
  by_cases hl : lastWhere (fun f => decide (f.id = e.id)) (previous.getD []) = some e
  · exact .inr (mem_of_lastWhere hl).1
  · exact .inl (mem_filter.mpr ⟨he, decide_eq_true hl⟩)

namespace GoWorld

/-- A changed file's diff lets the edges of every last extraction stand. -/
theorem Keeps.fileChanged (hw : w.Keeps) (hc : w.Cached) (relPath : String) (graph : Option (GoGraph relPath)) :
    (w.step (.fileChanged relPath graph)).Keeps := by
  intro other x hx
  by_cases hsame : other = relPath
  · subst hsame
    obtain ⟨g, hg, hxg⟩ := hx
    have hgraph : graph = some g := by simpa [GoWorld.step] using hg
    subst hgraph
    have hkept : x ∉ (handleFileChanged (w.plugin.files other) (some g.edges)).deleteEdgeIds :=
      fun h => (mem_handleFileChanged_deleteEdgeIds h).2 hxg
    obtain ⟨e, he, rfl⟩ := mem_map.mp hxg
    rcases handleFileChanged_sends he with hsent | hold
    · exact .inl (contains_applyGoDiff.mpr (.inl (mem_map_of_mem hsent)))
    · rcases hw other e.id (hc.has hold) with hs | ha
      · exact .inl (contains_applyGoDiff.mpr (.inr ⟨hs, hkept⟩))
      · exact .inr ha
  · have hx' : w.Has other x := by
      obtain ⟨g, hg, hxg⟩ := hx
      exact ⟨g, by simpa [GoWorld.step, hsame] using hg, hxg⟩
    have hkept : x ∉ (handleFileChanged (w.plugin.files relPath) (graph.map (·.edges))).deleteEdgeIds := by
      intro h
      obtain ⟨⟨e, he, rfl⟩, -⟩ := mem_handleFileChanged_deleteEdgeIds h
      exact hsame (hx'.filePath.symm.trans (hc.has he).filePath)
    rcases hw other x hx' with hs | ha
    · exact .inl (contains_applyGoDiff.mpr (.inr ⟨hs, hkept⟩))
    · exact .inr ha

variable {p : GoPass}

theorem contains_semanticPass :
    (w.step (.semanticPass (some p))).store.contains x ↔
    p.Draws w.extractions x ∨ w.store.contains x ∧
      ¬(p.Retracts w.extractions x ∨ p.Recalls w.plugin.emittedEdges x) := by
  have hdrawn : x ∈ (p.finish w.extractions w.plugin.emittedEdges).upsertEdges.map (·.id) ↔
      p.Draws w.extractions x := GoPass.produces_builder
  rw [GoWorld.step, contains_applyGoDiff, hdrawn, GoPass.mem_finish_deleteEdgeIds]
  tauto

theorem mem_answered_semanticPass :
    x ∈ (w.step (.semanticPass (some p))).answered ↔ x ∈ w.answered ∨ p.Retracts w.extractions x := by
  rw [GoWorld.step, mem_append, GoPass.mem_retracted_builder]

theorem Keeps.semanticPass (hw : w.Keeps) (hp : w.Spares p) : (w.step (.semanticPass (some p))).Keeps := by
  intro relPath x hx
  have hkept := hw relPath x hx
  have hspared := hp relPath x hx
  rw [contains_semanticPass, mem_answered_semanticPass]
  tauto

theorem Keeps.spares (hw : (w.step (.semanticPass (some p))).Keeps) : w.Spares p := by
  intro relPath x hx hemitted
  have hkept := hw relPath x hx
  rw [contains_semanticPass, mem_answered_semanticPass] at hkept
  tauto

/-- Over a run whose passes spare them the edges of every last extraction stand. -/
theorem keeps_run (hw : w.Fresh) (events : List GoEvent)
    (h : ∀ p before, GoEvent.semanticPass (some p) :: before <:+ events → (w.run before).Spares p) :
    (w.run events).Keeps := by
  induction events with
  | nil => exact hw.keeps
  | cons event events ih =>
    have hk := ih fun p before hs => h p before (hs.trans (suffix_cons event events))
    cases event with
    | fileChanged relPath graph => exact hk.fileChanged (cached_run hw.cached events) relPath graph
    | semanticPass pass =>
      cases pass with
      | none => exact hk
      | some p => exact hk.semanticPass (h p events suffix_rfl)

end GoWorld

/-- A run's passes keep every edge of every last extraction exactly if none of them meets such an edge among those
emitted before and does not draw it again. -/
theorem semanticPasses_keep_iff (hw : w.Fresh) (events : List GoEvent) :
    (∀ pass before, GoEvent.semanticPass pass :: before <:+ events →
      (w.run (.semanticPass pass :: before)).Keeps) ↔
    ∀ p before, GoEvent.semanticPass (some p) :: before <:+ events → (w.run before).Spares p := by
  constructor
  · intro h p before hs
    exact (h (some p) before hs).spares
  · intro h pass before hs
    exact GoWorld.keeps_run hw _ fun p earlier he => h p earlier (he.trans hs)

section DotImport

/-! A file with `func Run`, first over a dot import of `m/lib` with the call `F()`, then over a plain import with the
call `lib.F()`. -/

def runNode : GoNodeId := ⟨"a.go", .function, "Run", "function"⟩

def runFileNode : GoNodeId := ⟨"a.go", .file, "a.go", ""⟩

def libF : GoObject := { container := "m/lib", key := "F", isFunc := true }

def runCallsF : GoEdgeId := ⟨runNode, .calls, goPlaceholderId "a.go" libF⟩

def declaringEdges : List GoEdge :=
  [{ id := ⟨runFileNode, .imports, ⟨"a.go", .module, "m/lib", "resolved_module"⟩⟩, specifier := "m/lib" },
    { id := ⟨runFileNode, .defines, runNode⟩, resolved := true },
    { id := ⟨runFileNode, .exports, runNode⟩, resolved := true }]

theorem owned_declaringEdges : ∀ e ∈ declaringEdges ++ [{ id := runCallsF }], e.id.fromId.filePath = "a.go" := by
  decide

def dotImportGraph : GoGraph "a.go" where
  edges := declaringEdges
  openSites := [⟨2, 13, .bareName, true, some runNode, some runNode⟩]
  placeholderUses := []
  owned := fun e he => owned_declaringEdges e (mem_append_left _ he)

def plainImportGraph : GoGraph "a.go" where
  edges := declaringEdges ++ [{ id := runCallsF }]
  openSites := []
  placeholderUses := [⟨2, 17, .calls, runCallsF, runNode, some runNode⟩]
  owned := owned_declaringEdges

def dotImported : GoWorld where
  extractions := Function.update (fun _ => none) "a.go" (some dotImportGraph)
  store := declaringEdges.foldl KeyedTable.put ∅

def passFindingF (col : Nat) : GoPass where
  scope := ["a.go"]
  resolved := { uses := fun pos => if pos = ⟨"a.go", 2, col⟩ then some libF else none }

theorem dotImported_has {relPath : String} (hx : dotImported.Has relPath x) : x ∈ declaringEdges.map (·.id) := by
  obtain ⟨g, hg, hxg⟩ := hx
  by_cases h : relPath = "a.go"
  · subst h
    have hgraph : dotImportGraph = g := by simpa [dotImported] using hg
    subst hgraph
    exact hxg
  · simp [dotImported, h] at hg

theorem dotImported_fresh : dotImported.Fresh := by
  have hstored : ∀ x ∈ declaringEdges.map (·.id), dotImported.store.contains x := by decide +kernel
  exact ⟨rfl, rfl, fun relPath x hx => hstored x (dotImported_has hx)⟩

end DotImport

theorem semanticPasses_keep_iff_dotImport : dotImported.Fresh ∧
    (dotImported.run [.semanticPass (some (passFindingF 13)), .semanticPass (some (passFindingF 13))]).Keeps := by
  have hapart : ∀ x ∈ (dotImported.run [.semanticPass (some (passFindingF 13))]).plugin.emittedEdges "a.go",
      x ∉ declaringEdges.map (·.id) := by decide +kernel
  have hspares : ∀ p before, GoEvent.semanticPass (some p) :: before <:+
      [.semanticPass (some (passFindingF 13)), .semanticPass (some (passFindingF 13))] →
      (dotImported.run before).Spares p := by
    intro p before hs relPath x hx hrecalled
    obtain ⟨covered, hcovered, hxe⟩ := hrecalled
    rcases suffix_cons_iff.mp hs with hs | hs
    · obtain ⟨hp, rfl⟩ := List.cons.inj hs
      cases hp
      cases mem_singleton.mp hcovered
      exact absurd (dotImported_has hx) (hapart x hxe)
    · rcases suffix_cons_iff.mp hs with hs | hs
      · obtain ⟨-, rfl⟩ := List.cons.inj hs
        exact nomatch hxe
      · simp at hs
  exact ⟨dotImported_fresh, (semanticPasses_keep_iff dotImported_fresh _).mpr hspares _ _ suffix_rfl⟩

/-- The structural tier sends a call that a pass had drawn, and the next pass withdraws it. -/
theorem plain_import_loses_call : dotImported.Fresh ∧
    ¬(dotImported.run [.semanticPass (some (passFindingF 17)), .fileChanged "a.go" (some plainImportGraph),
      .semanticPass (some (passFindingF 13))]).Keeps := by
  refine ⟨dotImported_fresh, fun h => ?_⟩
  have hlost := h "a.go" runCallsF ⟨plainImportGraph, by simp [GoWorld.run, GoWorld.step], by decide⟩
  revert hlost
  decide +kernel

end GMesh
