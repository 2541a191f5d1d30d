import GMesh.ImportMoves

namespace GMesh

open KeyedTable

/-- The ids of an index: but for a collision they tell a node's file, kind and native kind, and an edge's file. -/
structure IndexIds extends ContainerIds where
  nodeOf : String → String × NodeKind × Option String
  edgeFile : String → String
  containerId_nodeOf : ∀ k, nodeOf (containerId k) = ("", .module, some "container")
  definesEdgeId_file : ∀ k i, edgeFile (definesEdgeId (containerId k) i) = ""

/-- A graph as an extractor returns it: unique ids, edges among its own nodes, and at most one node of the file
itself. -/
structure FileGraph.Extracted (ids : IndexIds) (path : String) (g : FileGraph) : Prop where
  nodeIds : (g.nodes.map (·.id)).Nodup
  edgeIds : (g.edges.map (·.id)).Nodup
  node : ∀ n ∈ g.nodes, n.filePath = path ∧ ids.nodeOf n.id = (path, n.kind, n.nativeKind)
  edge : ∀ e ∈ g.edges, ids.edgeFile e.id = path
  ends : ∀ e ∈ g.edges, (∃ n ∈ g.nodes, n.id = e.fromId) ∧ ∃ n ∈ g.nodes, n.id = e.toId
  oneFile : ∀ n ∈ g.nodes, ∀ m ∈ g.nodes, n.kind = .file → m.kind = .file → n = m

/-- A file's graph, or that it is gone. A restarted plugin remembers nothing. -/
inductive FileEvent
  | extracted (path : String) (graph : FileGraph) (remembered : Bool)
  | gone (path : String) (remembered : Bool)

structure World where
  store : Store := {}
  graphs : String → Option FileGraph := fun _ => none

def retold (graphs : String → Option FileGraph) (path : String) (g : Option FileGraph) (p : String) :
    Option FileGraph :=
  if p = path then g else graphs p

namespace World

def baseline (w : World) (path : String) (remembered : Bool) : Option FileGraph :=
  if remembered then w.graphs path else none

def tell (ids : IndexIds) (rules : LinkRules) (w : World) (path : String) (d : Diff) (scope : FileScope)
    (graph : Option FileGraph) : World where
  store := (w.store.applyFileDiffLinked ids.toContainerIds rules d path scope).1
  graphs := retold w.graphs path graph

def step (ids : IndexIds) (rules : LinkRules) (w : World) : FileEvent → World
  | .extracted path graph remembered =>
    let d := diffFile (w.baseline path remembered) graph
    w.tell ids rules path d.toDiff (if d.complete then .complete else .partialDiff) (some graph)
  | .gone path remembered => w.tell ids rules path (diffFile (w.baseline path remembered) {}).toDiff .gone none

def run (ids : IndexIds) (rules : LinkRules) (events : List FileEvent) : World := events.foldl (step ids rules) {}

end World

def FileEvent.Valid (ids : IndexIds) : FileEvent → Prop
  | .extracted path graph _ => path ≠ "" ∧ graph.Extracted ids path
  | .gone path _ => path ≠ ""

variable {ids : IndexIds} {s : Store} {graphs : String → Option FileGraph} {d : Diff} {path : String}

theorem FileGraph.Extracted.empty (ids : IndexIds) (path : String) : FileGraph.Extracted ids path {} := by
  constructor <;> simp

def IndexIds.IsImport (ids : IndexIds) (x : String) : Prop :=
  (ids.nodeOf x).2 = (.module, some resolvedModuleNativeKind)

theorem IndexIds.file_ne (ids : IndexIds) {x : String} (hp : path ≠ "") (hx : (ids.nodeOf x).1 = path)
    (k : ContainerKey) : x ≠ ids.containerId k := by
  rintro rfl
  rw [ids.containerId_nodeOf] at hx
  exact hp hx.symm

theorem IndexIds.edgeFile_ne (ids : IndexIds) {x : String} (hp : path ≠ "") (hx : ids.edgeFile x = path)
    (k : ContainerKey) (i : String) : x ≠ ids.definesEdgeId (ids.containerId k) i := by
  rintro rfl
  rw [ids.definesEdgeId_file] at hx
  exact hp hx.symm

theorem exists_graph_of_node {o : Option FileGraph} {n : WireNode} (hn : n ∈ (o.getD {}).nodes) :
    ∃ g, o = some g ∧ n ∈ g.nodes := by
  cases o with
  | none => exact nomatch hn
  | some g => exact ⟨g, rfl, hn⟩

/-- The stored nodes are those of the files' graphs, but for imports that linking dropped. -/
structure NodesTracked (ids : IndexIds) (s : Store) (graphs : String → Option FileGraph) : Prop where
  ledger : ∃ L, Shows ids.toContainerIds s L
  held : ∀ path g, graphs path = some g → path ≠ "" ∧ g.Extracted ids path
  node : ∀ r ∈ s.nodes, (∀ k, r.id ≠ ids.containerId k) → ∃ g, graphs r.filePath = some g ∧
    ∃ n ∈ g.nodes, n.toNodeRow = r ∧ s.targets.find? r.id = n.target.map (Store.targetRow n.toNodeRecord)
  present : ∀ path g, graphs path = some g → ∀ n ∈ g.nodes, isResolvedModule n.toNodeRow = false →
    s.nodes.contains n.id = true

namespace NodesTracked

variable (h : NodesTracked ids s graphs) {r : NodeRow}

include h

section

variable (hr : r ∈ s.nodes)

include hr

theorem nodeOf (hc : ∀ k, r.id ≠ ids.containerId k) : ids.nodeOf r.id = (r.filePath, r.kind, r.nativeKind) := by
  obtain ⟨g, hg, n, hn, rfl, _⟩ := h.node r hr hc
  have hx := (h.held _ g hg).2.node n hn
  rw [hx.2, hx.1]

omit hr in
theorem row_eq {g : FileGraph} (hg : graphs path = some g) {n : WireNode}
    (hn : n ∈ g.nodes) (hr : s.nodes.find? n.id = some r) :
    r = n.toNodeRow ∧ s.targets.find? n.id = n.target.map (Store.targetRow n.toNodeRecord) := by
  obtain ⟨hp, hx⟩ := h.held path g hg
  obtain ⟨hmem, hid⟩ := find?_eq_some_iff.mp hr
  have hnode := hx.node n hn
  have hc : ∀ k, r.id ≠ ids.containerId k := by
    rw [hid]
    exact ids.file_ne hp (by rw [hnode.2])
  have hof := h.nodeOf hmem hc
  rw [hid, hnode.2] at hof
  have hpath : r.filePath = path := (congrArg Prod.fst hof).symm
  obtain ⟨g', hg', m, hm, hmr, ht⟩ := h.node r hmem hc
  rw [hpath, hg] at hg'
  cases hg'
  have hmn : m = n := List.inj_on_of_nodup_map hx.nodeIds hm hn (by rw [← hid, ← hmr])
  subst hmn
  rw [hid] at ht
  exact ⟨hmr.symm, ht⟩

theorem row_container {k : ContainerKey} (hid : r.id = ids.containerId k) : r = containerNode ids.toContainerIds k := by
  obtain ⟨L, hL⟩ := h.ledger
  have hf := find?_key hr
  rw [hid] at hf
  by_cases ho : L.Occupied k
  · rw [hL.node_some k ho] at hf
    exact (Option.some.inj hf).symm
  · rw [hL.node_none k ho] at hf
    cases hf

theorem resolved_plain (hres : isResolvedModule r) (k : ContainerKey) : r.id ≠ ids.containerId k := by
  intro hid
  rw [h.row_container hr hid] at hres
  exact absurd (of_decide_eq_true hres).2 (by decide : ¬ some "container" = some resolvedModuleNativeKind)

theorem resolved_isImport (hres : isResolvedModule r) : ids.IsImport r.id := by
  have hof := h.nodeOf hr (h.resolved_plain hr hres)
  have hk := of_decide_eq_true hres
  unfold IndexIds.IsImport
  rw [hof, hk.1, hk.2]

theorem file_plain (hk : r.kind = .file) (k : ContainerKey) : r.id ≠ ids.containerId k := by
  intro hid
  rw [h.row_container hr hid] at hk
  cases hk

end

theorem findFile_of_some {scope x : String} (hf : s.findFile scope = some x) :
    ∃ g, graphs scope = some g ∧ ∃ n ∈ g.nodes, n.kind = .file ∧ n.id = x ∧ s.nodes.contains x := by
  obtain ⟨r, hr, rfl⟩ := Option.map_eq_some_iff.mp hf
  have hmem : r ∈ s.nodes := List.mem_of_find?_eq_some hr
  have hfile := List.find?_some hr
  obtain ⟨hk, hp⟩ := of_decide_eq_true hfile
  obtain ⟨g, hg, n, hn, rfl, _⟩ := h.node r hmem (h.file_plain hmem hk)
  exact ⟨g, hp ▸ hg, n, hn, hk, rfl, contains_iff.mpr ⟨_, hmem, rfl⟩⟩

theorem findFile_eq {g : FileGraph} (hg : graphs path = some g) {n : WireNode}
    (hn : n ∈ g.nodes) (hk : n.kind = .file) : s.findFile path = some n.id := by
  have hres : isResolvedModule n.toNodeRow = false := by
    unfold isResolvedModule
    simp [hk]
  obtain ⟨r, hr⟩ := Option.isSome_iff_exists.mp (h.present path g hg n hn hres)
  obtain ⟨rfl, _⟩ := h.row_eq hg hn hr
  have hx := (h.held path g hg).2
  have hmem := (find?_eq_some_iff.mp hr).1
  cases hf : s.findFile path with
  | none =>
    rw [Store.findFile, Option.map_eq_none_iff, List.find?_eq_none] at hf
    exact absurd (decide_eq_true ⟨hk, (hx.node n hn).1⟩) (hf _ hmem)
  | some x =>
    obtain ⟨g', hg', m, hm, hmk, rfl, _⟩ := h.findFile_of_some hf
    rw [hg] at hg'
    cases hg'
    rw [hx.oneFile m hm n hn hmk hk]

theorem findContainer_of_some {language key x : String}
    (hf : s.findContainer language key = some x) :
    x = ids.containerId (language, key) ∧ s.nodes.contains x := by
  obtain ⟨L, hL⟩ := h.ledger
  obtain ⟨c, hc, rfl⟩ := Option.map_eq_some_iff.mp hf
  have hmem : c ∈ s.containers := List.mem_of_find?_eq_some hc
  have hfound := List.find?_some hc
  obtain ⟨hl, hk⟩ := of_decide_eq_true hfound
  have hrow := hL.row_of_mem hmem
  have hkey : c.ofKey = (language, key) := Prod.ext hl hk
  rw [hkey] at hrow
  have hid : c.nodeId = ids.containerId (language, key) := by rw [hrow.2]; rfl
  exact ⟨hid, hid ▸ hL.node_exists_iff.mpr hrow.1⟩

theorem importTarget_of_some {p : ImportPlaceholder} {x : String}
    (hf : s.importTarget p = some x) : s.nodes.contains x ∧ ¬ ids.IsImport x := by
  unfold Store.importTarget at hf
  split at hf
  next =>
    obtain ⟨rfl, hc⟩ := h.findContainer_of_some hf
    refine ⟨hc, fun hi => ?_⟩
    unfold IndexIds.IsImport at hi
    rw [ids.containerId_nodeOf] at hi
    exact absurd hi (by decide)
  next =>
    obtain ⟨g, hg, n, hn, hk, rfl, hc⟩ := h.findFile_of_some hf
    refine ⟨hc, fun hi => ?_⟩
    have hx := ((h.held _ g hg).2.node n hn).2
    unfold IndexIds.IsImport at hi
    rw [hx] at hi
    have := congrArg Prod.fst hi
    rw [hk] at this
    cases this

end NodesTracked

open Store FileGraph List

variable {rules : LinkRules} {before after g : FileGraph}

namespace FileGraph

theorem mem_changedNodes {other : FileGraph} (hn : (other.nodes.map (·.id)).Nodup) {n : WireNode} :
    n ∈ g.changedNodes other ↔ n ∈ g.nodes ∧ n ∉ other.nodes := by
  unfold changedNodes
  rw [List.mem_filter, decide_eq_true_iff]
  exact and_congr_right' (not_congr ((lastWhere_eq_some_iff hn).trans (and_iff_left rfl)))

theorem mem_changedEdges {other : FileGraph} (hn : (other.edges.map (·.id)).Nodup) {e : EdgeRow} :
    e ∈ g.changedEdges other ↔ e ∈ g.edges ∧ e ∉ other.edges := by
  unfold changedEdges
  rw [List.mem_filter, decide_eq_true_iff]
  exact and_congr_right' (not_congr ((lastWhere_eq_some_iff hn).trans (and_iff_left rfl)))

end FileGraph

structure Brings (ids : IndexIds) (s : Store) (path : String) (before after : FileGraph) (d : Diff) : Prop where
  sent : ∀ n ∈ d.upsertNodes, ∃ m ∈ after.nodes, m.toNodeRecord = n
  sentIds : (d.upsertNodes.map (·.id)).Nodup
  sentEdge : ∀ e ∈ d.upsertEdges, e ∈ after.edges
  sentEdgeIds : (d.upsertEdges.map (·.id)).Nodup
  deleted : ∀ x ∈ d.deleteNodeIds, (ids.nodeOf x).1 = path
  deletedEdge : ∀ x ∈ d.deleteEdgeIds, ids.edgeFile x = path
  node : ∀ n ∈ after.nodes, n.toNodeRecord ∈ d.upsertNodes ∨
    (n ∈ before.nodes ∧ n.id ∉ d.deleteNodeIds ∧ n.id ∉ d.upsertNodes.map (·.id))
  edge : ∀ e ∈ after.edges, e ∈ d.upsertEdges ∨
    (e ∈ before.edges ∧ e.id ∉ d.deleteEdgeIds ∧ e.id ∉ d.upsertEdges.map (·.id))
  stays : ∀ n ∈ before.nodes, s.nodes.contains n.id = true → n.id ∉ d.deleteNodeIds →
    n.id ∉ d.upsertNodes.map (·.id) → n ∈ after.nodes

section Diffs

variable {previous : Option FileGraph}

theorem mem_diffFile_upsertNodes (previous : Option FileGraph) (hb : ((previous.getD {}).nodes.map (·.id)).Nodup)
    {n : NodeRecord} :
    n ∈ (diffFile previous after).upsertNodes ↔
      ∃ m ∈ after.nodes, m ∉ (previous.getD {}).nodes ∧ m.toNodeRecord = n := by
  show n ∈ (after.changedNodes (previous.getD {})).map WireNode.toNodeRecord ↔ _
  rw [mem_map]
  simp only [mem_changedNodes hb, and_assoc]

theorem diffFile_sentIds (ha : (after.nodes.map (·.id)).Nodup) :
    ((diffFile previous after).upsertNodes.map (·.id)).Nodup := by
  show (((after.changedNodes (previous.getD {})).map WireNode.toNodeRecord).map (·.id)).Nodup
  rw [map_map]
  exact (List.Sublist.map _ filter_sublist).nodup ha

theorem diffFile_sentEdgeIds (ha : (after.edges.map (·.id)).Nodup) :
    ((diffFile previous after).upsertEdges.map (·.id)).Nodup :=
  (List.Sublist.map _ filter_sublist).nodup ha

theorem mem_diffFile_deleteNodeIds (ha : (after.nodes.map (·.id)).Nodup) {x : String} :
    x ∈ (diffFile previous after).deleteNodeIds ↔ ∃ m ∈ (previous.getD {}).nodes, m ∉ after.nodes ∧ m.id = x := by
  show x ∈ ((previous.getD {}).changedNodes after).map (·.id) ↔ _
  rw [mem_map]
  simp only [mem_changedNodes ha, and_assoc]

theorem mem_diffFile_deleteEdgeIds (ha : (after.edges.map (·.id)).Nodup) {x : String} :
    x ∈ (diffFile previous after).deleteEdgeIds ↔ ∃ e ∈ (previous.getD {}).edges, e ∉ after.edges ∧ e.id = x := by
  show x ∈ ((previous.getD {}).changedEdges after).map (·.id) ↔ _
  rw [mem_map]
  simp only [mem_changedEdges ha, and_assoc]

theorem mem_diffFile_none_nodes {n : NodeRecord} :
    n ∈ (diffFile none after).upsertNodes ↔ ∃ m ∈ after.nodes, m.toNodeRecord = n := by
  rw [mem_diffFile_upsertNodes none nodup_nil]
  simp

theorem mem_diffFile_none_edges {e : EdgeRow} : e ∈ (diffFile none after).upsertEdges ↔ e ∈ after.edges := by
  have hmem := @FileGraph.mem_changedEdges after {} nodup_nil e
  exact hmem.trans (and_iff_left not_mem_nil)

theorem diffFile_node_kept (hb : (before.nodes.map (·.id)).Nodup) (ha : (after.nodes.map (·.id)).Nodup) {n : WireNode}
    (hnb : n ∈ before.nodes) (hn : n ∈ after.nodes) : n.id ∉ (diffFile (some before) after).deleteNodeIds ∧
      n.id ∉ (diffFile (some before) after).upsertNodes.map (·.id) := by
  refine ⟨fun hx => ?_, fun hx => ?_⟩
  · obtain ⟨m, hm, hma, hid⟩ := (mem_diffFile_deleteNodeIds ha).mp hx
    exact hma (inj_on_of_nodup_map hb hm hnb hid ▸ hn)
  · obtain ⟨r, hr, hid⟩ := mem_map.mp hx
    obtain ⟨m, hm, hmb, rfl⟩ := (mem_diffFile_upsertNodes (some before) hb).mp hr
    exact hmb (inj_on_of_nodup_map ha hm hn hid ▸ hnb)

theorem diffFile_edge_kept (hb : (before.edges.map (·.id)).Nodup) (ha : (after.edges.map (·.id)).Nodup) {e : EdgeRow}
    (heb : e ∈ before.edges) (he : e ∈ after.edges) : e.id ∉ (diffFile (some before) after).deleteEdgeIds ∧
      e.id ∉ (diffFile (some before) after).upsertEdges.map (·.id) := by
  refine ⟨fun hx => ?_, fun hx => ?_⟩
  · obtain ⟨f, hf, hfa, hid⟩ := (mem_diffFile_deleteEdgeIds ha).mp hx
    exact hfa (inj_on_of_nodup_map hb hf heb hid ▸ he)
  · obtain ⟨f, hf, hid⟩ := mem_map.mp hx
    obtain ⟨hfa, hfb⟩ := (mem_changedEdges hb).mp hf
    exact hfb (inj_on_of_nodup_map ha hfa he hid ▸ heb)

end Diffs

/-- The diff of two graphs brings a file from the one to the other. -/
theorem diffFile_brings (hb : before.Extracted ids path) (ha : after.Extracted ids path) (s : Store) :
    Brings ids s path before after (diffFile (some before) after).toDiff where
  sent n hn := by
    obtain ⟨m, hm, _, rfl⟩ := (mem_diffFile_upsertNodes (some before) hb.nodeIds).mp hn
    exact ⟨m, hm, rfl⟩
  sentIds := diffFile_sentIds ha.nodeIds
  sentEdge e he := ((mem_changedEdges hb.edgeIds).mp he).1
  sentEdgeIds := diffFile_sentEdgeIds ha.edgeIds
  deleted x hx := by
    obtain ⟨m, hm, _, rfl⟩ := (mem_diffFile_deleteNodeIds ha.nodeIds).mp hx
    rw [(hb.node m hm).2]
  deletedEdge x hx := by
    obtain ⟨e, he, _, rfl⟩ := (mem_diffFile_deleteEdgeIds ha.edgeIds).mp hx
    exact hb.edge e he
  node n hn := by
    by_cases hnb : n ∈ before.nodes
    · exact .inr ⟨hnb, diffFile_node_kept hb.nodeIds ha.nodeIds hnb hn⟩
    · exact .inl ((mem_diffFile_upsertNodes (some before) hb.nodeIds).mpr ⟨n, hn, hnb, rfl⟩)
  edge e he := by
    by_cases heb : e ∈ before.edges
    · exact .inr ⟨heb, diffFile_edge_kept hb.edgeIds ha.edgeIds heb he⟩
    · exact .inl ((mem_changedEdges hb.edgeIds).mpr ⟨he, heb⟩)
  stays n hn _ hdel _ := by
    by_contra hna
    exact hdel ((mem_diffFile_deleteNodeIds ha.nodeIds).mpr ⟨n, hn, hna, rfl⟩)

/-- The edges of every file start in it, an import is linked from no placeholder, and is stored where its file put it
or on a node that is no import. -/
structure EdgesTracked (ids : IndexIds) (s : Store) (graphs : String → Option FileGraph) : Prop where
  start : ∀ e ∈ s.edges, (ids.nodeOf e.fromId).1 = ids.edgeFile e.id
  unlinked : ∀ e ∈ s.edges, e.kind = .imports → e.linkedFrom = none
  placed : ∀ path g, graphs path = some g → ∀ e ∈ g.edges, e.kind = .imports → ∀ r, s.edges.find? e.id = some r →
    r.kind = .imports ∧ r.fromId = e.fromId ∧ (r.toId = e.toId ∨ ¬ ids.IsImport r.toId)

section Widened

variable {scope : FileScope} {x : String}

theorem mem_fileNodeIds : x ∈ s.fileNodeIds path ↔ ∃ n ∈ s.nodes, n.filePath = path ∧ n.id = x := by
  unfold fileNodeIds
  rw [mem_insertionSort, mem_map]
  simp only [List.mem_filter, decide_eq_true_eq, and_assoc]
  rfl

theorem NodesTracked.file_of_mem (h : NodesTracked ids s graphs) (hp : path ≠ "") (hx : x ∈ s.fileNodeIds path) :
    (ids.nodeOf x).1 = path := by
  obtain ⟨n, hn, hpath, rfl⟩ := mem_fileNodeIds.mp hx
  have hc : ∀ k, n.id ≠ ids.containerId k := by
    intro k hid
    rw [h.row_container hn hid] at hpath
    exact hp hpath.symm
  rw [h.nodeOf hn hc, hpath]

theorem widen_upsertNodes (s : Store) (path : String) (scope : FileScope) (d : Diff) :
    (s.widen path scope d).upsertNodes = d.upsertNodes := by
  unfold widen
  split <;> rfl

theorem widen_upsertEdges (s : Store) (path : String) (scope : FileScope) (d : Diff) :
    (s.widen path scope d).upsertEdges = d.upsertEdges := by
  unfold widen
  split <;> rfl

theorem mem_widen_deleteNodeIds (hs : scope ≠ .partialDiff) :
    x ∈ (s.widen path scope d).deleteNodeIds ↔
      x ∈ d.deleteNodeIds ∨ (x ∈ s.fileNodeIds path ∧ x ∉ d.upsertNodes.map (·.id)) := by
  unfold widen
  rw [if_neg hs]
  rw [mem_append, List.mem_filter, removedNodeIds, List.mem_filter]
  simp only [decide_eq_true_eq]
  tauto

theorem mem_widen_deleteEdgeIds (hx : x ∈ (s.widen path scope d).deleteEdgeIds) :
    x ∈ d.deleteEdgeIds ∨ (x ∉ d.upsertEdges.map (·.id) ∧ ∃ e ∈ s.edges, e.id = x ∧ e.fromId ∈ s.fileNodeIds path) := by
  unfold widen at hx
  split at hx
  next => exact .inl hx
  next =>
    rcases mem_append.mp hx with hx | hx
    · exact .inl hx
    · obtain ⟨e, he, rfl⟩ := mem_map.mp (mem_filter.mp hx).1
      obtain ⟨hmem, hkeep⟩ := mem_filter.mp he
      unfold fileEdges at hmem
      rw [mem_insertionSort, List.mem_filter, decide_eq_true_iff] at hmem
      rw [Bool.and_eq_true, decide_eq_true_iff] at hkeep
      exact .inr ⟨hkeep.1, e, hmem.1, rfl, hmem.2⟩

theorem widen_deleted (hnode : ∀ x ∈ s.fileNodeIds path, (ids.nodeOf x).1 = path)
    (hstart : ∀ e ∈ s.edges, (ids.nodeOf e.fromId).1 = ids.edgeFile e.id) (scope : FileScope)
    (hd : ∀ x ∈ d.deleteNodeIds, (ids.nodeOf x).1 = path) (hde : ∀ x ∈ d.deleteEdgeIds, ids.edgeFile x = path) :
    (∀ x ∈ (s.widen path scope d).deleteNodeIds, (ids.nodeOf x).1 = path) ∧
      ∀ x ∈ (s.widen path scope d).deleteEdgeIds, ids.edgeFile x = path := by
  constructor
  · intro x hx
    by_cases hscope : scope = .partialDiff
    · unfold widen at hx
      rw [if_pos hscope] at hx
      exact hd x hx
    · rcases (mem_widen_deleteNodeIds hscope).mp hx with hx | ⟨hx, _⟩
      · exact hd x hx
      · exact hnode x hx
  · intro x hx
    rcases mem_widen_deleteEdgeIds hx with hx | ⟨_, e, he, rfl, hfrom⟩
    · exact hde x hx
    · rw [← hstart e he]
      exact hnode _ hfrom

theorem widen_brings (h : NodesTracked ids s graphs) (he : EdgesTracked ids s graphs) (hp : path ≠ "")
    (hb : before.Extracted ids path) (hg : (graphs path).getD {} = before) (hs : scope ≠ .partialDiff)
    (hu : ∀ n, n ∈ d.upsertNodes ↔ ∃ m ∈ after.nodes, m.toNodeRecord = n) (hun : (d.upsertNodes.map (·.id)).Nodup)
    (hue : ∀ e, e ∈ d.upsertEdges ↔ e ∈ after.edges)
    (huen : (d.upsertEdges.map (·.id)).Nodup) (hd : ∀ x ∈ d.deleteNodeIds, (ids.nodeOf x).1 = path)
    (hde : ∀ x ∈ d.deleteEdgeIds, ids.edgeFile x = path) :
    Brings ids s path before after (s.widen path scope d) where
  sent n hn := (hu n).mp (widen_upsertNodes s path scope d ▸ hn)
  sentIds := (widen_upsertNodes s path scope d).symm ▸ hun
  sentEdge e hem := (hue e).mp (widen_upsertEdges s path scope d ▸ hem)
  sentEdgeIds := (widen_upsertEdges s path scope d).symm ▸ huen
  deleted := (widen_deleted (fun x => h.file_of_mem hp) he.start scope hd hde).1
  deletedEdge := (widen_deleted (fun x => h.file_of_mem hp) he.start scope hd hde).2
  node n hn := Or.inl (by
    rw [widen_upsertNodes]
    exact (hu _).mpr ⟨n, hn, rfl⟩)
  edge e hem := Or.inl (by
    rw [widen_upsertEdges]
    exact (hue e).mpr hem)
  stays n hn hc hdel hnot := by
    obtain ⟨r, hr, hid⟩ := contains_iff.mp hc
    obtain ⟨g, hgp, hng⟩ := exists_graph_of_node (hg ▸ hn)
    have hfind : s.nodes.find? n.id = some r := find?_eq_some_iff.mpr ⟨hr, hid⟩
    obtain ⟨rfl, _⟩ := h.row_eq hgp hng hfind
    rw [widen_upsertNodes] at hnot
    exact absurd ((mem_widen_deleteNodeIds hs).mpr (.inr
      ⟨mem_fileNodeIds.mpr ⟨_, hr, (hb.node n hn).1, rfl⟩, hnot⟩)) hdel

end Widened

namespace Brings

variable (ha : after.Extracted ids path)

include ha

theorem node_file (hd : Brings ids s path before after d) {n : NodeRecord} (hn : n ∈ d.upsertNodes) :
    n.filePath = path ∧ ids.nodeOf n.id = (path, n.kind, n.nativeKind) := by
  obtain ⟨m, hm, rfl⟩ := hd.sent n hn
  exact ha.node m hm

theorem ends_file {e : EdgeRow} (he : e ∈ after.edges) :
    (ids.nodeOf e.fromId).1 = path ∧ (ids.nodeOf e.toId).1 = path := by
  obtain ⟨⟨n, hn, hf⟩, ⟨m, hm, ht⟩⟩ := ha.ends e he
  rw [← hf, ← ht, (ha.node n hn).2, (ha.node m hm).2]
  exact ⟨rfl, rfl⟩

omit ha in
theorem namesNoContainer (hp : path ≠ "") (ha : after.Extracted ids path)
    (hd : Brings ids s path before after d) : d.NamesNoContainer ids.toContainerIds where
  upserted n hn := ids.file_ne hp (by rw [(hd.node_file ha hn).2])
  deleted x hx := ids.file_ne hp (hd.deleted x hx)
  edge e he := by
    have hea := hd.sentEdge e he
    exact ⟨ids.edgeFile_ne hp (ha.edge e hea), fun k hf => absurd hf (ids.file_ne hp (ends_file ha hea).1 k)⟩
  edgeDeleted x hx := ids.edgeFile_ne hp (hd.deletedEdge x hx)

omit ha in
theorem lastRecord_sent (hd : Brings ids s path before after d) {n : NodeRecord} (hn : n ∈ d.upsertNodes) :
    d.lastRecord n.id = some n :=
  (lastWhere_eq_some_iff hd.sentIds).mpr ⟨hn, rfl⟩

theorem lastRecord_other (hd : Brings ids s path before after d) {x : String} (hx : (ids.nodeOf x).1 ≠ path) :
    d.lastRecord x = none ∧ x ∉ d.deleteNodeIds := by
  refine ⟨Diff.lastRecord_eq_none_iff.mpr fun hm => ?_, fun hm => hx (hd.deleted x hm)⟩
  obtain ⟨n, hn, rfl⟩ := mem_map.mp hm
  rw [(hd.node_file ha hn).2] at hx
  exact hx rfl

end Brings

section Applied

variable {u : Option FileGraph} (h : NodesTracked ids s graphs)

include h

theorem applyDiff_node_of_graph (hp : path ≠ "") (ha : after.Extracted ids path)
    (hd : Brings ids s path ((graphs path).getD {}) after d) {n : WireNode} (hn : n ∈ after.nodes)
    (hs : n.toNodeRecord ∈ d.upsertNodes ∨ s.nodes.contains n.id) :
    (s.applyDiff ids.toContainerIds d).nodes.find? n.id = some n.toNodeRow := by
  have hx : ∀ k, n.id ≠ ids.containerId k := ids.file_ne hp (by rw [(ha.node n hn).2])
  rw [applyDiff_node_plain hx]
  rcases hd.node n hn with hsent | ⟨hb, hdel, hnot⟩
  · rw [hd.lastRecord_sent (n := n.toNodeRecord) hsent]
    rfl
  · rw [Diff.lastRecord_eq_none_iff.mpr hnot, if_neg hdel]
    have hc : s.nodes.contains n.id :=
      hs.resolve_left fun hm => hnot (mem_map.mpr ⟨_, hm, rfl⟩)
    obtain ⟨r, hr⟩ := Option.isSome_iff_exists.mp hc
    obtain ⟨g, hg, hng⟩ := exists_graph_of_node hb
    rw [hr, (h.row_eq hg hng hr).1]
    rfl

/-- A file's diff brings its nodes in line with its new graph. -/
theorem applyDiff_nodesTracked (hp : path ≠ "") (ha : (u.getD {}).Extracted ids path)
    (hd : Brings ids s path ((graphs path).getD {}) (u.getD {}) d) :
    NodesTracked ids (s.applyDiff ids.toContainerIds d) (retold graphs path u) where
  ledger := by
    obtain ⟨L, hL⟩ := h.ledger
    exact ⟨_, applyDiff_shows hL (hd.namesNoContainer hp ha)⟩
  held p g hg := by
    unfold retold at hg
    split at hg
    next hpp =>
      rw [hg] at ha
      exact ⟨hpp ▸ hp, hpp ▸ ha⟩
    next => exact h.held p g hg
  node r hr hc := by
    have hf := find?_key hr
    rw [applyDiff_node_plain hc] at hf
    rw [applyDiff_targets hc]
    unfold writtenTarget
    cases hl : d.lastRecord r.id with
    | some n =>
      rw [hl] at hf
      cases hf
      have hn := (Diff.mem_of_lastRecord hl).1
      obtain ⟨m, hm, rfl⟩ := hd.sent n hn
      have hpath : m.filePath = path := (ha.node m hm).1
      obtain ⟨g, rfl, hmg⟩ := exists_graph_of_node hm
      exact ⟨g, by rw [hpath]; exact if_pos rfl, m, hmg, rfl, rfl⟩
    | none =>
      rw [hl] at hf
      have hdel : r.id ∉ d.deleteNodeIds := by
        intro hx
        rw [if_pos hx] at hf
        cases hf
      rw [if_neg hdel] at hf
      have hmem : r ∈ s.nodes := (find?_eq_some_iff.mp hf).1
      obtain ⟨g, hg, n, hn, hnr, ht⟩ := h.node r hmem hc
      rw [if_neg hdel]
      by_cases hpath : r.filePath = path
      · rw [hpath] at hg ⊢
        rw [hg] at hd
        have hid : n.id = r.id := by rw [← hnr]
        have hna := hd.stays n hn (contains_iff.mpr ⟨r, hmem, hid.symm⟩) (hid ▸ hdel)
          (hid ▸ Diff.lastRecord_eq_none_iff.mp hl)
        obtain ⟨a, rfl, hna⟩ := exists_graph_of_node hna
        exact ⟨a, if_pos rfl, n, hna, hnr, ht⟩
      · exact ⟨g, (if_neg hpath).trans hg, n, hn, hnr, ht⟩
  present p g hg n hn hres := by
    unfold retold at hg
    split at hg
    next hpp =>
      subst hpp
      subst hg
      have hc : n.toNodeRecord ∈ d.upsertNodes ∨ s.nodes.contains n.id := by
        refine (hd.node n hn).imp_right fun hk => ?_
        obtain ⟨b, hg, hnb⟩ := exists_graph_of_node hk.1
        exact h.present p b hg n hnb hres
      unfold KeyedTable.contains
      rw [applyDiff_node_of_graph h hp ha hd hn hc]
      rfl
    next hpp =>
      obtain ⟨hp', hx⟩ := h.held p g hg
      have hfile := (hx.node n hn).2
      have hother := hd.lastRecord_other ha (x := n.id) (by rw [hfile]; exact hpp)
      unfold KeyedTable.contains
      rw [applyDiff_node_plain (ids.file_ne hp' (by rw [hfile])), hother.1, if_neg hother.2]
      exact h.present p g hg n hn hres

end Applied

end GMesh
