import GMesh.FileSteps
import GMesh.PluginSession

namespace GMesh

open KeyedTable List

variable {ids : IndexIds} {s t : Store} {path : String} {previous : Option FileGraph} {next g : FileGraph}

structure FileGraph.Owned (ids : IndexIds) (path : String) (g : FileGraph) : Prop where
  nodeIds : (g.nodes.map (·.id)).Nodup
  edgeIds : (g.edges.map (·.id)).Nodup
  node : ∀ n ∈ g.nodes, n.filePath = path ∧ (ids.nodeOf n.id).1 = path
  edge : ∀ e ∈ g.edges, ids.edgeFile e.id = path
  start : ∀ e ∈ g.edges, ∃ n ∈ g.nodes, n.id = e.fromId
  structural : ∀ e ∈ g.edges, e.linkedFrom = none ∧ e.source ≠ .semantic ∧ ∀ k, e.toId ≠ ids.containerId k

/-- Each row is under its id's file, and no edge of a file is linked or semantic. -/
structure Store.OwnsRows (ids : IndexIds) (s : Store) : Prop where
  node : ∀ n ∈ s.nodes, (ids.nodeOf n.id).1 = n.filePath
  edge : ∀ e ∈ s.edges, (ids.nodeOf e.fromId).1 = ids.edgeFile e.id
  structural : ∀ e ∈ s.edges, ids.edgeFile e.id ≠ "" →
    e.linkedFrom = none ∧ e.source ≠ .semantic ∧ ∀ k, e.toId ≠ ids.containerId k

/-- Each row belongs to one file, but for containers and their edges. -/
structure Store.FileOwned (ids : IndexIds) (s : Store) : Prop extends Store.OwnsRows ids s where
  start : ∀ e ∈ s.edges, ids.edgeFile e.id ≠ "" → s.nodes.contains e.fromId = true

def Store.NodeOf (s : Store) (path : String) (r : NodeRow) : Prop := r ∈ s.nodes ∧ r.filePath = path

def Store.EdgeOf (s : Store) (path : String) (r : EdgeRow) : Prop :=
  r ∈ s.edges ∧ ∃ n, s.NodeOf path n ∧ n.id = r.fromId

def Store.SameFile (s t : Store) (path : String) : Prop :=
  (∀ r, s.NodeOf path r ↔ t.NodeOf path r) ∧ ∀ r, s.EdgeOf path r ↔ t.EdgeOf path r

/-- An edge as sent, but for a stored specifier it may keep. -/
def EdgeRow.StoredAs (before : Store) (e r : EdgeRow) : Prop :=
  r = e ∨ ∃ old ∈ before.edges, old.id = e.id ∧ r = { e with specifier := e.specifier.or old.specifier }

structure Store.Holds (before s : Store) (path : String) (g : FileGraph) : Prop where
  nodes : ∀ r, s.NodeOf path r ↔ ∃ n ∈ g.nodes, n.toNodeRow = r
  edges : ∀ r, s.EdgeOf path r → ∃ e ∈ g.edges, e.StoredAs before r
  all : ∀ e ∈ g.edges, ∃ r, s.EdgeOf path r ∧ e.StoredAs before r

theorem EdgeRow.StoredAs.frame {e r : EdgeRow} (h : e.StoredAs s r) : r.id = e.id ∧ r.fromId = e.fromId := by
  rcases h with rfl | ⟨_, _, _, rfl⟩
  · exact ⟨rfl, rfl⟩
  · exact ⟨rfl, rfl⟩

theorem EdgeRow.StoredAs.self {e r : EdgeRow} (h : e.StoredAs s r) (hr : r ∈ t.edges) : e.StoredAs t r := by
  rcases h with rfl | ⟨old, _, hid, rfl⟩
  · exact .inl rfl
  · refine .inr ⟨_, hr, rfl, ?_⟩
    cases e.specifier <;> simp

namespace Store

theorem FileOwned.edgeOf_iff (hs : s.FileOwned ids) (hp : path ≠ "") {r : EdgeRow} :
    s.EdgeOf path r ↔ r ∈ s.edges ∧ ids.edgeFile r.id = path := by
  constructor
  · rintro ⟨hr, n, ⟨hn, hpath⟩, hid⟩
    have hfile := hs.node n hn
    rw [hid, hs.edge r hr, hpath] at hfile
    exact ⟨hr, hfile⟩
  · rintro ⟨hr, hfile⟩
    obtain ⟨n, hn, hid⟩ := contains_iff.mp (hs.start r hr (hfile.symm ▸ hp))
    have hnode := hs.node n hn
    have hfrom := hs.edge r hr
    rw [hid] at hnode
    exact ⟨hr, n, ⟨hn, by rw [← hnode, hfrom, hfile]⟩, hid⟩

theorem OwnsRows.mono (hs : s.OwnsRows ids) (hnodes : ∀ n ∈ t.nodes, n ∈ s.nodes ∨ (ids.nodeOf n.id).1 = n.filePath)
    (hedges : ∀ e ∈ t.edges, e ∈ s.edges ∨ ((ids.nodeOf e.fromId).1 = ids.edgeFile e.id ∧ (ids.edgeFile e.id ≠ "" →
      e.linkedFrom = none ∧ e.source ≠ .semantic ∧ ∀ k, e.toId ≠ ids.containerId k))) : t.OwnsRows ids where
  node n hn := (hnodes n hn).elim (hs.node n) id
  edge e he := (hedges e he).elim (hs.edge e) And.left
  structural e he := (hedges e he).elim (hs.structural e) And.right

/-- A diff of rows that are their files' own leaves each row with its file. -/
theorem OwnsRows.applyDiff {d : Diff} (hs : s.OwnsRows ids)
    (hnode : ∀ n ∈ d.upsertNodes, (ids.nodeOf n.id).1 = n.filePath)
    (hedge : ∀ e ∈ d.upsertEdges, (ids.nodeOf e.fromId).1 = ids.edgeFile e.id ∧ e.source ≠ .semantic ∧
      ∀ k, e.toId ≠ ids.containerId k) : (s.applyDiff ids.toContainerIds d).OwnsRows ids := by
  apply applyDiff_keeps (P := fun t : Store => t.OwnsRows ids) hs
  · exact fun t ht x => ht.mono (fun n hn => .inl hn) fun e he => .inl (mem_erase.mp he).1
  · intro t ht x _
    refine ht.mono ?_ ?_
    · rw [deleteNamed_nodes]
      exact fun n hn => .inl (mem_erase.mp hn).1
    · intro e he
      have hfind := deleteNamed_edges_find? d t x e.id
      rw [find?_key he] at hfind
      obtain ⟨old, hold, hrow⟩ := Option.map_eq_some_iff.mp hfind.symm
      have hmem := (find?_eq_some_iff.mp hold).1
      have hframe : e.id = old.id ∧ e.fromId = old.fromId := by
        rw [← hrow]
        unfold Diff.release
        split
        · exact ⟨rfl, rfl⟩
        · exact ⟨EdgeRow.unlinkFrom_id x old, EdgeRow.unlinkFrom_fromId x old⟩
      by_cases hfile : ids.edgeFile old.id = ""
      · refine .inr ⟨?_, fun hne => absurd (hframe.1 ▸ hfile) hne⟩
        rw [hframe.1, hframe.2]
        exact ht.edge old hmem
      · have hunlinked := (ht.structural old hmem hfile).1
        have hsame : d.release old x = old := by
          unfold Diff.release
          split
          · rfl
          · exact EdgeRow.unlinkFrom_unlinked hunlinked x
        exact .inl (hrow ▸ hsame.symm ▸ hmem)
  · intro t ht n hmem
    refine ht.mono ?_ ?_
    · rw [upsertNode_nodes]
      intro m hm
      rcases mem_put.mp hm with rfl | ⟨hm, _⟩
      · exact .inr (hnode n hmem)
      · exact .inl hm
    · rw [upsertNode_edges]
      exact fun e he => .inl he
  · intro t ht e hmem
    refine ht.mono (fun n hn => .inl hn) fun f hf => ?_
    rcases mem_put.mp hf with rfl | ⟨hf, _⟩
    · obtain ⟨hfrom, hsource, hto⟩ := hedge e hmem
      exact .inr ⟨hfrom, fun _ => ⟨rfl, hsource, hto⟩⟩
    · exact .inl hf
  · intro t ht m
    refine ht.mono (fun n hn => ?_) fun e he => ?_
    · rcases mem_of_insertIgnore hn with rfl | hn
      · exact .inr (by rw [show (containerNode ids.toContainerIds m.2).id = ids.containerId m.2 from rfl,
          ids.containerId_nodeOf]; rfl)
      · exact .inl hn
    · rcases mem_of_insertIgnore he with rfl | he
      · have hfile : ids.edgeFile (definesEdge ids.toContainerIds m.2 m.1).id = "" := ids.definesEdgeId_file m.2 m.1
        refine .inr ⟨?_, fun hne => absurd hfile hne⟩
        rw [hfile, show (definesEdge ids.toContainerIds m.2 m.1).fromId = ids.containerId m.2 from rfl,
          ids.containerId_nodeOf]
      · exact .inl he
  · exact fun t ht rows => ⟨ht.node, ht.edge, ht.structural⟩
  · intro t ht k
    refine ht.mono (fun n hn => .inl (mem_erase.mp hn).1) fun e he => ?_
    exact .inl (KeyedTable.mem_filter.mp (KeyedTable.mem_filter.mp he).1).1

structure Replaces (ids : IndexIds) (s : Store) (path : String) (next : FileGraph) (d : Diff) : Prop where
  sent : ∀ n ∈ d.upsertNodes, ∃ m ∈ next.nodes, m.toNodeRecord = n
  sentIds : (d.upsertNodes.map (·.id)).Nodup
  sentEdge : ∀ e ∈ d.upsertEdges, e ∈ next.edges
  sentEdgeIds : (d.upsertEdges.map (·.id)).Nodup
  deleted : ∀ x ∈ d.deleteNodeIds, (ids.nodeOf x).1 = path
  deletedEdge : ∀ x ∈ d.deleteEdgeIds, ids.edgeFile x = path
  node : ∀ n ∈ next.nodes, n.toNodeRecord ∈ d.upsertNodes ∨
    (s.nodes.find? n.id = some n.toNodeRow ∧ n.id ∉ d.deleteNodeIds ∧ n.id ∉ d.upsertNodes.map (·.id))
  edge : ∀ e ∈ next.edges, e ∈ d.upsertEdges ∨
    (e.id ∉ d.deleteEdgeIds ∧ e.id ∉ d.upsertEdges.map (·.id) ∧ ∃ r, s.edges.find? e.id = some r ∧ e.StoredAs s r)
  stays : ∀ r, s.NodeOf path r → r.id ∉ d.deleteNodeIds → r.id ∉ d.upsertNodes.map (·.id) →
    ∃ n ∈ next.nodes, n.toNodeRow = r
  staysEdge : ∀ r, s.EdgeOf path r → r.id ∉ d.deleteEdgeIds → r.id ∉ d.upsertEdges.map (·.id) →
    ∃ e ∈ next.edges, e.StoredAs s r

namespace Replaces

variable {d : Diff} (hd : Replaces ids s path next d) (hnext : next.Owned ids path)

include hd hnext

theorem ownsRows (hs : s.OwnsRows ids) : (s.applyDiff ids.toContainerIds d).OwnsRows ids := by
  refine hs.applyDiff ?_ ?_
  · intro n hn
    obtain ⟨m, hm, rfl⟩ := hd.sent n hn
    obtain ⟨hpath, hfile⟩ := hnext.node m hm
    exact hfile.trans hpath.symm
  · intro e he
    have hmem := hd.sentEdge e he
    obtain ⟨n, hn, hid⟩ := hnext.start e hmem
    obtain ⟨_, hsource, hto⟩ := hnext.structural e hmem
    refine ⟨?_, hsource, hto⟩
    rw [← hid, (hnext.node n hn).2, hnext.edge e hmem]

theorem edge_find? (hs : s.OwnsRows ids) {x : String}
    (hx : ids.edgeFile x ≠ "") : (s.applyDiff ids.toContainerIds d).edges.find? x =
      upsertedEdge d.upsertEdges x (if x ∈ d.deleteEdgeIds then none else s.edges.find? x) := by
  have hreleased : (s.edges.find? x).map d.released = s.edges.find? x := by
    cases hrow : s.edges.find? x with
    | none => rfl
    | some e =>
      obtain ⟨hmem, hid⟩ := find?_eq_some_iff.mp hrow
      rw [Option.map_some, Diff.released_unlinked (hs.structural e hmem (hid ▸ hx)).1]
  have hwritten := writeRows_edge_find? s d x
  rw [hreleased] at hwritten
  rw [applyDiff_edge_plain (ids.edgeFile_ne hx rfl), hwritten]
  intro e he
  rw [hwritten] at he
  by_cases hsent : x ∈ d.upsertEdges.map (·.id)
  · obtain ⟨f, hf, rfl⟩ := mem_map.mp hsent
    rw [upsertedEdge_sent hd.sentEdgeIds hf] at he
    cases he
    have hmem := hd.sentEdge f hf
    obtain ⟨n, hn, hid⟩ := hnext.start f hmem
    have hp : path ≠ "" := hnext.edge f hmem ▸ hx
    exact ⟨fun k => ids.file_ne hp (hid ▸ (hnext.node n hn).2) k, (hnext.structural f hmem).2.2⟩
  · rw [upsertedEdge_other hsent] at he
    split at he
    next => cases he
    next =>
      obtain ⟨hmem, rfl⟩ := find?_eq_some_iff.mp he
      exact ⟨fun k => ids.file_ne hx (hs.edge e hmem) k, (hs.structural e hmem hx).2.2⟩

omit hnext in
theorem node_find? {x : String} (hx : (ids.nodeOf x).1 ≠ "") :
    (∀ n ∈ d.upsertNodes, n.id = x → (s.applyDiff ids.toContainerIds d).nodes.find? x = some n.toNodeRow) ∧
    (x ∉ d.upsertNodes.map (·.id) → (s.applyDiff ids.toContainerIds d).nodes.find? x =
      if x ∈ d.deleteNodeIds then none else s.nodes.find? x) := by
  have hrow := applyDiff_node_plain (ids.file_ne hx rfl) s d
  constructor
  · intro n hn hid
    have hlast : d.lastRecord x = some n := (lastWhere_eq_some_iff hd.sentIds).mpr ⟨hn, hid⟩
    rw [hrow, hlast]
    rfl
  · intro hnot
    rw [hrow, Diff.lastRecord_eq_none_iff.mpr hnot]
    rfl

theorem named {x : String} :
    ((ids.nodeOf x).1 ≠ path → x ∉ d.upsertNodes.map (·.id) ∧ x ∉ d.deleteNodeIds) ∧
    (ids.edgeFile x ≠ path → x ∉ d.upsertEdges.map (·.id) ∧ x ∉ d.deleteEdgeIds) := by
  refine ⟨fun hx => ⟨fun hm => ?_, fun hm => hx (hd.deleted x hm)⟩,
    fun hx => ⟨fun hm => ?_, fun hm => hx (hd.deletedEdge x hm)⟩⟩
  · obtain ⟨n, hn, rfl⟩ := mem_map.mp hm
    obtain ⟨m, hmem, rfl⟩ := hd.sent n hn
    exact hx (hnext.node m hmem).2
  · obtain ⟨e, he, rfl⟩ := mem_map.mp hm
    exact hx (hnext.edge e (hd.sentEdge e he))

theorem find?_of_node (hp : path ≠ "") {n : WireNode}
    (hn : n ∈ next.nodes) : (s.applyDiff ids.toContainerIds d).nodes.find? n.id = some n.toNodeRow := by
  have hfile := (hnext.node n hn).2
  obtain ⟨hsent, hkept⟩ := hd.node_find? (hfile.symm ▸ hp)
  rcases hd.node n hn with hu | ⟨hstored, hdel, hnot⟩
  · exact hsent _ hu rfl
  · rw [hkept hnot, if_neg hdel, hstored]

section

variable (hs : s.OwnsRows ids) (hp : path ≠ "")

include hs hp

theorem nodeOf_iff (r : NodeRow) :
    (s.applyDiff ids.toContainerIds d).NodeOf path r ↔ ∃ n ∈ next.nodes, n.toNodeRow = r := by
  constructor
  · rintro ⟨hr, hpath⟩
    have hfile := (hd.ownsRows hnext hs).node r hr
    rw [hpath] at hfile
    obtain ⟨hsent, hkept⟩ := hd.node_find? (hfile.symm ▸ hp)
    have hfind := find?_key hr
    by_cases hu : r.id ∈ d.upsertNodes.map (·.id)
    · obtain ⟨n, hn, hid⟩ := mem_map.mp hu
      obtain ⟨m, hm, rfl⟩ := hd.sent n hn
      exact ⟨m, hm, Option.some.inj ((hsent _ hn hid).symm.trans hfind)⟩
    · rw [hkept hu] at hfind
      split at hfind
      next => cases hfind
      next hdel => exact hd.stays r ⟨(find?_eq_some_iff.mp hfind).1, hpath⟩ hdel hu
  · rintro ⟨n, hn, rfl⟩
    exact ⟨(find?_eq_some_iff.mp (hd.find?_of_node hnext hp hn)).1, (hnext.node n hn).1⟩

theorem edge_sent {e : EdgeRow} (he : e ∈ d.upsertEdges) :
    ∃ r, (s.applyDiff ids.toContainerIds d).edges.find? e.id = some r ∧ e.StoredAs s r := by
  have hmem := hd.sentEdge e he
  have hlinked := (hnext.structural e hmem).1
  rw [hd.edge_find? hnext hs ((hnext.edge e hmem).symm ▸ hp), upsertedEdge_sent hd.sentEdgeIds he]
  refine ⟨_, rfl, ?_⟩
  split
  next => exact .inl (by cases e; cases hlinked; simp)
  next =>
    cases hold : s.edges.find? e.id with
    | none => exact .inl (by cases e; cases hlinked; simp)
    | some old =>
      obtain ⟨holdMem, hid⟩ := find?_eq_some_iff.mp hold
      exact .inr ⟨old, holdMem, hid, by cases e; cases hlinked; rfl⟩

theorem find?_of_edge {e : EdgeRow} (he : e ∈ next.edges) :
    ∃ r, (s.applyDiff ids.toContainerIds d).edges.find? e.id = some r ∧ e.StoredAs s r := by
  rcases hd.edge e he with hu | ⟨hdel, hnot, hstored⟩
  · exact hd.edge_sent hnext hs hp hu
  · rw [hd.edge_find? hnext hs ((hnext.edge e he).symm ▸ hp), upsertedEdge_other hnot, if_neg hdel]
    exact hstored

end

variable (hs : s.FileOwned ids)

include hs

theorem storedAs_of_edge (hp : path ≠ "") {r : EdgeRow}
    (hr : r ∈ (s.applyDiff ids.toContainerIds d).edges) (hfile : ids.edgeFile r.id = path) :
    ∃ e ∈ next.edges, e.StoredAs s r := by
  have hfind := find?_key hr
  by_cases hu : r.id ∈ d.upsertEdges.map (·.id)
  · obtain ⟨e, he, hid⟩ := mem_map.mp hu
    obtain ⟨row, hrow, hstored⟩ := hd.edge_sent hnext hs.toOwnsRows hp he
    rw [hid, hfind] at hrow
    cases hrow
    exact ⟨e, hd.sentEdge e he, hstored⟩
  · rw [hd.edge_find? hnext hs.toOwnsRows (hfile.symm ▸ hp), upsertedEdge_other hu] at hfind
    split at hfind
    next => cases hfind
    next hdel =>
      have hmem := (find?_eq_some_iff.mp hfind).1
      exact hd.staysEdge r ((hs.edgeOf_iff hp).mpr ⟨hmem, hfile⟩) hdel hu

omit hs in
theorem other (hs : s.OwnsRows ids) {x : String} :
    ((ids.nodeOf x).1 ≠ path → (ids.nodeOf x).1 ≠ "" →
      (s.applyDiff ids.toContainerIds d).nodes.find? x = s.nodes.find? x) ∧
    (ids.edgeFile x ≠ path → ids.edgeFile x ≠ "" →
      (s.applyDiff ids.toContainerIds d).edges.find? x = s.edges.find? x) := by
  obtain ⟨hnode, hedge⟩ := hd.named hnext (x := x)
  constructor
  · intro hx hfile
    rw [(hd.node_find? hfile).2 (hnode hx).1, if_neg (hnode hx).2]
  · intro hx hfile
    rw [hd.edge_find? hnext hs hfile, upsertedEdge_other (hedge hx).1, if_neg (hedge hx).2]

theorem fileOwned : (s.applyDiff ids.toContainerIds d).FileOwned ids where
  toOwnsRows := hd.ownsRows hnext hs.toOwnsRows
  start r hr hfile := by
    by_cases hpath : ids.edgeFile r.id = path
    · have hp : path ≠ "" := hpath ▸ hfile
      obtain ⟨e, he, hstored⟩ := hd.storedAs_of_edge hnext hs hp hr hpath
      obtain ⟨n, hn, hid⟩ := hnext.start e he
      have hrow := (find?_eq_some_iff.mp (hd.find?_of_node hnext hp hn)).1
      exact contains_iff.mpr ⟨_, hrow, hid.trans hstored.frame.2.symm⟩
    · have hfind := find?_key hr
      rw [(hd.other hnext hs.toOwnsRows).2 hpath hfile] at hfind
      have hmem := (find?_eq_some_iff.mp hfind).1
      obtain ⟨n, hn, hid⟩ := contains_iff.mp (hs.start r hmem hfile)
      have hfrom := hs.edge r hmem
      have hrow := find?_key hn
      rw [show NodeRow.id n = r.fromId from hid,
        ← (hd.other hnext hs.toOwnsRows).1 (hfrom ▸ hpath) (hfrom ▸ hfile)] at hrow
      exact contains_iff.mpr ⟨n, (find?_eq_some_iff.mp hrow).1, hid⟩

theorem holds (hp : path ≠ "") : Holds s (s.applyDiff ids.toContainerIds d) path next where
  nodes := hd.nodeOf_iff hnext hs.toOwnsRows hp
  edges r hr := by
    obtain ⟨hmem, hfile⟩ := ((hd.fileOwned hnext hs).edgeOf_iff hp).mp hr
    exact hd.storedAs_of_edge hnext hs hp hmem hfile
  all e he := by
    obtain ⟨r, hr, hstored⟩ := hd.find?_of_edge hnext hs.toOwnsRows hp he
    obtain ⟨hmem, hid⟩ := find?_eq_some_iff.mp hr
    exact ⟨r, ((hd.fileOwned hnext hs).edgeOf_iff hp).mpr
      ⟨hmem, (congrArg ids.edgeFile hid).trans (hnext.edge e he)⟩, hstored⟩

theorem sameFile {file : String} (hne : file ≠ path) (hfile : file ≠ "") :
    SameFile s (s.applyDiff ids.toContainerIds d) file := by
  have ht := hd.fileOwned hnext hs
  have hother := @Replaces.other ids s path next d hd hnext hs.toOwnsRows
  constructor
  · intro r
    refine and_congr_left fun hpath => ?_
    rw [mem_iff_find?, mem_iff_find?]
    constructor
    · intro hr
      have hid := hs.node r (mem_iff_find?.mpr hr)
      rw [hpath] at hid
      exact (hother.1 (hid.symm ▸ hne) (hid.symm ▸ hfile)).trans hr
    · intro hr
      have hid := ht.node r (mem_iff_find?.mpr hr)
      rw [hpath] at hid
      exact (hother.1 (hid.symm ▸ hne) (hid.symm ▸ hfile)).symm.trans hr
  · intro r
    rw [hs.edgeOf_iff hfile, ht.edgeOf_iff hfile]
    refine and_congr_left fun hid => ?_
    rw [mem_iff_find?, mem_iff_find?, hother.2 (hid.symm ▸ hne) (hid.symm ▸ hfile)]

end Replaces

end Store

variable {disk : DiskFile} {scope : FileScope}

theorem mem_widen_deleteEdgeIds_of_edgeOf {d : Diff} {r : EdgeRow} (hscope : scope ≠ .partialDiff)
    (hr : s.EdgeOf path r) (hsource : scope ≠ .complete ∨ r.source ≠ .semantic)
    (hnot : r.id ∉ d.upsertEdges.map (·.id)) : r.id ∈ (s.widen path scope d).deleteEdgeIds := by
  obtain ⟨hmem, n, ⟨hn, hpath⟩, hid⟩ := hr
  have hfile : r ∈ s.fileEdges path := by
    unfold Store.fileEdges
    rw [List.mem_insertionSort, List.mem_filter, decide_eq_true_iff]
    exact ⟨hmem, mem_fileNodeIds.mpr ⟨n, hn, hpath, hid⟩⟩
  have hremoved : r.id ∈ s.removedEdgeIds path scope d := by
    refine mem_map.mpr ⟨r, mem_filter.mpr ⟨hfile, ?_⟩, rfl⟩
    rcases hsource with hs | hs <;> simp [hnot, hs]
  unfold Store.widen
  rw [if_neg hscope]
  by_cases hd : r.id ∈ d.deleteEdgeIds
  · exact mem_append.mpr (.inl hd)
  · exact mem_append.mpr (.inr (mem_filter.mpr ⟨hremoved, decide_eq_true hd⟩))

theorem Store.OwnsRows.file_of_mem (hs : s.OwnsRows ids) : ∀ x ∈ s.fileNodeIds path, (ids.nodeOf x).1 = path := by
  intro x hx
  obtain ⟨n, hn, hpath, rfl⟩ := mem_fileNodeIds.mp hx
  exact (hs.node n hn).trans hpath

section

variable (hnext : next.Owned ids path)

include hnext

/-- A whole diff replaces what is stored of a file, whatever that is. -/
theorem diffFile_replaces_whole (hs : s.OwnsRows ids) (hscope : scope ≠ .partialDiff)
    (hp : path ≠ "" ∨ scope = .gone) : s.Replaces ids path next (s.widen path scope (diffFile none next).toDiff) := by
  have hfile : ∀ x ∈ s.fileNodeIds path, (ids.nodeOf x).1 = path := hs.file_of_mem
  have hwidened := widen_deleted (d := (diffFile none next).toDiff) hfile hs.edge scope nofun nofun
  refine ⟨?_, ?_, ?_, ?_, hwidened.1, hwidened.2, ?_, ?_, ?_, ?_⟩
  · rw [widen_upsertNodes]
    exact fun n hn => mem_diffFile_none_nodes.mp hn
  · rw [widen_upsertNodes]
    exact diffFile_sentIds hnext.nodeIds
  · rw [widen_upsertEdges]
    exact fun e he => mem_diffFile_none_edges.mp he
  · rw [widen_upsertEdges]
    exact diffFile_sentEdgeIds hnext.edgeIds
  · rw [widen_upsertNodes]
    exact fun n hn => .inl (mem_diffFile_none_nodes.mpr ⟨n, hn, rfl⟩)
  · rw [widen_upsertEdges]
    exact fun e he => .inl (mem_diffFile_none_edges.mpr he)
  · rw [widen_upsertNodes]
    intro r hr hdel hnot
    exact absurd ((mem_widen_deleteNodeIds hscope).mpr (.inr ⟨mem_fileNodeIds.mpr ⟨r, hr.1, hr.2, rfl⟩, hnot⟩)) hdel
  · rw [widen_upsertEdges]
    intro r hr hdel hnot
    refine absurd (mem_widen_deleteEdgeIds_of_edgeOf hscope hr ?_ hnot) hdel
    rcases hp with hp | rfl
    · obtain ⟨hmem, n, ⟨hn, hpath⟩, hid⟩ := hr
      have hfile := hs.node n hn
      rw [hid, hs.edge r hmem, hpath] at hfile
      exact .inr (hs.structural r hmem (hfile.symm ▸ hp)).2.1
    · exact .inl (by decide)

omit hnext in
theorem widen_deletes {d : Diff} {x : String} :
    (x ∈ d.deleteNodeIds → x ∈ (s.widen path scope d).deleteNodeIds) ∧
      (x ∈ d.deleteEdgeIds → x ∈ (s.widen path scope d).deleteEdgeIds) := by
  unfold Store.widen
  split
  next => exact ⟨id, id⟩
  next => exact ⟨fun h => mem_append.mpr (.inl h), fun h => mem_append.mpr (.inl h)⟩

theorem known_node (hg : g.Owned ids path) (hstored : Store.Holds s s path g) {n : WireNode} (hn : n ∈ next.nodes) :
    n.toNodeRecord ∈ (diffFile (some g) next).upsertNodes ∨
      (s.nodes.find? n.id = some n.toNodeRow ∧ n.id ∉ (diffFile (some g) next).deleteNodeIds ∧
        n.id ∉ (diffFile (some g) next).upsertNodes.map (·.id)) := by
  by_cases hold : n ∈ g.nodes
  · have hrow := KeyedTable.find?_key ((hstored.nodes n.toNodeRow).mpr ⟨n, hold, rfl⟩).1
    exact .inr ⟨hrow, diffFile_node_kept hg.nodeIds hnext.nodeIds hold hn⟩
  · exact .inl ((mem_diffFile_upsertNodes (some g) hg.nodeIds).mpr ⟨n, hn, hold, rfl⟩)

theorem known_edge (hg : g.Owned ids path) (hstored : Store.Holds s s path g) {e : EdgeRow} (he : e ∈ next.edges) :
    e ∈ (diffFile (some g) next).upsertEdges ∨
      (e.id ∉ (diffFile (some g) next).deleteEdgeIds ∧ e.id ∉ (diffFile (some g) next).upsertEdges.map (·.id) ∧
        ∃ r, s.edges.find? e.id = some r ∧ e.StoredAs s r) := by
  by_cases hold : e ∈ g.edges
  · obtain ⟨hdel, hup⟩ := diffFile_edge_kept hg.edgeIds hnext.edgeIds hold he
    obtain ⟨r, hr, hrow⟩ := hstored.all e hold
    exact .inr ⟨hdel, hup, r, KeyedTable.find?_eq_some_iff.mpr ⟨hr.1, hrow.frame.1⟩, hrow⟩
  · exact .inl ((FileGraph.mem_changedEdges hg.edgeIds).mpr ⟨he, hold⟩)

/-- A partial diff replaces a file whose stored rows are the known ones. -/
theorem diffFile_replaces_known (hs : s.OwnsRows ids) (hg : g.Owned ids path) (hstored : Store.Holds s s path g)
    (hscope : scope = .partialDiff ∨ next = {}) :
    s.Replaces ids path next (s.widen path scope (diffFile (some g) next).toDiff) := by
  have hdeleted : ∀ x ∈ (diffFile (some g) next).deleteNodeIds, (ids.nodeOf x).1 = path := by
    intro x hx
    obtain ⟨m, hm, _, rfl⟩ := (mem_diffFile_deleteNodeIds hnext.nodeIds).mp hx
    exact (hg.node m hm).2
  have hdeletedEdge : ∀ x ∈ (diffFile (some g) next).deleteEdgeIds, ids.edgeFile x = path := by
    intro x hx
    obtain ⟨e, he, _, rfl⟩ := (mem_diffFile_deleteEdgeIds hnext.edgeIds).mp hx
    exact hg.edge e he
  have hwidened := widen_deleted hs.file_of_mem hs.edge scope hdeleted hdeletedEdge
  refine ⟨?_, ?_, ?_, ?_, hwidened.1, hwidened.2, ?_, ?_, ?_, ?_⟩
  · rw [widen_upsertNodes]
    intro n hn
    obtain ⟨m, hm, _, hrow⟩ := (mem_diffFile_upsertNodes (some g) hg.nodeIds).mp hn
    exact ⟨m, hm, hrow⟩
  · rw [widen_upsertNodes]
    exact diffFile_sentIds hnext.nodeIds
  · rw [widen_upsertEdges]
    exact fun e he => ((FileGraph.mem_changedEdges hg.edgeIds).mp he).1
  · rw [widen_upsertEdges]
    exact diffFile_sentEdgeIds hnext.edgeIds
  · intro n hn
    rcases hscope with rfl | rfl
    · exact known_node hnext hg hstored hn
    · cases hn
  · intro e he
    rcases hscope with rfl | rfl
    · exact known_edge hnext hg hstored he
    · cases he
  · intro r hr hdel _
    obtain ⟨n, hn, rfl⟩ := (hstored.nodes r).mp hr
    by_contra hgone
    refine hdel (widen_deletes.1 ((mem_diffFile_deleteNodeIds hnext.nodeIds).mpr ⟨n, hn, fun hm => ?_, rfl⟩))
    exact hgone ⟨n, hm, rfl⟩
  · intro r hr hdel _
    obtain ⟨e, he, hrow⟩ := hstored.edges r hr
    by_contra hgone
    refine hdel (widen_deletes.2 ((mem_diffFile_deleteEdgeIds hnext.edgeIds).mpr ⟨e, he, fun hm => ?_, hrow.frame.1.symm⟩))
    exact hgone ⟨e, hm, hrow⟩

end

theorem FileGraph.Owned.empty (ids : IndexIds) (path : String) : FileGraph.Owned ids path {} := by
  constructor <;> simp

theorem fileScope_cases (disk : DiskFile) (d : FileChangeDiff) :
    (fileScope disk d = .gone ∧ disk = .gone ∧ d.upsertNodes = [] ∧ d.upsertEdges = []) ∨
      (¬ (d.upsertNodes = [] ∧ d.upsertEdges = [] ∧ disk = .gone) ∧
        fileScope disk d = if d.complete then .complete else .partialDiff) := by
  unfold fileScope
  split
  next h => exact .inl ⟨rfl, h.2.2, h.1, h.2.1⟩
  next h => exact .inr ⟨h, rfl⟩

theorem takeFileChange_replaces (hs : s.OwnsRows ids) (hp : path ≠ "" ∨ disk = .gone) (hnext : next.Owned ids path)
    (hgone : disk = .gone → next = {})
    (hprevious : ∀ g, previous = some g → g.Owned ids path ∧ Store.Holds s s path g) :
    s.Replaces ids path next (s.widen path (fileScope disk (diffFile previous next)) (diffFile previous next).toDiff) := by
  cases previous with
  | none =>
    rcases fileScope_cases disk (diffFile none next) with ⟨hscope, _⟩ | ⟨hnot, hscope⟩
    · rw [hscope]
      exact diffFile_replaces_whole hnext hs (by decide) (.inr rfl)
    · have hcomplete : fileScope disk (diffFile none next) = .complete := hscope
      rw [hcomplete]
      refine diffFile_replaces_whole hnext hs (by decide) (hp.imp_right fun hdisk => ?_)
      exact absurd ⟨by rw [hgone hdisk]; rfl, by rw [hgone hdisk]; rfl, hdisk⟩ hnot
  | some g =>
    obtain ⟨hg, hstored⟩ := hprevious g rfl
    refine diffFile_replaces_known hnext hs hg hstored ?_
    rcases fileScope_cases disk (diffFile (some g) next) with ⟨_, hdisk, _⟩ | ⟨_, hscope⟩
    · exact .inr (hgone hdisk)
    · exact .inl hscope

theorem takeFileChange_empty (ids : ContainerIds) (s : Store) (path : String) (hdisk : disk ≠ .gone) :
    s.takeFileChange ids path disk {} = s := by
  have hscope : fileScope disk {} = .partialDiff := by simp [fileScope, hdisk]
  unfold Store.takeFileChange
  rw [hscope]
  rfl

namespace Store

theorem Holds.self (h : Holds s t path g) : Holds t t path g where
  nodes := h.nodes
  edges r hr := by
    obtain ⟨e, he, hrow⟩ := h.edges r hr
    exact ⟨e, he, hrow.self hr.1⟩
  all e he := by
    obtain ⟨r, hr, hrow⟩ := h.all e he
    exact ⟨r, hr, hrow.self hr.1⟩

theorem Holds.congr (h : Holds s s path g) (hsame : SameFile s t path) : Holds t t path g := by
  refine .self (s := s) ⟨fun r => (hsame.1 r).symm.trans (h.nodes r), fun r hr => h.edges r ((hsame.2 r).mpr hr), ?_⟩
  intro e he
  obtain ⟨r, hr, hrow⟩ := h.all e he
  exact ⟨r, (hsame.2 r).mp hr, hrow⟩

theorem SameFile.refl (s : Store) (path : String) : SameFile s s path := ⟨fun _ => .rfl, fun _ => .rfl⟩

end Store

end GMesh
