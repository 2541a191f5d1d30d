import GMesh.FileRuns

namespace GMesh

open KeyedTable Store List

variable {ids : IndexIds} {rules : LinkRules} {s : Store} {graphs : String → Option FileGraph} {d : Diff}
  {path : String} {before after : FileGraph}

def WireNode.address (n : WireNode) : Option ImportPlaceholder :=
  if isResolvedModule n.toNodeRow then
    n.target.map (fun t => importPlaceholderOf n.toNodeRow (targetRow n.toNodeRecord t))
  else none

def ImportPlaceholder.at (p : ImportPlaceholder) : Scope := Scope.fromRow p.scopeKind p.scope p.language

namespace NodesTracked

variable (h : NodesTracked ids s graphs) {k : ContainerKey}

include h

theorem findFile_graph (path : String) :
    s.findFile path =
    (graphs path).bind (fun g => (g.nodes.find? (fun n => decide (n.kind = .file))).map (·.id)) := by
  cases hg : graphs path with
  | none =>
    cases hf : s.findFile path with
    | none => rfl
    | some x =>
      obtain ⟨g, hg', _⟩ := h.findFile_of_some hf
      rw [hg] at hg'
      cases hg'
  | some g =>
    show _ = (g.nodes.find? (fun n => decide (n.kind = .file))).map (·.id)
    cases hn : g.nodes.find? (fun n => decide (n.kind = .file)) with
    | some n =>
      have hk := find?_some hn
      exact h.findFile_eq hg (mem_of_find?_eq_some hn) (of_decide_eq_true hk)
    | none =>
      cases hf : s.findFile path with
      | none => rfl
      | some x =>
        obtain ⟨g', hg', n, hm, hk, _⟩ := h.findFile_of_some hf
        rw [hg] at hg'
        cases hg'
        exact absurd (decide_eq_true hk) (find?_eq_none.mp hn n hm)

theorem member_present {g : FileGraph} (hg : graphs path = some g) {n : WireNode} (hn : n ∈ g.nodes)
    (hm : n.membership = some k) : n.toNodeRow ∈ s.nodes := by
  have hres : isResolvedModule n.toNodeRow = false := by
    by_contra hr
    have hk := (of_decide_eq_true (Bool.not_eq_false _ ▸ hr)).2
    unfold NodeRow.membership membership at hm
    rw [hk] at hm
    split at hm
    next => cases hm
    next key _ =>
      simp [nonDeclarationNativeKinds, resolvedModuleNativeKind] at hm
  obtain ⟨r, hr⟩ := Option.isSome_iff_exists.mp (h.present path g hg n hn hres)
  rw [← (h.row_eq hg hn hr).1]
  exact (find?_eq_some_iff.mp hr).1

theorem member_of_row {r : NodeRow} (hr : r ∈ s.nodes) (hm : r.membership = some k) :
    ∃ g, graphs r.filePath = some g ∧ ∃ n ∈ g.nodes, n.toNodeRow = r := by
  have hc : ∀ j, r.id ≠ ids.containerId j := by
    intro j hid
    rw [h.row_container hr hid] at hm
    cases hm
  obtain ⟨g, hg, n, hn, hnr, _⟩ := h.node r hr hc
  exact ⟨g, hg, n, hn, hnr⟩

/-- A container is found while some graph has a member of it. -/
theorem findContainer_iff {language key x : String} :
    s.findContainer language key = some x ↔ x = ids.containerId (language, key) ∧
      ∃ p g, graphs p = some g ∧ ∃ n ∈ g.nodes, n.membership = some (language, key) := by
  obtain ⟨L, hL⟩ := h.ledger
  have hocc : L.Occupied (language, key) ↔
      ∃ p g, graphs p = some g ∧ ∃ n ∈ g.nodes, n.membership = some (language, key) := by
    constructor
    · rintro ⟨i, hi⟩
      rw [← hL.memberOf] at hi
      obtain ⟨r, hr, hm⟩ := Option.bind_eq_some_iff.mp hi
      obtain ⟨g, hg, n, hn, rfl⟩ := h.member_of_row (find?_eq_some_iff.mp hr).1 hm
      exact ⟨_, g, hg, n, hn, hm⟩
    · rintro ⟨p, g, hg, n, hn, hm⟩
      refine ⟨n.id, ?_⟩
      rw [← hL.memberOf]
      unfold memberOf
      rw [find?_key (h.member_present hg hn hm)]
      exact hm
  constructor
  · intro hf
    obtain ⟨hx, hc⟩ := h.findContainer_of_some hf
    exact ⟨hx, hocc.mp (hL.node_exists_iff.mp (hx ▸ hc))⟩
  · rintro ⟨rfl, hm⟩
    obtain ⟨c, hc, hl, hk⟩ := (hL.row_exists_iff (k := (language, key))).mpr (hocc.mpr hm)
    cases hf : s.findContainer language key with
    | some y => rw [(h.findContainer_of_some hf).1]
    | none =>
      rw [findContainer, Option.map_eq_none_iff, find?_eq_none] at hf
      exact absurd (decide_eq_true ⟨hl, hk⟩) (hf c hc)

end NodesTracked

/-- What an address names once a file has its new graph: a node of the file or another, or a container that has a
member then. -/
def Store.namedWith (ids : IndexIds) (s : Store) (path : String) (after : FileGraph) (p : ImportPlaceholder) :
    Option String :=
  match p.scopeKind with
  | .file =>
    if p.scope = path then (after.nodes.find? (fun n => decide (n.kind = .file))).map (·.id) else s.findFile p.scope
  | .container =>
    if after.nodes.any (fun n => decide (n.membership = some (p.language, p.scope))) ||
      s.nodes.rows.any (fun r => decide (r.filePath ≠ path ∧ r.membership = some (p.language, p.scope)))
    then some (ids.containerId (p.language, p.scope)) else none

/-- What an import names can be read off the graphs, the new one included. -/
theorem importTarget_retold {t : Store} (h : NodesTracked ids s graphs)
    (ht : NodesTracked ids t (retold graphs path (some after))) (p : ImportPlaceholder) :
    t.importTarget p = s.namedWith ids path after p := by
  unfold importTarget namedWith
  cases p.scopeKind with
  | file =>
    rw [ht.findFile_graph, h.findFile_graph]
    unfold retold
    by_cases hp : p.scope = path
    · rw [if_pos hp, if_pos hp]
      rfl
    · rw [if_neg hp, if_neg hp]
  | container =>
    dsimp only
    have hiff : (∃ q g, retold graphs path (some after) q = some g ∧ ∃ n ∈ g.nodes,
        n.membership = some (p.language, p.scope)) ↔
        (after.nodes.any (fun n => decide (n.membership = some (p.language, p.scope))) ||
          s.nodes.rows.any (fun r => decide (r.filePath ≠ path ∧ r.membership = some (p.language, p.scope)))) := by
      rw [Bool.or_eq_true, any_eq_true, any_eq_true]
      simp only [decide_eq_true_eq]
      constructor
      · rintro ⟨q, g, hg, n, hn, hm⟩
        unfold retold at hg
        split at hg
        next =>
          cases hg
          exact .inl ⟨n, hn, hm⟩
        next hq =>
          have hfile := ((h.held q g hg).2.node n hn).1
          exact .inr ⟨n.toNodeRow, h.member_present hg hn hm, hfile ▸ hq, hm⟩
      · rintro (⟨n, hn, hm⟩ | ⟨r, hr, hq, hm⟩)
        · exact ⟨path, after, if_pos rfl, n, hn, hm⟩
        · obtain ⟨g, hg, n, hn, rfl⟩ := h.member_of_row hr hm
          exact ⟨_, g, (if_neg hq).trans hg, n, hn, hm⟩
    apply Option.ext
    intro x
    rw [ht.findContainer_iff, hiff]
    split
    next hc =>
      rw [Option.some.injEq, eq_comm]
      exact and_iff_left hc
    next hc => exact ⟨fun hx => absurd hx.2 hc, fun hx => nomatch hx⟩

def FileGraph.Wakes (before after : FileGraph) (scope : Scope) : Prop :=
  ∃ n ∈ after.nodes, n ∉ before.nodes ∧ ((n.kind = .file ∧ scope = .file n.filePath) ∨
    ∃ key, n.container = some key ∧ scope = .container n.language key)

theorem mem_joinedScopes {scope : Scope} : scope ∈ d.joinedScopes ↔ ∃ n ∈ d.upsertNodes,
    (n.kind = .file ∧ scope = .file n.filePath) ∨ ∃ key, n.container = some key ∧ scope = .container n.language key := by
  unfold Diff.joinedScopes
  rw [mem_append, mem_map, mem_map]
  constructor
  · rintro (⟨n, hn, rfl⟩ | ⟨k, hk, rfl⟩)
    · obtain ⟨hm, hf⟩ := mem_filter.mp hn
      exact ⟨n, hm, Or.inl ⟨of_decide_eq_true hf, rfl⟩⟩
    · obtain ⟨n, hn, hc⟩ := mem_filterMap.mp (mem_keySet.mp hk)
      obtain ⟨key, hkey, rfl⟩ := Option.map_eq_some_iff.mp hc
      exact ⟨n, hn, Or.inr ⟨key, hkey, rfl⟩⟩
  · rintro ⟨n, hn, ⟨hf, rfl⟩ | ⟨key, hkey, rfl⟩⟩
    · exact .inl ⟨n, mem_filter.mpr ⟨hn, decide_eq_true hf⟩, rfl⟩
    · exact .inr ⟨(n.language, key), mem_keySet.mpr (mem_filterMap.mpr ⟨n, hn, by rw [hkey]; rfl⟩), rfl⟩

theorem diffFile_wakes (hb : before.Extracted ids path) {scope : Scope} :
    scope ∈ (diffFile (some before) after).joinedScopes ↔ before.Wakes after scope := by
  rw [mem_joinedScopes]
  constructor
  · rintro ⟨n, hn, hj⟩
    obtain ⟨m, hm, hmb, rfl⟩ := (mem_diffFile_upsertNodes (some before) hb.nodeIds).mp hn
    exact ⟨m, hm, hmb, hj⟩
  · rintro ⟨m, hm, hmb, hj⟩
    exact ⟨_, (mem_diffFile_upsertNodes (some before) hb.nodeIds).mpr ⟨m, hm, hmb, rfl⟩, hj⟩

structure Edit (ids : IndexIds) (w : World) (path : String) (before after : FileGraph) : Prop where
  tracked : w.Tracked ids
  stored : w.graphs path = some before
  next : after.Extracted ids path

variable {q : ImportPlaceholder}

namespace Edit

variable {w : World} (h : Edit ids w path before after)

def written (ids : IndexIds) (w : World) (before after : FileGraph) : Store :=
  w.store.applyDiff ids.toContainerIds (diffFile (some before) after).toDiff

def tried (ids : IndexIds) (w : World) (before after : FileGraph) : List ImportPlaceholder :=
  (written ids w before after).wokenImports (diffFile (some before) after).toDiff

theorem mem_graph : retold w.graphs path (some after) path = some after := if_pos rfl

include h

theorem path_ne : path ≠ "" := (h.tracked.nodes.held path before h.stored).1

theorem extracted : before.Extracted ids path := (h.tracked.nodes.held path before h.stored).2

theorem brings : Brings ids w.store path ((w.graphs path).getD {}) after (diffFile (some before) after).toDiff := by
  rw [h.stored]
  exact diffFile_brings h.extracted h.next w.store

theorem writtenTracked : NodesTracked ids (written ids w before after) (retold w.graphs path (some after)) :=
  applyDiff_nodesTracked h.tracked.nodes h.path_ne (u := some after) h.next h.brings

theorem triedImports : ImportsOf ids (written ids w before after) (tried ids w before after) :=
  wokenImports_importsOf h.tracked.nodes h.path_ne (u := some after) h.next h.brings

variable {p : WireNode} (hp : p ∈ after.nodes)

include hp

theorem written_contains : (written ids w before after).nodes.contains p.id ↔
    p ∉ before.nodes ∨ w.store.nodes.contains p.id := by
  have hsent : p ∉ before.nodes → p.toNodeRecord ∈ (diffFile (some before) after).upsertNodes :=
    fun hb => (mem_diffFile_upsertNodes (some before) h.extracted.nodeIds).mpr ⟨p, hp, hb, rfl⟩
  constructor
  · intro hc
    by_cases hb : p ∈ before.nodes
    · obtain ⟨hdel, hnot⟩ := diffFile_node_kept h.extracted.nodeIds h.next.nodeIds hb hp
      have hx := ids.file_ne h.path_ne (x := p.id) (by rw [(h.next.node p hp).2])
      unfold KeyedTable.contains written at hc
      rw [applyDiff_node_plain hx, Diff.lastRecord_eq_none_iff.mpr hnot, if_neg hdel] at hc
      exact .inr hc
    · exact .inl hb
  · intro hs
    unfold KeyedTable.contains written
    rw [applyDiff_node_of_graph h.tracked.nodes h.path_ne h.next h.brings hp (hs.imp_left hsent)]
    rfl

theorem tried_address (hq : q ∈ tried ids w before after) (hid : q.id = p.id) :
    p.address = some q ∧ (written ids w before after).nodes.contains p.id ∧
      (p ∈ before.nodes → before.Wakes after q.at) := by
  obtain ⟨r, t, ha⟩ := wokenImports_addresses h.tracked.nodes h.path_ne h.next h.brings hq
  have hrow := ha.row
  have htarget := ha.target
  rw [hid] at hrow htarget
  obtain ⟨rfl, ht⟩ := h.writtenTracked.row_eq mem_graph hp hrow
  refine ⟨?_, Option.isSome_iff_exists.mpr ⟨_, hrow⟩, ?_⟩
  · have hres := ha.resolved
    rw [show (written ids w before after).targets.find? p.id = some t from htarget] at ht
    obtain ⟨u, hu, hut⟩ := Option.map_eq_some_iff.mp ht.symm
    unfold WireNode.address
    rw [if_pos hres, hu, Option.map_some, hut, ← ha.eq]
  · intro hb
    rcases mem_append.mp (mem_of_mem_wokenImports hq) with hs | hs
    · obtain ⟨n, hn, _, u, _, rfl⟩ := mem_importPlaceholders.mp hs
      obtain ⟨m, hm, hmb, rfl⟩ := (mem_diffFile_upsertNodes (some before) h.extracted.nodeIds).mp hn
      have hmp : m = p := inj_on_of_nodup_map h.next.nodeIds hm hp hid
      exact absurd (hmp ▸ hb) hmb
    · obtain ⟨scope, hscope, hs⟩ := mem_flatMap.mp hs
      obtain ⟨r', t', ha', rfl⟩ := importsWaitingAt_addresses hs
      rw [ha'.eq]
      exact (diffFile_wakes h.extracted).mp hscope

theorem address_tried {a : ImportPlaceholder} (ha : p.address = some a)
    (hw : p ∉ before.nodes ∨ (w.store.nodes.contains p.id ∧ before.Wakes after a.at)) :
    a ∈ tried ids w before after := by
  have hres : isResolvedModule p.toNodeRow := by
    unfold WireNode.address at ha
    split at ha
    next hr => exact hr
    next => cases ha
  unfold WireNode.address at ha
  rw [if_pos hres] at ha
  obtain ⟨u, hu, rfl⟩ := Option.map_eq_some_iff.mp ha
  have hc : (written ids w before after).nodes.contains p.id :=
    (h.written_contains hp).mpr (hw.imp_right (·.1))
  have hcand : ∃ q ∈ tried ids w before after, q.id = p.id := by
    rcases hw with hb | ⟨_, hwake⟩
    · refine exists_mem_wokenImports (p := importPlaceholderOf p.toNodeRow (targetRow p.toNodeRecord u))
        (mem_append_left _ (mem_importPlaceholders.mpr ⟨p.toNodeRecord, ?_, hres, u, hu, rfl⟩))
      exact (mem_diffFile_upsertNodes (some before) h.extracted.nodeIds).mpr ⟨p, hp, hb, rfl⟩
    · obtain ⟨r, hr⟩ := Option.isSome_iff_exists.mp hc
      obtain ⟨rfl, ht⟩ := h.writtenTracked.row_eq mem_graph hp hr
      rw [hu, Option.map_some] at ht
      refine exists_mem_wokenImports (p := importPlaceholderOf p.toNodeRow (targetRow p.toNodeRecord u))
        (mem_append_right _ (mem_flatMap.mpr ⟨_, (diffFile_wakes h.extracted).mpr hwake, ?_⟩))
      exact mem_map.mpr ⟨(p.toNodeRow, _), mem_targetedAt.mpr ⟨ht, (find?_eq_some_iff.mp hr).1, hres, rfl⟩, rfl⟩
  obtain ⟨q, hq, hid⟩ := hcand
  have hqa := (h.tried_address hp hq hid).1
  unfold WireNode.address at hqa
  rw [if_pos hres, hu, Option.map_some] at hqa
  rw [Option.some.inj hqa]
  exact hq

end Edit

open Option

variable {w : World}

def Store.addressed (s : Store) (p : WireNode) : Option String := p.address.bind s.importTarget

/-- An import is stored on what its placeholder addresses, or on the placeholder when that is nothing in the index;
and that node exists. -/
def Store.ImportPlaced (s : Store) (e : EdgeRow) (p : WireNode) : Prop :=
  ∃ r, s.edges.find? e.id = some r ∧ r.kind = .imports ∧ r.fromId = e.fromId ∧
    r.toId = (s.addressed p).getD p.id ∧ s.nodes.contains r.toId = true

/-- Where an import of the new graph leads before linking. -/
def World.reach (w : World) (before : FileGraph) (e : EdgeRow) : Option String :=
  if e ∈ before.edges then (w.store.edges.find? e.id).map (·.toId) else some e.toId

/-- The import leads to its placeholder, which is sent, or is stored and addresses nothing or is tried again; or it
was linked to what its placeholder will address. -/
def World.ImportSettles (ids : IndexIds) (w : World) (path : String) (before after : FileGraph) (e : EdgeRow)
    (p : WireNode) : Prop :=
  let named := p.address.bind (w.store.namedWith ids path after)
  (w.reach before e = some p.id ∧ (p ∈ before.nodes → w.store.nodes.contains p.id = true ∧
      (named = none ∨ ∃ a, p.address = some a ∧ before.Wakes after a.at))) ∨
    (named ≠ none ∧ w.reach before e = named)

namespace Edit

variable (h : Edit ids w path before after)

def linked (ids : IndexIds) (rules : LinkRules) (w : World) (path : String) (before after : FileGraph) : Store :=
  (w.store.applyFileDiffLinked ids.toContainerIds rules (diffFile (some before) after).toDiff path .partialDiff).1

theorem linked_eq (ids : IndexIds) (rules : LinkRules) (w : World) (path : String) (before after : FileGraph) :
    ∃ qs, linked ids rules w path before after =
      (((written ids w before after).linkImports (tried ids w before after)).link rules qs).1 :=
  ⟨_, rfl⟩

include h

theorem linked_importTarget (q : ImportPlaceholder) :
    (linked ids rules w path before after).importTarget q = w.store.namedWith ids path after q :=
  (linkImports_importTarget h.triedImports.resolvesModules q).trans
    (importTarget_retold h.tracked.nodes h.writtenTracked q)

variable {x : String}

theorem linked_import (rules : LinkRules) {f : EdgeRow} (hf : (written ids w before after).edges.find? x = some f)
    (hk : f.kind = .imports) :
    (linked ids rules w path before after).edges.find? x =
      some ((written ids w before after).landed (tried ids w before after) f) := by
  have hm := (written ids w before after).landed_moved (tried ids w before after) f
  obtain ⟨qs, hq⟩ := linked_eq ids rules w path before after
  rw [hq, link_edge, linkImports_edge h.triedImports.resolvesModules, hf, map_some, map_some, settled_unlinkable]
  rw [hm.kind, hk]
  rfl

theorem linked_of_some {r : EdgeRow} (hr : (linked ids rules w path before after).edges.find? x = some r)
    (hk : r.kind = .imports) :
    ∃ f, (written ids w before after).edges.find? x = some f ∧ f.kind = .imports ∧
      (written ids w before after).landed (tried ids w before after) f = r := by
  obtain ⟨qs, hq⟩ := linked_eq ids rules w path before after
  have hr' := hr
  rw [hq, link_edge, linkImports_edge h.triedImports.resolvesModules, Option.map_map] at hr'
  obtain ⟨f, hf, hs⟩ := map_eq_some_iff.mp hr'
  have hm := (written ids w before after).landed_moved (tried ids w before after) f
  have hkind : f.kind = .imports := by
    rw [← hm.kind, ← hk, ← hs]
    exact (settled_frame _ rules _ _).2.2.symm
  have hl := h.linked_import rules hf hkind
  rw [hr] at hl
  exact ⟨f, hf, hkind, (Option.some.inj hl).symm⟩

theorem reach_of_written {e : EdgeRow} (he : e ∈ after.edges) (hk : e.kind = .imports) {f : EdgeRow}
    (hf : (written ids w before after).edges.find? e.id = some f) :
    w.reach before e = some f.toId ∧ f.kind = .imports ∧ f.fromId = e.fromId ∧
      (f.toId = e.toId ∨ ¬ ids.IsImport f.toId) := by
  unfold World.reach
  by_cases hb : e ∈ before.edges
  · have hnot := (diffFile_edge_kept h.extracted.edgeIds h.next.edgeIds hb he).2
    have hs := applyDiff_import h.tracked.edges h.tracked.nodes h.stored hb hk hnot hf
    have hplaced := h.tracked.edges.placed path before h.stored e hb hk f hs
    rw [if_pos hb, hs]
    exact ⟨rfl, hplaced⟩
  · have hu : e ∈ (diffFile (some before) after).upsertEdges :=
      (FileGraph.mem_changedEdges h.extracted.edgeIds).mpr ⟨he, hb⟩
    obtain ⟨specifier, hs⟩ := applyDiff_edge_of_sent h.tracked.nodes h.path_ne h.next h.brings hu
    rw [show (w.store.applyDiff _ _).edges.find? e.id = some f from hf] at hs
    cases hs
    rw [if_neg hb]
    exact ⟨rfl, hk, rfl, Or.inl rfl⟩

theorem written_of_reach {e : EdgeRow} (he : e ∈ after.edges) (hk : e.kind = .imports)
    (hr : w.reach before e = some x)
    (hx : ∀ k, x = ids.containerId k → (written ids w before after).nodes.contains x) :
    ∃ f, (written ids w before after).edges.find? e.id = some f ∧ f.toId = x := by
  unfold World.reach at hr
  split at hr
  next hb =>
    obtain ⟨f, hf, rfl⟩ := map_eq_some_iff.mp hr
    obtain ⟨hfk, hff, _⟩ := h.tracked.edges.placed path before h.stored e hb hk f hf
    have hun := h.tracked.edges.unlinked f (find?_eq_some_iff.mp hf).1 hfk
    obtain ⟨hdel, hnot⟩ := diffFile_edge_kept h.extracted.edgeIds h.next.edgeIds hb he
    obtain ⟨L, hL⟩ := h.tracked.nodes.ledger
    have hnames := h.brings.namesNoContainer h.path_ne h.next
    have hshow := applyDiff_shows hL hnames
    refine ⟨f, ?_, rfl⟩
    have hfrom := (Brings.ends_file h.next he).1
    have hkept := applyDiff_edge_kept hL hnames (ids.edgeFile_ne h.path_ne (h.next.edge e he)) hnot hdel hf
    rw [Diff.released_unlinked hun] at hkept
    refine hkept ⟨?_, fun k hto => ?_⟩
    · rw [hff]
      exact ids.file_ne h.path_ne hfrom
    · exact hshow.node_exists_iff.mp (hto ▸ hx k hto)
  next hb =>
    have hu : e ∈ (diffFile (some before) after).upsertEdges :=
      (FileGraph.mem_changedEdges h.extracted.edgeIds).mpr ⟨he, hb⟩
    obtain ⟨specifier, hs⟩ := applyDiff_edge_of_sent h.tracked.nodes h.path_ne h.next h.brings hu
    exact ⟨_, hs, Option.some.inj hr⟩

theorem linked_contains {r : EdgeRow} (hr : (linked ids rules w path before after).edges.find? r.id = some r)
    (hk : r.kind = .imports) (hc : (written ids w before after).nodes.contains r.toId) :
    (linked ids rules w path before after).nodes.contains r.toId := by
  have hres := h.triedImports.resolvesModules
  show ((written ids w before after).linkImports (tried ids w before after)).nodes.contains r.toId
  unfold KeyedTable.contains
  by_cases hi : ids.IsImport r.toId
  · obtain ⟨f, hf, hfk, hland⟩ := h.linked_of_some hr hk
    have hmid : r ∈ ((written ids w before after).linkImports (tried ids w before after)).edges := by
      rw [mem_iff_find?, linkImports_edge hres, hf, ← hland]
      rfl
    rw [linkImports_node_touched hres (fun q _ hq => (h.writtenTracked.importTarget_of_some hq).2 hi)
      (incident_eq_true_iff.mpr ⟨r, hmid, Or.inr rfl⟩)]
    exact hc
  · rw [linkImports_node_other]
    · exact hc
    · rintro q hq hid
      obtain ⟨_, _, _, hqi⟩ := h.triedImports q hq
      exact hi (hid ▸ hqi)

theorem written_importTarget (q : ImportPlaceholder) :
    (written ids w before after).importTarget q = w.store.namedWith ids path after q :=
  importTarget_retold h.tracked.nodes h.writtenTracked q

theorem named_not_import (hq : w.store.namedWith ids path after q = some x) : ¬ ids.IsImport x :=
  (h.writtenTracked.importTarget_of_some ((h.written_importTarget q).trans hq)).2

theorem linked_named (rules : LinkRules) (hq : w.store.namedWith ids path after q = some x) :
    (linked ids rules w path before after).nodes.contains x := by
  have ht : World.Tracked ids ⟨linked ids rules w path before after, retold w.graphs path (some after)⟩ :=
    applyAndLink_tracked h.tracked h.path_ne (g := some after) h.next h.brings
  exact (ht.nodes.importTarget_of_some ((h.linked_importTarget q).trans hq)).1

theorem named_ne {p : WireNode} (hp : p ∈ after.nodes)
    (hn : p.address.bind (w.store.namedWith ids path after) = some x) : x ≠ p.id := by
  rintro rfl
  obtain ⟨a, ha, hax⟩ := bind_eq_some_iff.mp hn
  refine h.named_not_import hax ?_
  unfold WireNode.address at ha
  split at ha
  next hres =>
    have hk := of_decide_eq_true hres
    unfold IndexIds.IsImport
    rw [(h.next.node p hp).2, hk.1, hk.2]
  next => cases ha

theorem addressed_eq (p : WireNode) : (linked ids rules w path before after).addressed p =
    p.address.bind (w.store.namedWith ids path after) := by
  unfold addressed
  congr 1
  funext q
  exact h.linked_importTarget q

variable {e : EdgeRow} (he : e ∈ after.edges) (hk : e.kind = .imports) {p : WireNode} (hp : p ∈ after.nodes)
  (hto : p.id = e.toId)

include he hk hp hto

theorem settles_of_placed (hr : (linked ids rules w path before after).ImportPlaced e p) :
    w.ImportSettles ids path before after e p := by
  obtain ⟨r, hr, hrk, _, hend, hc⟩ := hr
  rw [h.addressed_eq] at hend
  obtain ⟨f, hf, hfk, hland⟩ := h.linked_of_some hr hrk
  obtain ⟨hreach, _, _, hplace⟩ := h.reach_of_written he hk hf
  have hstay : (∀ q ∈ tried ids w before after, f.toId = q.id → (written ids w before after).importTarget q = none) →
      r.toId = f.toId := by
    intro hq
    rw [← hland, landed_eq_of_forall fun _ q hqt hid => hq q hqt hid]
  by_cases hat : f.toId = p.id
  · refine .inl ⟨hat ▸ hreach, fun hb => ?_⟩
    cases hn : p.address.bind (w.store.namedWith ids path after) with
    | none =>
      rw [hn] at hend
      refine ⟨?_, Or.inl rfl⟩
      have hnode := (h.written_contains hp).mp (by
        obtain ⟨n, hmem, hid⟩ := contains_iff.mp hc
        obtain ⟨qs, hlink⟩ := linked_eq ids rules w path before after
        have hsome := (linkImports_node_of_some (find?_key hmem)).1
        exact contains_iff.mpr ⟨n, (find?_eq_some_iff.mp hsome).1, hid.trans hend⟩)
      exact hnode.resolve_left (not_not.mpr hb)
    | some x =>
      rw [hn] at hend
      have hx := h.named_ne hp hn
      have htried : ∃ q ∈ tried ids w before after, q.id = p.id := by
        by_contra hno
        have := hstay fun q hq hid => absurd ⟨q, hq, hid.symm.trans hat⟩ hno
        exact hx ((hend.symm.trans this).trans hat)
      obtain ⟨q, hq, hid⟩ := htried
      obtain ⟨ha, hcw, hwake⟩ := h.tried_address hp hq hid
      exact ⟨((h.written_contains hp).mp hcw).resolve_left (not_not.mpr hb), Or.inr ⟨q, ha, hwake hb⟩⟩
  · have hni : ¬ ids.IsImport f.toId := hplace.resolve_left fun hfe => hat (hfe.trans hto.symm)
    have hsame : r.toId = f.toId := hstay fun q hq hid => by
      obtain ⟨_, _, _, hi⟩ := h.triedImports q hq
      exact absurd (hid ▸ hi) hni
    cases hn : p.address.bind (w.store.namedWith ids path after) with
    | none =>
      rw [hn] at hend
      exact absurd (hsame.symm.trans hend) hat
    | some x =>
      rw [hn] at hend
      refine .inr ⟨by simp [hn], ?_⟩
      rw [hreach, hn, ← hsame, hend]
      rfl

omit hto in
theorem placed_of_settles (hs : w.ImportSettles ids path before after e p) :
    (linked ids rules w path before after).ImportPlaced e p := by
  unfold Store.ImportPlaced
  rw [h.addressed_eq]
  rcases hs with ⟨hreach, hnode⟩ | ⟨hsome, hreach⟩
  · have hcw : (written ids w before after).nodes.contains p.id := by
      refine (h.written_contains hp).mpr ?_
      by_cases hb : p ∈ before.nodes
      · exact .inr (hnode hb).1
      · exact .inl hb
    obtain ⟨f, hf, hft⟩ := h.written_of_reach he hk hreach fun _ _ => hcw
    obtain ⟨_, hfk, hff, _⟩ := h.reach_of_written he hk hf
    have hl := h.linked_import rules hf hfk
    have hm := (written ids w before after).landed_moved (tried ids w before after) f
    refine ⟨_, hl, hm.kind.trans hfk, hm.fromId.trans hff, ?_⟩
    cases hn : p.address.bind (w.store.namedWith ids path after) with
    | none =>
      have hstay : (written ids w before after).landed (tried ids w before after) f = f := by
        refine landed_eq_of_forall fun _ q hq hid => ?_
        have ha := (h.tried_address hp hq (hid.symm.trans hft)).1
        rw [ha] at hn
        exact (h.written_importTarget q).trans hn
      rw [hstay] at hl ⊢
      have hfid : f.id = e.id := (find?_eq_some_iff.mp hf).2
      exact ⟨hft, h.linked_contains (hfid ▸ hl) hfk (hft ▸ hcw)⟩
    | some x =>
      obtain ⟨a, ha, hax⟩ := bind_eq_some_iff.mp hn
      have htried : a ∈ tried ids w before after := by
        refine h.address_tried hp ha ?_
        by_cases hb : p ∈ before.nodes
        · obtain ⟨hc, hnone | ⟨a', ha', hwake⟩⟩ := hnode hb
          · rw [hn] at hnone
            cases hnone
          · rw [ha] at ha'
            cases ha'
            exact .inr ⟨hc, hwake⟩
        · exact .inl hb
      have haid : a.id = p.id := by
        unfold WireNode.address at ha
        split at ha
        next =>
          obtain ⟨_, _, rfl⟩ := map_eq_some_iff.mp ha
          rfl
        next => cases ha
      have htarget := (h.written_importTarget a).trans hax
      have hland : (written ids w before after).landed (tried ids w before after) f =
          { f with toId := x, resolved := true } :=
        landed_of_target (keepFirst_keys_nodup _ _) htried htarget
          (h.triedImports.target_ne h.writtenTracked htarget) hfk (hft.trans haid.symm)
      rw [hland]
      exact ⟨rfl, h.linked_named rules hax⟩
  · obtain ⟨x, hn⟩ := ne_none_iff_exists'.mp hsome
    obtain ⟨a, ha, hax⟩ := bind_eq_some_iff.mp hn
    have hcw := (h.writtenTracked.importTarget_of_some ((h.written_importTarget a).trans hax)).1
    obtain ⟨f, hf, hft⟩ := h.written_of_reach he hk (hreach.trans hn) fun _ _ => hcw
    obtain ⟨_, hfk, hff, _⟩ := h.reach_of_written he hk hf
    have hstay : (written ids w before after).landed (tried ids w before after) f = f := by
      refine landed_eq_of_forall fun _ q hq hid => ?_
      obtain ⟨_, _, _, hi⟩ := h.triedImports q hq
      rw [← hid, hft] at hi
      exact absurd hi (h.named_not_import hax)
    have hl := h.linked_import rules hf hfk
    rw [hstay] at hl
    refine ⟨f, hl, hfk, hff, ?_⟩
    rw [hn, hft]
    exact ⟨rfl, h.linked_named rules hax⟩

end Edit

/-- An edit leaves an import where it belongs exactly when it leads to a placeholder that is sent, waits or is tried
again, or was linked to what it addresses. -/
theorem edited_import_placed_iff (ids : IndexIds) (rules : LinkRules) (events : List FileEvent)
    (hv : ∀ event ∈ events, event.Valid ids) (path : String) (before after : FileGraph)
    (hb : (World.run ids rules events).graphs path = some before) (ha : after.Extracted ids path) :
    let w := World.run ids rules events
    let s := (w.store.applyFileDiffLinked ids.toContainerIds rules (diffFile (some before) after).toDiff path
      .partialDiff).1
    ∀ e ∈ after.edges, e.kind = .imports → ∀ p ∈ after.nodes, p.id = e.toId →
      (s.ImportPlaced e p ↔ w.ImportSettles ids path before after e p) := by
  intro w s e he hk p hp hto
  have h : Edit ids w path before after := ⟨World.run_tracked hv, hb, ha⟩
  exact ⟨h.settles_of_placed he hk hp hto, h.placed_of_settles he hk hp⟩

def twoFileIds : IndexIds where
  toContainerIds := taggedIds
  nodeOf x :=
    match x.toList.head? with
    | some 'c' => ("", .module, some "container")
    | some 'a' => ("a.ts", .file, none)
    | some 'm' => ("a.ts", .module, some resolvedModuleNativeKind)
    | _ => ("b.ts", .file, none)
  edgeFile x := if x.toList.head? = some 'e' then "" else "a.ts"
  containerId_nodeOf k := by simp [taggedIds, taggedId]
  definesEdgeId_file k i := by simp [taggedIds, taggedId]

def importedGraph : FileGraph where
  nodes := [{ id := "b", kind := .file, filePath := "b.ts", language := "ts" }]

def importingGraph (specifier : String) (line : Int) : FileGraph where
  nodes := [{ id := "a", kind := .file, filePath := "a.ts", language := "ts" },
    { id := "m", kind := .module, filePath := "a.ts", language := "ts", nativeKind := some resolvedModuleNativeKind,
      startLine := line, target := some { scope := "b.ts", key := "*" } }]
  edges := [{ id := "i", fromId := "a", toId := "m", kind := .imports, specifier := some specifier }]

def twoFileEvents : List FileEvent :=
  [.extracted "b.ts" importedGraph true, .extracted "a.ts" (importingGraph "./b" 1) true]

theorem importedGraph_extracted : importedGraph.Extracted twoFileIds "b.ts" := by
  constructor <;> decide +kernel

theorem importingGraph_extracted (specifier : String) (line : Int) :
    (importingGraph specifier line).Extracted twoFileIds "a.ts" := by
  constructor <;> simp [importingGraph, twoFileIds]

theorem twoFileEvents_valid : ∀ event ∈ twoFileEvents, event.Valid twoFileIds := by
  intro event he
  rcases List.mem_cons.mp he with rfl | he
  · exact ⟨by decide, importedGraph_extracted⟩
  · rw [List.mem_singleton.mp he]
    exact ⟨by decide, importingGraph_extracted "./b" 1⟩

/-- The import moves to another line: its placeholder and edge are sent, and linked again. -/
theorem edited_import_placed_movedLine :
    ((World.run twoFileIds {} twoFileEvents).store.applyFileDiffLinked taggedIds {}
      (diffFile (some (importingGraph "./b" 1)) (importingGraph "./b.js" 2)).toDiff "a.ts" .partialDiff).1.ImportPlaced
      { id := "i", fromId := "a", toId := "m", kind := .imports, specifier := some "./b.js" }
      { id := "m", kind := .module, filePath := "a.ts", language := "ts", nativeKind := some resolvedModuleNativeKind,
        startLine := 2, target := some { scope := "b.ts", key := "*" } } :=
  (edited_import_placed_iff twoFileIds {} twoFileEvents twoFileEvents_valid "a.ts" (importingGraph "./b" 1)
    (importingGraph "./b.js" 2) rfl (importingGraph_extracted _ _) _ (by decide) rfl _ (by decide) rfl).mpr
    (.inl ⟨by decide +kernel, fun hb => absurd hb (by decide)⟩)

/-- The import is spelled another way: only its edge is sent, onto the placeholder that linking dropped. -/
theorem edited_import_dangles :
    (∀ event ∈ twoFileEvents, event.Valid twoFileIds) ∧
    (World.run twoFileIds {} twoFileEvents).graphs "a.ts" = some (importingGraph "./b" 1) ∧
    (importingGraph "@app/b" 1).Extracted twoFileIds "a.ts" ∧
    let s := ((World.run twoFileIds {} twoFileEvents).store.applyFileDiffLinked taggedIds {}
      (diffFile (some (importingGraph "./b" 1)) (importingGraph "@app/b" 1)).toDiff "a.ts" .partialDiff).1
    ∃ e ∈ s.edges, e.id = "i" ∧ e.kind = .imports ∧ s.nodes.contains e.toId = false := by
  refine ⟨twoFileEvents_valid, rfl, importingGraph_extracted _ _,
    { id := "i", fromId := "a", toId := "m", kind := .imports, specifier := some "@app/b" }, ?_⟩
  decide +kernel

/-- After any file events, restarts of a plugin among them, the stored nodes are those of each file's last graph, but
for the containers and the imports that linking drops. -/
theorem stored_nodes_are_the_files (ids : IndexIds) (rules : LinkRules) (events : List FileEvent)
    (hv : ∀ event ∈ events, event.Valid ids) {r : NodeRow} (hc : ∀ k, r.id ≠ ids.containerId k)
    (hi : isResolvedModule r = false) :
    let w := World.run ids rules events
    r ∈ w.store.nodes ↔ ∃ g, w.graphs r.filePath = some g ∧ ∃ n ∈ g.nodes, n.toNodeRow = r := by
  intro w
  have h : NodesTracked ids w.store w.graphs := (World.run_tracked hv).nodes
  constructor
  · intro hr
    obtain ⟨g, hg, n, hn, hrow, _⟩ := h.node r hr hc
    exact ⟨g, hg, n, hn, hrow⟩
  · rintro ⟨g, hg, n, hn, rfl⟩
    obtain ⟨r, hr, hid⟩ := contains_iff.mp (h.present _ g hg n hn hi)
    obtain ⟨g', hg', m, hm, hrow, _⟩ := h.node r hr (hid ▸ hc)
    have hmid : m.id = n.id := (congrArg NodeRow.id hrow).trans hid
    -- an id tells its file, so the row under the node's id is of the same graph
    have hfile := ((h.held _ g' hg').2.node m hm).2
    rw [hmid, ((h.held _ g hg).2.node n hn).2] at hfile
    obtain ⟨hpath, _⟩ := Prod.mk.inj hfile
    rw [← hpath, hg] at hg'
    cases hg'
    rwa [← inj_on_of_nodup_map (h.held _ g hg).2.nodeIds hm hn hmid, hrow]

theorem stored_nodes_of_twoFiles : { id := "b", kind := .file, filePath := "b.ts", language := "ts" : NodeRow } ∈
    (World.run twoFileIds {} twoFileEvents).store.nodes :=
  (stored_nodes_are_the_files twoFileIds {} twoFileEvents twoFileEvents_valid
    (twoFileIds.file_ne (show "b.ts" ≠ "" by decide) rfl) rfl).mpr ⟨importedGraph, rfl, _, mem_cons_self, rfl⟩

end GMesh
