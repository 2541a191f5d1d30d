import GMesh.PageChain
import Mathlib

namespace GMesh

open List

structure EdgeCount where
  total : Nat
  unresolved : Nat
  deriving DecidableEq, Repr

structure FileTally where
  path : String
  refs : Nat
  deriving DecidableEq, Repr

def inScope (q : EdgeQuery) (e : EdgeRow) (n : NodeRow) : Bool :=
  e.thisEnd q.direction == q.anchorNodeId && (q.edgeKinds.isEmpty || q.edgeKinds.contains e.kind) &&
    (q.filePaths.isEmpty || q.filePaths.contains n.filePath)

def countedEdges (g : Graph) (q : EdgeQuery) : List (EdgeRow × NodeRow) :=
  g.edges.rows.filterMap fun e => (g.nodes.find? (e.otherEnd q.direction)).bind fun n =>
    if inScope q e n && !supersededCall g e then some (e, n) else none

def countEdgesByResolution (g : Graph) (q : EdgeQuery) : EdgeCount where
  total := (countedEdges g q).length
  unresolved := ((countedEdges g q).map fun r => 1 - r.1.resolved.toNat).sum

/-- `GROUP BY n.filePath ORDER BY refs DESC, filePath ASC`. -/
def fileTallies (g : Graph) (q : EdgeQuery) : List FileTally :=
  let paths := (countedEdges g q).map (·.2.filePath)
  (paths.dedup.map fun path => ⟨path, paths.count path⟩).insertionSort fun a b =>
    b.refs < a.refs ∨ a.refs = b.refs ∧ a.path ≤ b.path

def tallyEdgeFilesLimited (g : Graph) (q : EdgeQuery) (limit : Nat) : List FileTally := (fileTallies g q).take limit

variable {g : Graph} {q : EdgeQuery}

theorem mem_countedEdges {e : EdgeRow} {n : NodeRow} : (e, n) ∈ countedEdges g q ↔ e ∈ g.edges ∧
    g.nodes.find? (e.otherEnd q.direction) = some n ∧ inScope q e n ∧ supersededCall g e = false := by
  unfold countedEdges
  rw [mem_filterMap]
  constructor
  · rintro ⟨e', he, hrow⟩
    obtain ⟨n', hn, hrow⟩ := Option.bind_eq_some_iff.mp hrow
    split at hrow
    next hwhere =>
      cases hrow
      obtain ⟨hscope, hcall⟩ := Bool.and_eq_true_iff.mp hwhere
      exact ⟨he, hn, hscope, by simpa using hcall⟩
    next => cases hrow
  · rintro ⟨he, hn, hscope, hcall⟩
    exact ⟨e, he, by simp [hn, hscope, hcall]⟩

theorem fileTallies_perm (g : Graph) (q : EdgeQuery) : (fileTallies g q).Perm
    (((countedEdges g q).map (·.2.filePath)).dedup.map fun path =>
      ⟨path, ((countedEdges g q).map (·.2.filePath)).count path⟩) :=
  perm_insertionSort _ _

theorem mem_fileTallies_path {path : String} :
    path ∈ (fileTallies g q).map FileTally.path ↔ ∃ r ∈ countedEdges g q, r.2.filePath = path := by
  rw [((fileTallies_perm g q).map FileTally.path).mem_iff, map_map]
  simp [Function.comp_def]

theorem matchingEdges_eq (g : Graph) (q : EdgeQuery) : matchingEdges g q =
    ((countedEdges g q).filter fun r => distinctFilter g q r.1).map fun r => ⟨r.1, edgeRank q r.1 r.2⟩ := by
  unfold matchingEdges countedEdges
  rw [filter_filterMap, map_filterMap]
  refine filterMap_congr fun e _ => ?_
  unfold scoreEdge
  cases g.nodes.find? (e.otherEnd q.direction) with
  | none => rfl
  | some n =>
    have hwhere : matchesQuery g q e n = (inScope q e n && !supersededCall g e && distinctFilter g q e) := by
      simp only [matchesQuery, inScope, Bool.and_assoc, Bool.and_comm (distinctFilter g q e)]
    simp only [Option.bind_some, hwhere]
    cases inScope q e n && !supersededCall g e <;> cases hd : distinctFilter g q e <;> simp [hd]

/-- A superseded call stands beside a bound call of the same pair, which is never superseded. -/
theorem exists_counted_of_call {e : EdgeRow} {n : NodeRow} (he : e ∈ g.edges) (hcalls : e.kind = .calls)
    (hn : g.nodes.find? (e.otherEnd q.direction) = some n) (hscope : inScope q e n) :
    ∃ b, (b, n) ∈ countedEdges g q ∧ b.fromId = e.fromId ∧ b.toId = e.toId ∧ b.kind = .calls := by
  cases hcall : supersededCall g e with
  | false => exact ⟨e, mem_countedEdges.mpr ⟨he, hn, hscope, hcall⟩, rfl, rfl, hcalls⟩
  | true =>
    unfold supersededCall at hcall
    obtain ⟨b, hb, hpair⟩ := any_eq_true.mp (Bool.and_eq_true_iff.mp hcall).2
    simp only [Bool.and_eq_true, beq_iff_eq] at hpair
    obtain ⟨⟨⟨hfrom, hto⟩, hkind⟩, hbound⟩ := hpair
    have hother : b.otherEnd q.direction = e.otherEnd q.direction := by
      cases hd : q.direction <;> simp [EdgeRow.otherEnd, hfrom, hto]
    have hthis : b.thisEnd q.direction = e.thisEnd q.direction := by
      cases hd : q.direction <;> simp [EdgeRow.thisEnd, hfrom, hto]
    refine ⟨b, mem_countedEdges.mpr ⟨hb, hother ▸ hn, ?_, ?_⟩, hfrom, hto, hkind⟩
    · rwa [inScope, hthis, hkind, ← hcalls]
    · simp [supersededCall, Option.isNone_iff_eq_none, Option.isSome_iff_ne_none.mp hbound]

theorem sum_unresolved (rows : List (EdgeRow × NodeRow)) :
    (rows.map fun r => 1 - r.1.resolved.toNat).sum = rows.countP fun r => !r.1.resolved := by
  induction rows with
  | nil => rfl
  | cons r _ ih =>
    rw [map_cons, sum_cons, ih, countP_cons]
    cases r.1.resolved <;> simp [Nat.add_comm]

structure CountsMatch (g : Graph) (q : EdgeQuery) (served : List ScoredEdge) : Prop where
  total : (countEdgesByResolution g q).total = served.length
  unresolved : (countEdgesByResolution g q).unresolved = served.countP fun s => !s.edge.resolved
  refs : ∀ limit, (fileTallies g q).length ≤ limit →
    ((tallyEdgeFilesLimited g q limit).map FileTally.refs).sum = served.length
  files : ∀ limit, (fileTallies g q).length ≤ limit → ∀ path,
    path ∈ (tallyEdgeFilesLimited g q limit).map FileTally.path ↔
      ∃ s ∈ served, ∃ n, g.nodes.find? (s.edge.otherEnd q.direction) = some n ∧ n.filePath = path
  callers : ∀ e ∈ g.edges, e.kind = .calls → ∀ n, g.nodes.find? (e.otherEnd q.direction) = some n →
    inScope q e n = true → ∃ s ∈ served, s.edge.fromId = e.fromId ∧ s.edge.toId = e.toId ∧ s.edge.kind = .calls

theorem countsMatch_of_perm {served : List ScoredEdge} (hq : q.distinct = .edges)
    (h : served.Perm (matchingEdges g q)) : CountsMatch g q served := by
  rw [matchingEdges_eq, filter_eq_self.mpr fun _ _ => by simp [distinctFilter, hq]] at h
  have hmem : ∀ {e n}, (e, n) ∈ countedEdges g q → ⟨e, edgeRank q e n⟩ ∈ served :=
    fun hr => h.mem_iff.mpr (mem_map_of_mem hr)
  have htotal : (countedEdges g q).length = served.length := by rw [h.length_eq, length_map]
  refine ⟨htotal, ?_, fun limit hlimit => ?_, fun limit hlimit path => ?_, fun e he hcalls n hn hscope => ?_⟩
  · rw [h.countP_eq, countP_map]
    exact sum_unresolved _
  · rw [tallyEdgeFilesLimited, take_of_length_le hlimit, ((fileTallies_perm g q).map FileTally.refs).sum_eq, map_map,
      ← htotal]
    exact (sum_map_count_dedup_eq_length _).trans (length_map _)
  · rw [tallyEdgeFilesLimited, take_of_length_le hlimit, mem_fileTallies_path]
    constructor
    · rintro ⟨⟨e, n⟩, hr, hpath⟩
      exact ⟨_, hmem hr, n, (mem_countedEdges.mp hr).2.1, hpath⟩
    · rintro ⟨s, hs, n, hn, hpath⟩
      obtain ⟨⟨e, m⟩, hr, rfl⟩ := mem_map.mp (h.mem_iff.mp hs)
      rw [(mem_countedEdges.mp hr).2.1] at hn
      exact ⟨(e, m), hr, (Option.some.inj hn).symm ▸ hpath⟩
  · obtain ⟨b, hb, hpair⟩ := exists_counted_of_call he hcalls hn hscope
    exact ⟨_, hmem hb, hpair⟩

/-- Counts and tallies describe the rows that a complete chain of pages serves. -/
theorem counts_describe_pages {τ : Type} (codec : CursorCodec τ) (g : Graph) (q : EdgeQuery)
    (hq : q.distinct = .edges) (reqs : Nat → PageRequest ScoredEdge τ) (hp : ∀ i, 1 ≤ (reqs i).pageSize) :
    ∃ (pages : List (Page ScoredEdge τ)) (final : Page ScoredEdge τ),
      (∀ j (hj : j < pages.length), pageAt codec g q id reqs j = .ok pages[j]) ∧
      pageAt codec g q id reqs pages.length = .ok final ∧
      (∀ page ∈ pages, page.hasMore = true) ∧ final.hasMore = false ∧
      CountsMatch g q (pages.flatMap Page.results ++ final.results) := by
  obtain ⟨pages, final, hpages, hfinal, hall, hlast, hcat⟩ := pages_from_eq_remaining codec g q id hp
  refine ⟨pages, final, hpages, hfinal, hall, hlast, ?_⟩
  rw [hcat, map_id]
  exact countsMatch_of_perm hq (sortPage_perm _)

theorem counts_describe_twoCalls : ∃ pages final, ServedUpTo twoCalls callsOfA id pages final ∧
    (pages.flatMap Page.results ++ final.results).length = 2 := by
  obtain ⟨pages, final, hpages, hfinal, _, hlast, hserved⟩ := counts_describe_pages verbatimCursor twoCalls callsOfA rfl
    oneRowPages fun _ => le_rfl
  exact ⟨pages, final, ⟨hpages, hfinal, hlast⟩, hserved.total.symm.trans (by decide)⟩

def siblingRank (e : EdgeRow) : Nat ×ₗ String := toLex (1 - e.resolved.toNat, e.id)

theorem outranks_iff {d e : EdgeRow} :
    ((d.resolved && !e.resolved) || (d.resolved == e.resolved && decide (d.id < e.id))) ↔
      siblingRank d < siblingRank e := by
  unfold siblingRank
  rw [Prod.Lex.toLex_lt_toLex]
  cases d.resolved <;> cases e.resolved <;> simp

variable {e : EdgeRow} {n : NodeRow}

def siblings (g : Graph) (q : EdgeQuery) (e : EdgeRow) : List EdgeRow := g.edges.rows.filter fun d =>
  d.thisEnd q.direction == q.anchorNodeId && d.otherEnd q.direction == e.otherEnd q.direction && d.kind == e.kind

theorem mem_siblings {d : EdgeRow} : d ∈ siblings g q e ↔ d ∈ g.edges ∧ d.thisEnd q.direction = q.anchorNodeId ∧
    d.otherEnd q.direction = e.otherEnd q.direction ∧ d.kind = e.kind := by
  unfold siblings
  simp only [mem_filter, Bool.and_eq_true, beq_iff_eq, and_assoc]
  exact .rfl

theorem outrankedSibling_eq_false : outrankedSibling g q e = false ↔
    ∀ d ∈ siblings g q e, siblingRank e ≤ siblingRank d := by
  unfold outrankedSibling
  rw [any_eq_false]
  simp only [Bool.and_eq_true, outranks_iff, not_and, siblings, mem_filter, not_lt, and_imp]

theorem mem_matchingEdges_distinct (hq : q.distinct = .otherEndpoint) {s : ScoredEdge} :
    s ∈ matchingEdges g q ↔ ∃ n, (s.edge, n) ∈ countedEdges g q ∧
      (∀ d ∈ siblings g q s.edge, siblingRank s.edge ≤ siblingRank d) ∧ s.rank = edgeRank q s.edge n := by
  rw [matchingEdges_eq, mem_map]
  simp only [mem_filter, distinctFilter, hq, Bool.not_eq_true', outrankedSibling_eq_false]
  constructor
  · rintro ⟨⟨e, n⟩, ⟨hr, hleast⟩, rfl⟩
    exact ⟨n, hr, hleast, rfl⟩
  · rintro ⟨n, hr, hleast, hrank⟩
    exact ⟨(s.edge, n), ⟨hr, hleast⟩, by rw [← hrank]⟩

/-- Beside an edge in scope that is no call, the first of its siblings is the only row of the listing. -/
theorem exists_only_row (hq : q.distinct = .otherEndpoint) (he : e ∈ g.edges) (hcalls : e.kind ≠ .calls)
    (hn : g.nodes.find? (e.otherEnd q.direction) = some n) (hscope : inScope q e n) :
    ∃ s : ScoredEdge, (e.resolved → s.edge.resolved) ∧ ∀ t, t = s ↔ t ∈ matchingEdges g q ∧
      t.edge.kind = e.kind ∧ t.edge.otherEnd q.direction = e.otherEnd q.direction := by
  have hthis : e.thisEnd q.direction = q.anchorNodeId := by
    simp only [inScope, Bool.and_eq_true, beq_iff_eq] at hscope
    exact hscope.1.1
  have hself : e ∈ siblings g q e := mem_siblings.mpr ⟨he, hthis, rfl, rfl⟩
  obtain ⟨b, hb, hleast⟩ := Finset.exists_min_image (siblings g q e).toFinset siblingRank ⟨e, mem_toFinset.mpr hself⟩
  simp only [mem_toFinset] at hb hleast
  obtain ⟨hbg, hbthis, hbfar, hbkind⟩ := mem_siblings.mp hb
  have hsame : ∀ {d : EdgeRow}, d.kind = e.kind → d.otherEnd q.direction = e.otherEnd q.direction →
      siblings g q d = siblings g q e := fun hkind hfar => by rw [siblings, hkind, hfar, siblings]
  have hbscope : inScope q b n = inScope q e n := by rw [inScope, hbthis, ← hthis, hbkind, inScope, hthis]
  have hcounted : (b, n) ∈ countedEdges g q :=
    mem_countedEdges.mpr ⟨hbg, hbfar ▸ hn, hbscope ▸ hscope, by simp [supersededCall, hbkind, hcalls]⟩
  refine ⟨⟨b, edgeRank q b n⟩, fun hres => ?_, fun t => ⟨?_, ?_⟩⟩
  · by_contra hb'
    replace hb' : b.resolved = false := by simpa using hb'
    exact not_lt_of_ge (hleast e hself) (outranks_iff.mp (by simp [hres, hb']))
  · rintro rfl
    refine ⟨(mem_matchingEdges_distinct hq).mpr ⟨n, hcounted, ?_, rfl⟩, hbkind, hbfar⟩
    rwa [hsame hbkind hbfar]
  · rintro ⟨ht, hkind, hfar⟩
    obtain ⟨m, htm, htleast, hrank⟩ := (mem_matchingEdges_distinct hq).mp ht
    rw [hsame hkind hfar] at htleast
    obtain ⟨htg, htn, htscope, _⟩ := mem_countedEdges.mp htm
    have hmem : t.edge ∈ siblings g q e := by
      simp only [inScope, Bool.and_eq_true, beq_iff_eq] at htscope
      exact mem_siblings.mpr ⟨htg, htscope.1.1, hfar, hkind⟩
    have hrankEq := le_antisymm (htleast b hb) (hleast t.edge hmem)
    have hid : t.edge.id = b.id := congrArg (fun r => (ofLex r).2) hrankEq
    have hedge : t.edge = b := g.edges.key_injective htg hbg hid
    rw [hfar, hn] at htn
    cases htn
    rw [hedge] at hrank
    cases t
    cases hedge
    exact congrArg _ hrank

/-- A chain of pages over distinct far ends lists each far end once for each kind other than calls, by a resolved
edge where there is one. -/
theorem one_row_per_endpoint {τ : Type} (codec : CursorCodec τ) (g : Graph) (q : EdgeQuery)
    (hq : q.distinct = .otherEndpoint) (reqs : Nat → PageRequest ScoredEdge τ) (hp : ∀ i, 1 ≤ (reqs i).pageSize) :
    ∃ (pages : List (Page ScoredEdge τ)) (final : Page ScoredEdge τ),
      (∀ j (hj : j < pages.length), pageAt codec g q id reqs j = .ok pages[j]) ∧
      pageAt codec g q id reqs pages.length = .ok final ∧
      (∀ page ∈ pages, page.hasMore = true) ∧ final.hasMore = false ∧
      ∀ e ∈ g.edges, e.kind ≠ .calls → ∀ n, g.nodes.find? (e.otherEnd q.direction) = some n → inScope q e n = true →
        ∃ s, (pages.flatMap Page.results ++ final.results).filter (fun s => s.edge.kind == e.kind &&
          s.edge.otherEnd q.direction == e.otherEnd q.direction) = [s] ∧ s.edge ∈ g.edges ∧
          (e.resolved = true → s.edge.resolved = true) := by
  obtain ⟨pages, final, hpages, hfinal, hall, hlast, hcat⟩ := pages_from_eq_remaining codec g q id hp
  refine ⟨pages, final, hpages, hfinal, hall, hlast, fun e he hcalls n hn hscope => ?_⟩
  rw [hcat, map_id]
  obtain ⟨s, hres, honly⟩ := exists_only_row hq he hcalls hn hscope
  refine ⟨s, perm_singleton.mp ((perm_ext_iff_of_nodup ?_ (nodup_singleton s)).mpr fun t => ?_),
    (mem_matchingEdges.mp ((honly s).mp rfl).1).1, hres⟩
  · exact ((sortPage_perm _).nodup_iff.mpr (matchingEdges_ids_nodup g q).of_map).filter _
  · simp [mem_filter, mem_unpagedEdges, honly t]

def parallelEdges : Graph where
  nodes := ⟨[{ id := "b", filePath := "b.rs" }], by decide⟩
  edges := ⟨[{ id := "e1", fromId := "b", toId := "a", kind := .supertypeOf },
    { id := "e2", fromId := "b", toId := "a", kind := .supertypeOf, resolved := true }], by decide⟩

theorem one_row_per_endpoint_parallel : ∃ pages final s, ServedUpTo parallelEdges
    { anchorNodeId := "a", direction := .incoming, distinct := .otherEndpoint } id pages final ∧
      (pages.flatMap Page.results ++ final.results).filter (fun s => s.edge.kind == .supertypeOf &&
        s.edge.otherEnd .incoming == "b") = [s] ∧ s.edge.resolved = true := by
  obtain ⟨pages, final, hpages, hfinal, _, hlast, hrow⟩ := one_row_per_endpoint verbatimCursor parallelEdges
    { anchorNodeId := "a", direction := .incoming, distinct := .otherEndpoint } rfl oneRowPages fun _ => le_rfl
  obtain ⟨s, hs, _, hres⟩ := hrow { id := "e2", fromId := "b", toId := "a", kind := .supertypeOf, resolved := true }
    (by decide) (by decide) _ rfl (by decide)
  exact ⟨pages, final, s, ⟨hpages, hfinal, hlast⟩, hs, hres rfl⟩

end GMesh
