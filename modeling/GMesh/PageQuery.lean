import GMesh.Rows
import GMesh.TokenCodec
import Mathlib.Data.Prod.Lex
import Mathlib.Data.List.Sort
import Mathlib.Order.Compare

namespace GMesh

/-- An edge's position in the page order, and the keyset cursor resuming after it. -/
structure EdgeRank where
  resolved : Bool
  locality : Int
  fileRow : Int
  filePath : String
  startLine : Int
  id : String
  deriving DecidableEq, Repr

namespace EdgeRank

def rowValue (r : EdgeRank) : Int ×ₗ Int ×ₗ Int ×ₗ String ×ₗ Int ×ₗ String :=
  toLex (1 - r.resolved.toNat, toLex (r.locality, toLex (r.fileRow, toLex (r.filePath,
    toLex (r.startLine, r.id)))))

def orderBy (a b : EdgeRank) : Ordering :=
  (compare b.resolved a.resolved).then <| (compare a.locality b.locality).then <|
    (compare a.fileRow b.fileRow).then <| (compare a.filePath b.filePath).then <|
      (compare a.startLine b.startLine).then (compare a.id b.id)

def SortsBefore (a b : EdgeRank) : Prop := (orderBy a b).isLE = true

instance : DecidableRel SortsBefore := fun a b => inferInstanceAs (Decidable ((orderBy a b).isLE = true))

theorem sortsBefore_iff {a b : EdgeRank} : SortsBefore a b ↔ a.rowValue ≤ b.rowValue := by
  have hr : ∀ x y : Bool, (compare y x = .lt ↔ (1 : Int) - x.toNat < 1 - y.toNat) ∧
      (compare y x = .eq ↔ (1 : Int) - x.toNat = 1 - y.toNat) := by decide
  simp only [SortsBefore, orderBy, rowValue, Ordering.isLE_then_iff_or, Prod.Lex.le_iff, ofLex_toLex,
    compare_lt_iff_lt, compare_eq_iff_eq, Std.LawfulBCmp.isLE_iff_le, (hr _ _).1, (hr _ _).2]

end EdgeRank

open List

section

variable {ρ κ : Type} [LinearOrder κ] {key : ρ → κ} {r : ρ → ρ → Prop} [DecidableRel r] {rows : List ρ}

theorem insertionSort_strict (hr : ∀ a b, r a b ↔ key a ≤ key b) (hkeys : (rows.map key).Nodup) :
    (rows.insertionSort r).Pairwise (fun a b => key a < key b) := by
  have htotal := total_of_key hr
  have htrans := trans_of_key hr
  have hn := ((perm_insertionSort r rows).map key).nodup_iff.mpr hkeys
  refine ((pairwise_insertionSort r rows).and (pairwise_map.mp hn)).imp ?_
  exact fun ⟨hle, hne⟩ => lt_of_le_of_ne ((hr _ _).mp hle) hne

theorem insertionSort_filter (hr : ∀ a b, r a b ↔ key a ≤ key b) (hkeys : (rows.map key).Nodup) (p : ρ → Bool) :
    (rows.filter p).insertionSort r = (rows.insertionSort r).filter p :=
  List.Perm.eq_of_pairwise' (insertionSort_strict hr ((List.Sublist.map _ filter_sublist).nodup hkeys))
    ((insertionSort_strict hr hkeys).filter p)
    ((perm_insertionSort _ _).trans ((perm_insertionSort _ _).filter p).symm)

end

inductive Distinctness
  | edges | otherEndpoint
  deriving DecidableEq, Repr

/-- The arguments of one edge listing, apart from its page size and cursor. -/
structure EdgeQuery where
  anchorNodeId : String
  direction : Direction
  edgeKinds : List EdgeKind := []
  filePaths : List String := []
  anchorFilePath : String := ""
  distinct : Distinctness := .edges
  deriving DecidableEq, Repr

structure ScoredEdge where
  edge : EdgeRow
  rank : EdgeRank
  deriving DecidableEq, Repr

/-- The anchor's directory with its trailing `/`, empty at the project root. -/
def directoryPrefix (anchorFilePath : String) : List Char :=
  (anchorFilePath.toList.reverse.dropWhile (· ≠ '/')).reverse

/-- `0` in the anchor's file, `1` directly in its directory, `2` elsewhere. -/
def localityOf (anchorFilePath filePath : String) : Int :=
  let dir := directoryPrefix anchorFilePath
  if filePath = anchorFilePath then 0
  else if filePath.toList.take dir.length = dir ∧ '/' ∉ filePath.toList.drop dir.length then 1
  else 2

def supersededCall (g : Graph) (e : EdgeRow) : Bool :=
  e.kind == .calls && e.toDeclaration.isNone &&
    g.edges.rows.any (fun b => b.fromId == e.fromId && b.toId == e.toId && b.kind == .calls &&
      b.toDeclaration.isSome)

def outrankedSibling (g : Graph) (q : EdgeQuery) (e : EdgeRow) : Bool :=
  g.edges.rows.any (fun d => d.thisEnd q.direction == q.anchorNodeId &&
    d.otherEnd q.direction == e.otherEnd q.direction && d.kind == e.kind &&
    ((d.resolved && !e.resolved) || (d.resolved == e.resolved && decide (d.id < e.id))))

def distinctFilter (g : Graph) (q : EdgeQuery) (e : EdgeRow) : Bool :=
  match q.distinct with
  | .edges => true
  | .otherEndpoint => !outrankedSibling g q e

def edgeRank (q : EdgeQuery) (e : EdgeRow) (n : NodeRow) : EdgeRank where
  resolved := e.resolved
  locality := localityOf q.anchorFilePath n.filePath
  fileRow := if n.kind = .file then 1 else 0
  filePath := n.filePath
  startLine := n.startLine
  id := e.id

/-- The `WHERE` clause without the cursor, on an edge joined with its far node. -/
def matchesQuery (g : Graph) (q : EdgeQuery) (e : EdgeRow) (n : NodeRow) : Bool :=
  e.thisEnd q.direction == q.anchorNodeId &&
    (q.edgeKinds.isEmpty || q.edgeKinds.contains e.kind) &&
    (q.filePaths.isEmpty || q.filePaths.contains n.filePath) &&
    distinctFilter g q e && !supersededCall g e

/-- The row of `edges e JOIN nodes n ON n.id = e.other` for `e`, when it matches. -/
def scoreEdge (g : Graph) (q : EdgeQuery) (e : EdgeRow) : Option ScoredEdge :=
  (g.nodes.find? (e.otherEnd q.direction)).bind fun n =>
    if matchesQuery g q e n then some ⟨e, edgeRank q e n⟩ else none

def matchingEdges (g : Graph) (q : EdgeQuery) : List ScoredEdge :=
  g.edges.rows.filterMap (scoreEdge g q)

def sortPage (rows : List ScoredEdge) : List ScoredEdge :=
  rows.insertionSort (fun a b => EdgeRank.SortsBefore a.rank b.rank)

def unpagedEdges (g : Graph) (q : EdgeQuery) : List ScoredEdge := sortPage (matchingEdges g q)

/-- The keyset predicate: every row without a cursor, else the rows after it. -/
def afterCursor (cursor : Option EdgeRank) (s : ScoredEdge) : Bool :=
  match cursor with
  | none => true
  | some c => decide (c.rowValue < s.rank.rowValue)

structure Page (α τ : Type) where
  results : List α
  hasMore : Bool
  nextCursor : Option τ
  allUnresolved : Bool

/-- The cursor's JSON and base64 text, with the older shape it still recognises. -/
structure CursorCodec (τ : Type) extends TokenCodec EdgeRank τ where
  isLegacy : τ → Bool

def CursorCodec.decodeEdgeCursor {τ : Type} (codec : CursorCodec τ) (raw : τ) : Except String EdgeRank :=
  match codec.decode raw with
  | .ok r => .ok r
  | .error err =>
    if codec.isLegacy raw then
      .error ("pagination cursor was issued by an older g-mesh version and cannot be continued; " ++
        "repeat the query without a cursor")
    else .error err

def pageRows (g : Graph) (q : EdgeQuery) (pageSize : Nat) (after : Option EdgeRank) : List ScoredEdge :=
  (sortPage ((matchingEdges g q).filter (afterCursor after))).take (pageSize + 1)

def paginateEdges {τ : Type} (codec : CursorCodec τ) (g : Graph) (q : EdgeQuery) (pageSize : Nat)
    (cursor : Option τ) : Except String (Page ScoredEdge τ) := do
  let after ← cursor.mapM codec.decodeEdgeCursor
  let rows := pageRows g q pageSize after
  let kept := rows.take pageSize
  let hasMore := decide (pageSize < rows.length)
  return {
    results := kept
    hasMore := hasMore
    nextCursor := if hasMore then kept.getLast?.map (fun s => codec.encode s.rank) else none
    allUnresolved := false }

variable {g : Graph} {q : EdgeQuery} {s : ScoredEdge}

theorem scoreEdge_edge {e : EdgeRow} (h : scoreEdge g q e = some s) : s.edge = e ∧ s.rank.id = e.id := by
  obtain ⟨n, _, h⟩ := Option.bind_eq_some_iff.mp h
  split at h
  next => cases Option.some.inj h; exact ⟨rfl, rfl⟩
  next => simp at h

theorem mem_matchingEdges : s ∈ matchingEdges g q ↔ s.edge ∈ g.edges ∧ scoreEdge g q s.edge = some s := by
  rw [matchingEdges, mem_filterMap]
  constructor
  · rintro ⟨e, he, hs⟩
    have := (scoreEdge_edge hs).1
    subst e
    exact ⟨he, hs⟩
  · rintro ⟨he, hs⟩
    exact ⟨s.edge, he, hs⟩

theorem filterMap_scoreEdge_ids_nodup {rows : List EdgeRow} (h : (rows.map EdgeRow.id).Nodup) :
    ((rows.filterMap (scoreEdge g q)).map (fun s => s.rank.id)).Nodup := by
  induction rows with
  | nil => simp
  | cons e _ ih =>
    have hc := nodup_cons.mp h
    rw [filterMap_cons]
    split
    next => exact ih hc.2
    next s hs =>
      rw [map_cons, nodup_cons]
      refine ⟨?_, ih hc.2⟩
      intro hmem
      obtain ⟨t, ht, hid⟩ := mem_map.mp hmem
      obtain ⟨f, hf, hfs⟩ := mem_filterMap.mp ht
      have : f.id = e.id := by rw [← (scoreEdge_edge hfs).2, hid, (scoreEdge_edge hs).2]
      exact hc.1 (this ▸ mem_map_of_mem hf)

theorem matchingEdges_ids_nodup (g : Graph) (q : EdgeQuery) : ((matchingEdges g q).map (fun s => s.rank.id)).Nodup :=
  filterMap_scoreEdge_ids_nodup g.edges.nodup

theorem sortPage_perm (rows : List ScoredEdge) : (sortPage rows).Perm rows :=
  perm_insertionSort _ rows

theorem matchingEdges_keys_nodup (g : Graph) (q : EdgeQuery) :
    ((matchingEdges g q).map (fun s => s.rank.rowValue)).Nodup := by
  refine List.Nodup.of_map (fun v => (ofLex (ofLex (ofLex (ofLex (ofLex v).2).2).2).2).2) ?_
  rw [map_map]
  exact matchingEdges_ids_nodup g q

theorem unpagedEdges_strict (g : Graph) (q : EdgeQuery) :
    (unpagedEdges g q).Pairwise (fun a b => a.rank.rowValue < b.rank.rowValue) :=
  insertionSort_strict (fun _ _ => EdgeRank.sortsBefore_iff) (matchingEdges_keys_nodup g q)

theorem mem_unpagedEdges : s ∈ unpagedEdges g q ↔ s ∈ matchingEdges g q :=
  (sortPage_perm _).mem_iff

theorem pageRows_eq (g : Graph) (q : EdgeQuery) (pageSize : Nat) (after : Option EdgeRank) :
    pageRows g q pageSize after = ((unpagedEdges g q).filter (afterCursor after)).take (pageSize + 1) :=
  congrArg (take (pageSize + 1)) (insertionSort_filter (fun a b => @EdgeRank.sortsBefore_iff a.rank b.rank)
    (matchingEdges_keys_nodup g q) (afterCursor after))

/-- The binary search of `longest_prefix_fitting`. -/
def searchCut (fits : Nat → Bool) (lo hi : Nat) : Nat :=
  if lo < hi then
    if fits (lo + (hi - lo + 1) / 2) then searchCut fits (lo + (hi - lo + 1) / 2) hi
    else searchCut fits lo (lo + (hi - lo + 1) / 2 - 1)
  else lo
termination_by hi - lo

/-- `none` when the whole list fits `budget` bytes, otherwise where to cut it. -/
def longestPrefixFitting {α : Type} (wireLen : List α → Nat) (items : List α) (budget : Nat) :
    Option Nat :=
  if wireLen items ≤ budget then none
  else some (searchCut (fun n => decide (wireLen (items.take n) ≤ budget)) 1 items.length)

theorem searchCut_ge (fits : Nat → Bool) (lo hi : Nat) : lo ≤ searchCut fits lo hi := by
  fun_induction searchCut fits lo hi with
  | case1 => omega
  | case2 => omega
  | case3 => exact le_rfl

theorem searchCut_le (fits : Nat → Bool) {lo hi : Nat} (h : lo ≤ hi) : searchCut fits lo hi ≤ hi := by
  fun_induction searchCut fits lo hi with
  | case1 _ _ _ _ ih => exact ih (by omega)
  | case2 _ _ _ _ ih =>
    have := ih (by omega)
    omega
  | case3 => exact h

theorem longestPrefixFitting_bounds {α : Type} {wireLen : List α → Nat} {items : List α}
    {budget cut : Nat} (hne : items ≠ []) (h : longestPrefixFitting wireLen items budget = some cut) :
    1 ≤ cut ∧ cut ≤ items.length := by
  unfold longestPrefixFitting at h
  split at h
  next => simp at h
  next =>
    have hl : 1 ≤ items.length := length_pos_iff.mpr hne
    cases h
    exact ⟨searchCut_ge _ _ _, searchCut_le _ hl⟩

def usizeMax : Nat := 2 ^ 64 - 1

/-- The rounds of `fit_budget_within`: the budget falls by the overshoot until the response fits or stops shrinking.
-/
def fitBudgetLoop (ceiling : Nat) (measure : Nat → Nat × Nat) (budget lastPart : Nat) : Nat :=
  if (measure budget).2 ≤ ceiling ∨ lastPart ≤ (measure budget).1 ∨ budget = 0 then budget
  else fitBudgetLoop ceiling measure
    (min budget (measure budget).1 - ((measure budget).2 - ceiling)) (measure budget).1
termination_by lastPart

def fitBudgetWithin (ceiling : Nat) (measure : Nat → Nat × Nat) : Nat :=
  fitBudgetLoop ceiling measure ceiling usizeMax

structure PageRow (α : Type) where
  item : α
  rank : EdgeRank

structure ResponseSize (α τ : Type) where
  ceiling : Nat
  wireLen : List α → Nat
  responseLen : Page α τ → Nat

def boundPageWithin {α τ : Type} (codec : CursorCodec τ) (wireLen : List α → Nat) (rows : List (PageRow α))
    (hasMore : Bool) (nextCursor : Option τ) (budget : Nat) : Page α τ :=
  if rows.isEmpty then ⟨[], hasMore, nextCursor, false⟩
  else
    match longestPrefixFitting wireLen (rows.map PageRow.item) budget with
    | none => ⟨rows.map PageRow.item, hasMore, nextCursor, rows.all (fun r => !r.rank.resolved)⟩
    | some cut => {
        results := (rows.take cut).map PageRow.item
        hasMore := true
        nextCursor := rows[cut - 1]?.map (fun r => codec.encode r.rank)
        allUnresolved := (rows.take cut).all (fun r => !r.rank.resolved) }

def boundPageInResponse {α τ : Type} (codec : CursorCodec τ) (size : ResponseSize α τ)
    (rows : List (PageRow α)) (hasMore : Bool) (nextCursor : Option τ) : Page α τ :=
  let budget := fitBudgetWithin size.ceiling fun budget =>
    let page := boundPageWithin codec size.wireLen rows hasMore nextCursor budget
    (size.wireLen page.results, size.responseLen page)
  boundPageWithin codec size.wireLen rows hasMore nextCursor budget

/-- A page stays whole, or is cut behind a row whose cursor it hands out. -/
theorem boundPageWithin_cases {α τ : Type} (codec : CursorCodec τ) (wireLen : List α → Nat)
    (rows : List (PageRow α)) (hasMore : Bool) (nextCursor : Option τ) (budget : Nat) :
    let page := boundPageWithin codec wireLen rows hasMore nextCursor budget
    (page.results = rows.map PageRow.item ∧ page.hasMore = hasMore ∧ page.nextCursor = nextCursor) ∨
      ∃ cut r, 1 ≤ cut ∧ cut ≤ rows.length ∧ rows[cut - 1]? = some r ∧
        page.results = (rows.take cut).map PageRow.item ∧ page.hasMore ∧
        page.nextCursor = some (codec.encode r.rank) := by
  intro page
  by_cases hr : rows = []
  · subst rows
    exact .inl ⟨rfl, rfl, rfl⟩
  have hb : page = boundPageWithin codec wireLen rows hasMore nextCursor budget := rfl
  simp only [boundPageWithin, List.isEmpty_iff, hr, if_false] at hb
  cases hc : longestPrefixFitting wireLen (rows.map PageRow.item) budget with
  | none =>
    simp only [hc] at hb
    exact .inl ⟨by rw [hb], by rw [hb], by rw [hb]⟩
  | some cut =>
    simp only [hc] at hb
    obtain ⟨h1, h2⟩ := longestPrefixFitting_bounds (by simpa using hr) hc
    rw [length_map] at h2
    have hlt : cut - 1 < rows.length := by omega
    refine .inr ⟨cut, rows[cut - 1], h1, h2, getElem?_eq_getElem hlt, ?_, ?_, ?_⟩
    · rw [hb]
    · rw [hb]
    · rw [hb, getElem?_eq_getElem hlt]
      rfl

end GMesh
