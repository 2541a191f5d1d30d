import GMesh.PageChain
import GMesh.TaggedIds
import GMesh.IndexRows

namespace GMesh

open List

structure SourceOrderCursor where
  startLine : Int
  startCol : Int
  id : String

def sourceOrderCursor (n : NodeRow) : SourceOrderCursor := ⟨n.startLine, n.startCol, n.id⟩

def sourceOrder (n : NodeRow) : Int ×ₗ Int ×ₗ String := toLex (n.startLine, toLex (n.startCol, n.id))

def afterSource (cursor : Option SourceOrderCursor) (n : NodeRow) : Bool :=
  match cursor with
  | none => true
  | some c => c.startLine < n.startLine || (n.startLine == c.startLine && c.startCol < n.startCol) ||
      (n.startLine == c.startLine && n.startCol == c.startCol && c.id < n.id)

def definesEdges (g : Graph) (file : String) : List EdgeRow :=
  g.edges.rows.filter fun e => e.fromId == file && decide (e.kind = .defines)

def countDefines (g : Graph) (file : String) : Nat := (definesEdges g file).length

def definedNodes (g : Graph) (file : String) : List NodeRow :=
  ((definesEdges g file).map EdgeRow.toId).filterMap g.nodes.find?

def inSourceOrder (rows : List NodeRow) : List NodeRow := rows.insertionSort fun a b => sourceOrder a ≤ sourceOrder b

def paginateDefines {τ : Type} (codec : TokenCodec SourceOrderCursor τ) (g : Graph) (file : String) (pageSize : Nat)
    (cursor : Option τ) : Except String (Page NodeRow τ) := do
  let after ← cursor.mapM codec.decode
  let rows := (inSourceOrder ((definedNodes g file).filter (afterSource after))).take (pageSize + 1)
  let hasMore := decide (pageSize < rows.length)
  return {
    results := rows.take pageSize
    hasMore := hasMore
    nextCursor := if hasMore then (rows.take pageSize).getLast?.map (codec.encode ∘ sourceOrderCursor) else none
    allUnresolved := false }

/-- The page at a budget: of an empty one there is no row to cut at. -/
def cutDefines {α τ : Type} (codec : TokenCodec SourceOrderCursor τ) (render : NodeRow → α) (wireLen : List α → Nat)
    (page : Page NodeRow τ) (budget : Nat) : Except String (Page α τ) :=
  match longestPrefixFitting wireLen (page.results.map render) budget with
  | none => .ok { page with results := page.results.map render }
  | some cut =>
    match page.results[cut - 1]? with
    | none => .error "index out of bounds"
    | some n => .ok { page with
        results := (page.results.map render).take cut
        hasMore := true
        nextCursor := some (codec.encode (sourceOrderCursor n)) }

/-- A budget at which the measured cut fails is the one returned. -/
def boundDefinesPage {α τ : Type} (codec : TokenCodec SourceOrderCursor τ) (render : NodeRow → α)
    (size : ResponseSize α τ) (page : Page NodeRow τ) : Except String (Page α τ) :=
  cutDefines codec render size.wireLen page (fitBudgetWithin size.ceiling fun budget =>
    (cutDefines codec render size.wireLen page budget).toOption.elim (0, 0)
      (fun cut => (size.wireLen cut.results, size.responseLen cut)))

def listOutline {α τ : Type} (codec : TokenCodec SourceOrderCursor τ) (g : Graph) (file : String)
    (render : NodeRow → α) (req : PageRequest α τ) (cursor : Option τ) : Except String (Page α τ) := do
  let page ← paginateDefines codec g file req.pageSize cursor
  boundDefinesPage codec render req.toResponseSize page

def PageRequest.FitsEmpty {α τ : Type} (req : PageRequest α τ) : Prop :=
  req.wireLen [] ≤ req.ceiling ∧ req.responseLen ⟨[], false, none, false⟩ ≤ req.ceiling

def outline (g : Graph) (file : String) : List NodeRow := inSourceOrder (definedNodes g file)

variable {g : Graph} {file : String}

theorem afterSource_eq (m n : NodeRow) :
    afterSource (some (sourceOrderCursor m)) n = decide (sourceOrder m < sourceOrder n) := by
  rw [Bool.eq_iff_iff]
  simp only [afterSource, sourceOrderCursor, sourceOrder, Prod.Lex.toLex_lt_toLex, Bool.or_eq_true, Bool.and_eq_true,
    decide_eq_true_eq, beq_iff_eq]
  grind

theorem definedNodes_ids (g : Graph) (file : String) : (definedNodes g file).map NodeRow.id =
    ((definesEdges g file).map EdgeRow.toId).filter g.nodes.contains := by
  rw [definedNodes, map_filterMap, ← filterMap_eq_filter]
  refine congrArg (fun f => filterMap f _) (funext fun x => ?_)
  cases hx : g.nodes.find? x with
  | none => simp [Option.guard, KeyedTable.contains, hx]
  | some n => simp [Option.guard, KeyedTable.contains, hx, (KeyedTable.find?_eq_some_iff.mp hx).2]

theorem definedNodes_keys_nodup (hone : ((definesEdges g file).map EdgeRow.toId).Nodup) :
    ((definedNodes g file).map sourceOrder).Nodup := by
  refine .of_map (fun v => (ofLex (ofLex v).2).2) ?_
  rw [map_map]
  exact definedNodes_ids g file ▸ hone.filter _

variable {α τ : Type} {codec : TokenCodec SourceOrderCursor τ} {rest : List NodeRow} {page : Page NodeRow τ} {n : Nat}
  {req : PageRequest α τ}

theorem cutDefines_serves (h : ServesPrefix (codec.encode ∘ sourceOrderCursor) id rest page n)
    (render : NodeRow → α) {wireLen : List α → Nat} {budget : Nat} (hfit : page.results = [] → wireLen [] ≤ budget) :
    ∃ served k, cutDefines codec render wireLen page budget = .ok served ∧
      ServesPrefix (codec.encode ∘ sourceOrderCursor) render rest served k := by
  unfold cutDefines
  split
  next => exact ⟨_, n, rfl, h.uncut render rfl rfl rfl⟩
  next cut hcut =>
    have hne : page.results ≠ [] := by
      intro hnil
      simp [longestPrefixFitting, hnil, hfit hnil] at hcut
    obtain ⟨hpos, hle⟩ := longestPrefixFitting_bounds (by simpa using hne) hcut
    rw [length_map] at hle
    have hget := getElem?_eq_getElem (show cut - 1 < page.results.length by omega)
    rw [hget]
    exact ⟨_, cut, rfl, h.cut render hpos hget (map_take ..).symm rfl rfl⟩

theorem boundDefinesPage_serves (h : ServesPrefix (codec.encode ∘ sourceOrderCursor) id rest page n)
    (hempty : page.results = [] → page = ⟨[], false, none, false⟩) (render : NodeRow → α)
    (hfits : req.FitsEmpty) : ∃ served k, boundDefinesPage codec render req.toResponseSize page = .ok served ∧
      ServesPrefix (codec.encode ∘ sourceOrderCursor) render rest served k := by
  refine cutDefines_serves h render fun hnil => ?_
  obtain rfl := hempty hnil
  have hwhole : cutDefines codec render req.wireLen ⟨[], false, none, false⟩ req.ceiling =
      .ok ⟨[], false, none, false⟩ := by simp [cutDefines, longestPrefixFitting, hfits.1]
  rw [fitBudgetWithin, fitBudgetLoop, hwhole, if_pos (.inl hfits.2)]
  exact hfits.1

theorem listOutline_serves (hone : ((definesEdges g file).map EdgeRow.toId).Nodup) (render : NodeRow → α)
    (hp : 1 ≤ req.pageSize) (hfits : req.FitsEmpty) {cursor : Option τ}
    {after : Option SourceOrderCursor} (hd : cursor.mapM codec.decode = .ok after) :
    ∃ page k, listOutline codec g file render req cursor = .ok page ∧
      ServesPrefix (codec.encode ∘ sourceOrderCursor) render ((outline g file).filter (afterSource after))
        page k := by
  obtain ⟨raw, hraw, hs, hempty⟩ : ∃ raw, paginateDefines codec g file req.pageSize cursor = .ok raw ∧
      ServesPrefix (codec.encode ∘ sourceOrderCursor) id ((outline g file).filter (afterSource after)) raw
        req.pageSize ∧ (raw.results = [] → raw = ⟨[], false, none, false⟩) := by
    refine ⟨_, by simp only [paginateDefines, hd]; rfl,
      servesPrefix_take hp (congrArg (take _) (insertionSort_filter (fun _ _ => .rfl)
        (definedNodes_keys_nodup hone) _)) false, fun hnil => ?_⟩
    have hrows := (take_eq_nil_iff.mp hnil).resolve_left (by omega)
    simp [hrows]
  rw [listOutline, hraw]
  exact boundDefinesPage_serves hs hempty render hfits

/-- The outline is listed once and in source order; its count is right when no edge leads to a node that is gone. -/
theorem outline_listed_and_counted {α τ : Type} (codec : TokenCodec SourceOrderCursor τ) (g : Graph) (file : String)
    (render : NodeRow → α) (reqs : Nat → PageRequest α τ) (hp : ∀ i, 1 ≤ (reqs i).pageSize)
    (hfits : ∀ i, (reqs i).FitsEmpty) (hone : ((definesEdges g file).map EdgeRow.toId).Nodup) :
    Lists (followCursors fun i => listOutline codec g file render (reqs i)) ((outline g file).map render) ∧
    (∀ n, n ∈ outline g file ↔ n ∈ g.nodes ∧ n.id ∈ (definesEdges g file).map EdgeRow.toId) ∧
    (outline g file).Pairwise (fun a b => sourceOrder a < sourceOrder b) ∧
    (countDefines g file = (outline g file).length ↔ ∀ e ∈ definesEdges g file, g.nodes.contains e.toId = true) := by
  have hstrict : (outline g file).Pairwise (fun a b => sourceOrder a < sourceOrder b) :=
    insertionSort_strict (fun _ _ => .rfl) (definedNodes_keys_nodup hone)
  have hrest : ∀ after k s, ((outline g file).filter (afterSource after))[k]? = some s →
      (outline g file).filter (afterSource (some (sourceOrderCursor s))) =
        ((outline g file).filter (afterSource after)).drop (k + 1) := by
    intro after k s hk
    rw [show afterSource (some (sourceOrderCursor s)) = _ from funext (afterSource_eq s)]
    refine filter_gt_eq_drop hstrict (fun t u ht htu => ?_) hk
    cases after with
    | none => rfl
    | some c =>
      have hc : sourceOrderCursor { t with startLine := c.startLine, startCol := c.startCol, id := c.id } = c := rfl
      rw [← hc, afterSource_eq, decide_eq_true_eq] at ht ⊢
      exact ht.trans htu
  refine ⟨?_, fun n => ?_, hstrict, ?_⟩
  · have h := pages_from_eq_rest (fun s => codec.decode_encode _)
      (fun i cursor after hd => listOutline_serves hone render (hp i) (hfits i) hd) hrest (outline g file).length
      (i := 0) rfl rfl (length_filter_le _ _)
    have hall : (outline g file).filter (afterSource none) = outline g file := filter_eq_self.mpr fun _ _ => rfl
    simpa [hall] using h
  · rw [outline, inSourceOrder, (perm_insertionSort ..).mem_iff, definedNodes, mem_filterMap]
    constructor
    · rintro ⟨x, hx, hfind⟩
      obtain ⟨hn, rfl⟩ := KeyedTable.find?_eq_some_iff.mp hfind
      exact ⟨hn, hx⟩
    · exact fun ⟨hn, hx⟩ => ⟨n.id, hx, KeyedTable.find?_key hn⟩
  · rw [outline, inSourceOrder, length_insertionSort, ← length_map NodeRow.id, definedNodes_ids, countDefines,
      ← length_map EdgeRow.toId, eq_comm, length_filter_eq_length_iff]
    simp

def sharedLine : Graph where
  nodes := ⟨[{ id := "b" }, { id := "a" }], by decide⟩
  edges := ⟨[{ id := "fb", fromId := "f", toId := "b", kind := .defines },
    { id := "fa", fromId := "f", toId := "a", kind := .defines }], by decide⟩

theorem outline_listed_and_counted_sharedLine : countDefines sharedLine "f" = 2 ∧ Lists (followCursors fun _ =>
    listOutline (.verbatim _) sharedLine "f" NodeRow.id ⟨⟨9, length, fun page => page.results.length⟩, 1⟩) ["a", "b"] :=
  ⟨rfl, (outline_listed_and_counted (.verbatim _) sharedLine "f" NodeRow.id (fun _ => ⟨⟨9, length, _⟩, 1⟩)
    (fun _ => le_rfl) (fun _ => ⟨by decide, by decide⟩) (by decide)).1⟩

def definesOne : IndexDiff where
  upsertNodes := [{ id := "f", kind := .file }, { id := "a" }]
  upsertEdges := [{ id := "fa", fromId := "f", toId := "a", kind := .defines }]

/-- The diff that deletes a symbol leaves the edge of its file. -/
theorem outline_counts_deleted_node : (((IndexFile.applyDiff taggedIds {} definesOne).bind fun f =>
    f.applyDiff taggedIds { deleteNodeIds := ["a"] }).map fun f => (countDefines f.toGraph "f", outline f.toGraph "f")) =
      some (1, []) := by
  decide +kernel

end GMesh
