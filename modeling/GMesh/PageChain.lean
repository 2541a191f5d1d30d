import GMesh.PageQuery

namespace GMesh

open List

structure PageRequest (α τ : Type) extends ResponseSize α τ where
  pageSize : Nat

/-- A page as a tool serves it: listed, enriched, then cut to its response's size. -/
def servePage {α τ : Type} (codec : CursorCodec τ) (g : Graph) (q : EdgeQuery) (item : ScoredEdge → α)
    (req : PageRequest α τ) (cursor : Option τ) : Except String (Page α τ) := do
  let page ← paginateEdges codec g q req.pageSize cursor
  return boundPageInResponse codec req.toResponseSize
    (page.results.map fun s => ⟨item s, s.rank⟩) page.hasMore page.nextCursor

def pageAt {α τ : Type} (codec : CursorCodec τ) (g : Graph) (q : EdgeQuery) (item : ScoredEdge → α)
    (reqs : Nat → PageRequest α τ) : Nat → Except String (Page α τ)
  | 0 => servePage codec g q item (reqs 0) none
  | n + 1 => do
    let page ← pageAt codec g q item reqs n
    servePage codec g q item (reqs (n + 1)) page.nextCursor

def remaining (g : Graph) (q : EdgeQuery) (after : Option EdgeRank) : List ScoredEdge :=
  (unpagedEdges g q).filter (afterCursor after)

theorem remaining_none (g : Graph) (q : EdgeQuery) : remaining g q none = unpagedEdges g q :=
  filter_eq_self.mpr fun _ _ => rfl

section

variable {ρ κ α τ : Type} {rows : List ρ}

theorem filter_gt_eq_drop [LinearOrder κ] {value : ρ → κ} {p : ρ → Bool} {k : Nat} {s : ρ}
    (hs : rows.Pairwise (fun a b => value a < value b)) (hp : ∀ s t, p s → value s < value t → p t)
    (hk : (rows.filter p)[k]? = some s) :
    rows.filter (fun t => decide (value s < value t)) = (rows.filter p).drop (k + 1) := by
  induction rows generalizing k with
  | nil => simp at hk
  | cons r rs ih =>
    obtain ⟨hr, hrs⟩ := pairwise_cons.mp hs
    cases hpr : p r with
    | false =>
      rw [filter_cons_of_neg (p := p) (by simp [hpr])] at hk ⊢
      have hmem := mem_filter.mp (mem_of_getElem? hk)
      rw [filter_cons_of_neg (by simpa using (hr s hmem.1).le)]
      exact ih hrs hk
    | true =>
      rw [filter_cons_of_pos (p := p) hpr] at hk ⊢
      cases k with
      | zero =>
        cases hk
        rw [filter_cons_of_neg (by simp), drop_succ_cons, drop_zero]
        exact filter_congr fun t ht => by simp [hr t ht, hp s t hpr]
      | succ k =>
        have hmem := mem_filter.mp (mem_of_getElem? hk)
        rw [filter_cons_of_neg (by simpa using (hr s hmem.1).le), drop_succ_cons]
        exact ih hrs hk

/-- A served page is a prefix of what its cursor leaves: with `hasMore` a nonempty one whose cursor is its last row's,
else all. -/
structure ServesPrefix (mint : ρ → τ) (item : ρ → α) (rest : List ρ) (page : Page α τ) (k : Nat) : Prop where
  results : page.results = (rest.take k).map item
  last : page.hasMore = false → rest.length ≤ k
  more : page.hasMore = true → 1 ≤ k ∧ ∃ s, rest[k - 1]? = some s ∧ page.nextCursor = some (mint s)

variable {mint : ρ → τ} {item : ρ → α} {rest : List ρ} {n : Nat}

theorem servesPrefix_take (hn : 1 ≤ n) (hrows : rows = rest.take (n + 1)) (all : Bool) :
    ServesPrefix mint id rest ⟨rows.take n, decide (n < rows.length),
      if decide (n < rows.length) then (rows.take n).getLast?.map mint else none, all⟩ n := by
  subst hrows
  refine ⟨by simp [take_take], fun h => ?_, fun h => ⟨hn, ?_⟩⟩
  · simp only [decide_eq_false_iff_not, length_take] at h
    omega
  · simp only [decide_eq_true_eq, length_take] at h
    refine ⟨rest[n - 1], getElem?_eq_getElem (by omega), ?_⟩
    have hl : min n rest.length = n := by omega
    simp [take_take, getLast?_eq_getElem?, hl, show n < rest.length by omega, show n - 1 < n by omega]

variable {raw : Page ρ τ} {page : Page α τ}

theorem ServesPrefix.uncut (h : ServesPrefix mint id rest raw n) (item : ρ → α) (hr : page.results = raw.results.map item)
    (hm : page.hasMore = raw.hasMore) (hc : page.nextCursor = raw.nextCursor) : ServesPrefix mint item rest page n := by
  refine ⟨by rw [hr, h.results, map_id], fun hl => h.last (hm ▸ hl), fun hl => ?_⟩
  obtain ⟨hn, s, hs, hcur⟩ := h.more (hm ▸ hl)
  exact ⟨hn, s, hs, hc.trans hcur⟩

theorem ServesPrefix.cut (h : ServesPrefix mint id rest raw n) (item : ρ → α) {cut : Nat} {s : ρ} (hcut : 1 ≤ cut)
    (hs : raw.results[cut - 1]? = some s) (hr : page.results = (raw.results.take cut).map item)
    (hm : page.hasMore) (hc : page.nextCursor = some (mint s)) : ServesPrefix mint item rest page cut := by
  have hres : raw.results = rest.take n := by simpa using h.results
  have hlt := (List.getElem?_eq_some_iff.mp hs).1
  rw [hres, length_take] at hlt
  refine ⟨?_, fun hl => absurd (hm.symm.trans hl) (by simp), fun _ => ⟨hcut, s, ?_, hc⟩⟩
  · rw [hr, hres, take_take, Nat.min_eq_left (by omega)]
  · rwa [hres, getElem?_take, if_pos (by omega)] at hs

def followCursors (serve : Nat → Option τ → Except String (Page α τ)) : Nat → Except String (Page α τ)
  | 0 => serve 0 none
  | n + 1 => do
    let page ← followCursors serve n
    serve (n + 1) page.nextCursor

/-- The calls end, and their pages make up the rows. -/
def Lists (call : Nat → Except String (Page α τ)) (rows : List α) : Prop :=
  ∃ (pages : List (Page α τ)) (final : Page α τ), (∀ j (hj : j < pages.length), call j = .ok pages[j]) ∧
    call pages.length = .ok final ∧ (∀ page ∈ pages, page.hasMore = true) ∧ final.hasMore = false ∧
    pages.flatMap Page.results ++ final.results = rows

/-- The induction is on the rows left: a page with more to come takes at least one, and its cursor leaves the others. -/
theorem pages_from_eq_rest {serve : Nat → Option τ → Except String (Page α τ)} {decode : τ → Except String κ}
    {rank : ρ → κ} {rest : Option κ → List ρ} (hmint : ∀ s, decode (mint s) = .ok (rank s))
    (hserve : ∀ i cursor after, cursor.mapM decode = .ok after →
      ∃ page k, serve i cursor = .ok page ∧ ServesPrefix mint item (rest after) page k)
    (hrest : ∀ after k s, (rest after)[k]? = some s → rest (some (rank s)) = (rest after).drop (k + 1))
    (left : Nat) {i : Nat} {cursor : Option τ} {after : Option κ} (hd : cursor.mapM decode = .ok after)
    (hat : followCursors serve i = serve i cursor) (hleft : (rest after).length ≤ left) :
    Lists (fun j => followCursors serve (i + j)) ((rest after).map item) := by
  induction left generalizing i cursor after with
  | zero =>
    obtain ⟨page, k, hpage, hs⟩ := hserve i cursor after hd
    have hnil : rest after = [] := length_eq_zero_iff.mp (by omega)
    have hmore : page.hasMore = false := by
      by_contra hm
      obtain ⟨_, s, hget, _⟩ := hs.more (by simpa using hm)
      simp [hnil] at hget
    refine ⟨[], page, by simp, ?_, by simp, hmore, ?_⟩
    · simpa using hat.trans hpage
    · simp [hs.results, hnil]
  | succ left ih =>
    obtain ⟨page, k, hpage, hs⟩ := hserve i cursor after hd
    cases hmore : page.hasMore with
    | false =>
      refine ⟨[], page, by simp, by simpa using hat.trans hpage, by simp, hmore, ?_⟩
      simp [hs.results, take_of_length_le (hs.last hmore)]
    | true =>
      obtain ⟨hk, s, hget, hcur⟩ := hs.more hmore
      have hrem := hrest after _ s hget
      have hk1 : k - 1 + 1 = k := by omega
      rw [hk1] at hrem
      have hdec : (some (mint s)).mapM decode = .ok (some (rank s)) := by
        rw [Option.mapM_some, hmint]
        rfl
      have hnext : followCursors serve (i + 1) = serve (i + 1) (some (mint s)) := by
        simp only [followCursors, hat.trans hpage, ← hcur]
        rfl
      obtain ⟨pages, final, hpages, hfinal, hall, hlast, hcat⟩ :=
        ih hdec hnext (by rw [hrem, length_drop]; omega)
      refine ⟨page :: pages, final, ?_, ?_, ?_, hlast, ?_⟩
      · intro j hj
        cases j with
        | zero => simpa using hat.trans hpage
        | succ j => simpa [Nat.add_assoc, Nat.add_comm 1] using hpages j (by simpa using hj)
      · simpa [Nat.add_assoc, Nat.add_comm 1] using hfinal
      · intro p hmem
        rcases mem_cons.mp hmem with rfl | hmem
        · exact hmore
        · exact hall p hmem
      · rw [flatMap_cons, append_assoc, hcat, hrem, hs.results, ← map_append, take_append_drop]

end

variable {τ : Type} {codec : CursorCodec τ}

theorem afterCursor_trans {after : Option EdgeRank} {s t : ScoredEdge} (hs : afterCursor after s)
    (ht : afterCursor (some s.rank) t) : afterCursor after t := by
  cases after with
  | none => rfl
  | some c =>
    simp only [afterCursor, decide_eq_true_eq] at hs ht ⊢
    exact hs.trans ht

theorem decode_minted (codec : CursorCodec τ) (r : EdgeRank) :
    (some (codec.encode r)).mapM codec.decodeEdgeCursor = .ok (some r) := by
  simp only [Option.mapM_some, CursorCodec.decodeEdgeCursor, codec.decode_encode]
  rfl

/-- The pages of requests that ask for rows make up the listing. -/
theorem pages_from_eq_remaining {α : Type} (codec : CursorCodec τ) (g : Graph) (q : EdgeQuery) (item : ScoredEdge → α)
    {reqs : Nat → PageRequest α τ} (hp : ∀ i, 1 ≤ (reqs i).pageSize) :
    Lists (pageAt codec g q item reqs) ((unpagedEdges g q).map item) := by
  have hpageAt : pageAt codec g q item reqs = followCursors (fun i => servePage codec g q item (reqs i)) := by
    funext i
    induction i with
    | zero => rfl
    | succ i ih => rw [pageAt, ih, followCursors]
  have hserve : ∀ i cursor after, cursor.mapM codec.decodeEdgeCursor = .ok after →
      ∃ page k, servePage codec g q item (reqs i) cursor = .ok page ∧
        ServesPrefix (fun s => codec.encode s.rank) item (remaining g q after) page k := by
    intro i cursor after hd
    obtain ⟨raw, hraw, hs⟩ : ∃ raw, paginateEdges codec g q (reqs i).pageSize cursor = .ok raw ∧
        ServesPrefix (fun s => codec.encode s.rank) id (remaining g q after) raw (reqs i).pageSize :=
      ⟨_, by simp only [paginateEdges, hd]; rfl, servesPrefix_take (hp i) (pageRows_eq g q _ after) false⟩
    have hserved : servePage codec g q item (reqs i) cursor = .ok (boundPageInResponse codec (reqs i).toResponseSize
        (raw.results.map fun s => ⟨item s, s.rank⟩) raw.hasMore raw.nextCursor) := by
      rw [servePage, hraw]
      rfl
    rcases boundPageWithin_cases codec (reqs i).wireLen (raw.results.map fun s => (⟨item s, s.rank⟩ : PageRow α))
      raw.hasMore raw.nextCursor _ with ⟨h1, h2, h3⟩ | ⟨cut, r, hc, -, hr, h1, h2, h3⟩
    · exact ⟨_, _, hserved, hs.uncut item (h1.trans map_map) h2 h3⟩
    · rw [getElem?_map] at hr
      obtain ⟨s, hget, rfl⟩ := Option.map_eq_some_iff.mp hr
      refine ⟨_, cut, hserved, hs.cut item hc hget (h1.trans ?_) h2 h3⟩
      rw [← map_take, map_map]
      rfl
  have hrest : ∀ after k s, (remaining g q after)[k]? = some s →
      remaining g q (some s.rank) = (remaining g q after).drop (k + 1) := by
    intro after k s hk
    exact filter_gt_eq_drop (unpagedEdges_strict g q) (fun t u ht htu => afterCursor_trans ht (decide_eq_true htu)) hk
  rw [hpageAt, ← remaining_none]
  simpa using pages_from_eq_rest (fun s => (by simp [CursorCodec.decodeEdgeCursor, codec.decode_encode])) hserve hrest
    (remaining g q none).length (i := 0) rfl rfl le_rfl

/-- Following `nextCursor` ends, and the pages make up the whole listing in strictly increasing rank. -/
theorem pages_partition_listing {α τ : Type} (codec : CursorCodec τ) (g : Graph) (q : EdgeQuery)
    (item : ScoredEdge → α) (reqs : Nat → PageRequest α τ) (hp : ∀ i, 1 ≤ (reqs i).pageSize) :
    ∃ (pages : List (Page α τ)) (final : Page α τ),
      (∀ j (hj : j < pages.length), pageAt codec g q item reqs j = .ok pages[j]) ∧
      pageAt codec g q item reqs pages.length = .ok final ∧
      (∀ page ∈ pages, page.hasMore = true) ∧ final.hasMore = false ∧
      pages.flatMap Page.results ++ final.results = (unpagedEdges g q).map item ∧
      (∀ s, s ∈ unpagedEdges g q ↔ s.edge ∈ g.edges ∧ scoreEdge g q s.edge = some s) ∧
      (unpagedEdges g q).Pairwise (fun a b => a.rank.rowValue < b.rank.rowValue) := by
  obtain ⟨pages, final, hpages, hfinal, hall, hlast, hcat⟩ := pages_from_eq_remaining codec g q item hp
  refine ⟨pages, final, hpages, hfinal, hall, hlast, hcat, ?_, unpagedEdges_strict g q⟩
  intro s
  rw [mem_unpagedEdges, mem_matchingEdges]

/-- A caller `a` of two functions, one of them known by name only. -/
def twoCalls : Graph where
  nodes := ⟨[{ id := "b", filePath := "b.rs", kind := .function },
    { id := "c", filePath := "c.rs", kind := .function }], by decide⟩
  edges := ⟨[{ id := "e1", fromId := "a", toId := "c", kind := .calls, resolved := false },
    { id := "e2", fromId := "a", toId := "b", kind := .calls, resolved := true }], by decide⟩

def verbatimCursor : CursorCodec EdgeRank :=
  { TokenCodec.verbatim EdgeRank with isLegacy := fun _ => false }

def callsOfA : EdgeQuery := { anchorNodeId := "a", direction := .outgoing }

def oneRowPages {α : Type} : Nat → PageRequest α EdgeRank :=
  fun _ => { ceiling := 0, wireLen := fun rows => 2 + rows.length, responseLen := fun _ => 9, pageSize := 1 }

def ServedUpTo {α : Type} (g : Graph) (q : EdgeQuery) (item : ScoredEdge → α) (pages : List (Page α EdgeRank))
    (final : Page α EdgeRank) : Prop :=
  (∀ j (hj : j < pages.length), pageAt verbatimCursor g q item oneRowPages j = .ok pages[j]) ∧
    pageAt verbatimCursor g q item oneRowPages pages.length = .ok final ∧ final.hasMore = false

/-- One row a page: both calls, the resolved one first. -/
theorem pages_partition_twoCalls : ∃ pages final, ServedUpTo twoCalls callsOfA (fun s => s.edge.id) pages final ∧
    pages.flatMap Page.results ++ final.results = ["e2", "e1"] := by
  obtain ⟨pages, final, hpages, hfinal, _, hlast, hcat, _⟩ := pages_partition_listing verbatimCursor twoCalls callsOfA
    (fun s => s.edge.id) oneRowPages fun _ => le_rfl
  exact ⟨pages, final, ⟨hpages, hfinal, hlast⟩, hcat.trans (by decide)⟩

end GMesh
