import GMesh.PageChain

namespace GMesh

open KeyedTable List Option

inductive ScheduleStep
  | insertNode (n : NodeRow)
  | insertEdge (e : EdgeRow)
  | request (pageSize : Nat)

structure PageRead (τ : Type) where
  graph : Graph
  page : Page ScoredEdge τ

def runSchedule {τ : Type} (codec : CursorCodec τ) (q : EdgeQuery) :
    List ScheduleStep → Graph → Option τ → Except String (List (PageRead τ))
  | [], _, _ => .ok []
  | .insertNode n :: steps, g, cursor =>
    runSchedule codec q steps { g with nodes := g.nodes.insertIgnore n } cursor
  | .insertEdge e :: steps, g, cursor =>
    runSchedule codec q steps { g with edges := g.edges.insertIgnore e } cursor
  | .request pageSize :: steps, g, cursor => do
    let page ← paginateEdges codec g q pageSize cursor
    match page.nextCursor with
    | none => return [⟨g, page⟩]
    | some next => return ⟨g, page⟩ :: (← runSchedule codec q steps g (some next))

def servedRows {τ : Type} (reads : List (PageRead τ)) : List ScoredEdge :=
  reads.flatMap (fun r => r.page.results)

variable {τ : Type}

theorem servedRows_cons (r : PageRead τ) (reads : List (PageRead τ)) :
    servedRows (r :: reads) = r.page.results ++ servedRows reads :=
  flatMap_cons

structure Graph.Within (g g' : Graph) : Prop where
  nodes : ∀ n ∈ g.nodes, n ∈ g'.nodes
  edges : ∀ e ∈ g.edges, e ∈ g'.edges

theorem Graph.Within.refl (g : Graph) : g.Within g := ⟨fun _ h => h, fun _ h => h⟩

variable {g g' : Graph}

theorem Graph.Within.trans {g'' : Graph} (h : g.Within g') (h' : g'.Within g'') : g.Within g'' :=
  ⟨fun n hn => h'.nodes n (h.nodes n hn), fun e he => h'.edges e (h.edges e he)⟩

theorem within_insertNode (g : Graph) (n : NodeRow) : g.Within { g with nodes := g.nodes.insertIgnore n } :=
  ⟨fun _ hm => mem_insertIgnore hm, fun _ h => h⟩

theorem within_insertEdge (g : Graph) (e : EdgeRow) : g.Within { g with edges := g.edges.insertIgnore e } :=
  ⟨fun _ h => h, fun _ hm => mem_insertIgnore hm⟩

variable {q : EdgeQuery} {s t : ScoredEdge}

theorem unpagedEdges_rank_stable (hw : g.Within g') (hs : s ∈ unpagedEdges g q)
    (ht : t ∈ unpagedEdges g' q) (hid : s.edge.id = t.edge.id) : s = t := by
  obtain ⟨hse, hs⟩ := mem_matchingEdges.mp (mem_unpagedEdges.mp hs)
  obtain ⟨hte, ht⟩ := mem_matchingEdges.mp (mem_unpagedEdges.mp ht)
  have he : s.edge = t.edge := g'.edges.key_injective (hw.edges _ hse) hte hid
  obtain ⟨n, hn, hs⟩ := bind_eq_some_iff.mp hs
  obtain ⟨m, hm, ht⟩ := bind_eq_some_iff.mp ht
  obtain ⟨hnm, hnk⟩ := find?_eq_some_iff.mp hn
  obtain ⟨hmm, hmk⟩ := find?_eq_some_iff.mp hm
  have hnode : n = m := g'.nodes.key_injective (hw.nodes _ hnm) hmm (by rw [hnk, hmk, he])
  subst m
  split at hs
  next =>
    split at ht
    next => rw [← some.inj hs, ← some.inj ht, he]
    next => simp at ht
  next => simp at hs

variable {after : Option EdgeRank} {cursor : Option τ}

/-- A page takes the first rows that its cursor leaves. -/
theorem paginateEdges_takes {codec : CursorCodec τ} (pageSize : Nat)
    (hd : cursor.mapM codec.decodeEdgeCursor = .ok after) :
    ∃ page, paginateEdges codec g q pageSize cursor = .ok page ∧ page.results = (remaining g q after).take pageSize ∧
      (page.hasMore = false → page.nextCursor = none ∧ (remaining g q after).length ≤ pageSize) ∧
      ∀ next, page.nextCursor = some next →
        ∃ s, next = codec.encode s.rank ∧ (remaining g q after)[pageSize - 1]? = some s := by
  have hrows := pageRows_eq g q pageSize after
  rw [← remaining] at hrows
  refine ⟨_, by simp only [paginateEdges, hd]; rfl, ?_, ?_, ?_⟩
  · simp [hrows, take_take]
  · intro h
    refine ⟨if_neg (by simp only [show decide _ = false from h, Bool.false_eq_true, not_false_eq_true]), ?_⟩
    simp only [decide_eq_false_iff_not, hrows, length_take] at h
    omega
  · intro next h
    split at h
    next hm =>
      obtain ⟨s, hs, rfl⟩ := map_eq_some_iff.mp h
      rw [hrows, take_take, getLast?_eq_getElem?, Nat.min_eq_left (by omega),
        length_take, getElem?_take] at hs
      simp only [decide_eq_true_eq, hrows, length_take] at hm
      rw [Nat.min_eq_left (by omega)] at hs
      split at hs
      next => exact ⟨s, rfl, hs⟩
      next => simp at hs
    next => simp at h

structure ReadsFrom {τ : Type} (g : Graph) (q : EdgeQuery) (after : Option EdgeRank)
    (reads : List (PageRead τ)) : Prop where
  listed : ∀ s ∈ servedRows reads, ∃ g', g.Within g' ∧ s ∈ unpagedEdges g' q
  behind : ∀ s ∈ servedRows reads, afterCursor after s = true
  distinct : (servedRows reads).Pairwise (fun a b => a.edge.id ≠ b.edge.id)
  complete : ∀ final, reads.getLast? = some final → final.page.hasMore = false →
    ∀ s, (∀ r ∈ reads, s ∈ unpagedEdges r.graph q) → afterCursor after s = true → s ∈ servedRows reads

theorem ReadsFrom.nil (g : Graph) (q : EdgeQuery) (after : Option EdgeRank) :
    ReadsFrom g q after ([] : List (PageRead τ)) :=
  ⟨by simp [servedRows], by simp [servedRows], by simp [servedRows], by simp⟩

variable {reads : List (PageRead τ)}

theorem ReadsFrom.of_within (hw : g.Within g') (h : ReadsFrom g' q after reads) : ReadsFrom g q after reads where
  listed := by
    intro s hs
    obtain ⟨g'', hw', hm⟩ := h.listed s hs
    exact ⟨g'', hw.trans hw', hm⟩
  behind := h.behind
  distinct := h.distinct
  complete := h.complete

theorem mem_remaining : s ∈ remaining g q after ↔ s ∈ unpagedEdges g q ∧ afterCursor after s :=
  mem_filter

theorem remaining_strict (g : Graph) (q : EdgeQuery) (after : Option EdgeRank) :
    (remaining g q after).Pairwise (fun a b => a.rank.rowValue < b.rank.rowValue) :=
  (unpagedEdges_strict g q).filter _

theorem remaining_ids_distinct (g : Graph) (q : EdgeQuery) (after : Option EdgeRank) :
    (remaining g q after).Pairwise (fun a b => a.edge.id ≠ b.edge.id) := by
  refine (remaining_strict g q after).imp_of_mem ?_
  intro a b ha hb hlt hid
  have := unpagedEdges_rank_stable (.refl g) (mem_remaining.mp ha).1 (mem_remaining.mp hb).1 hid
  exact absurd (this ▸ hlt) (lt_irrefl _)

variable {page : Page ScoredEdge τ} {pageSize : Nat}

theorem ReadsFrom.last (hr : page.results = (remaining g q after).take pageSize)
    (hl : page.hasMore = false → (remaining g q after).length ≤ pageSize) : ReadsFrom g q after [⟨g, page⟩] where
  listed := by
    intro s hs
    have hm : s ∈ remaining g q after := mem_of_mem_take (by simpa [servedRows, hr] using hs)
    exact ⟨g, .refl g, (mem_remaining.mp hm).1⟩
  behind := by
    intro s hs
    exact (mem_remaining.mp (mem_of_mem_take (by simpa [servedRows, hr] using hs))).2
  distinct := by
    simpa [servedRows, hr] using (remaining_ids_distinct g q after).take
  complete := by
    intro final hf hm s hs ha
    cases hf
    have := take_of_length_le (hl hm)
    simpa [servedRows, hr, this] using mem_remaining.mpr ⟨hs _ (mem_singleton_self _), ha⟩

section

variable {rows : List ScoredEdge} (hs : rows.Pairwise (fun a b => a.rank.rowValue < b.rank.rowValue))

include hs

theorem after_of_not_mem_take {k : Nat} (hk : 1 ≤ k) (ht : rows[k - 1]? = some t) (hm : s ∈ rows)
    (hn : s ∉ rows.take k) : afterCursor (some t.rank) s := by
  obtain ⟨i, hi, rfl⟩ := getElem_of_mem hm
  obtain ⟨hlt, rfl⟩ := List.getElem?_eq_some_iff.mp ht
  have hki : k ≤ i := by
    by_contra hik
    exact hn (mem_take_iff_getElem.mpr ⟨i, by omega, rfl⟩)
  simpa [afterCursor] using pairwise_iff_getElem.mp hs (k - 1) i hlt hi (by omega)

theorem not_after_of_mem_take {k : Nat} (ht : rows[k - 1]? = some t) (hm : s ∈ rows.take k) :
    afterCursor (some t.rank) s = false := by
  obtain ⟨i, hi, rfl⟩ := mem_take_iff_getElem.mp hm
  obtain ⟨hlt, rfl⟩ := List.getElem?_eq_some_iff.mp ht
  rcases Nat.lt_or_ge i (k - 1) with hik | hik
  · simpa [afterCursor] using (pairwise_iff_getElem.mp hs i (k - 1) (by omega) hlt hik).le
  · have : i = k - 1 := by omega
    subst i
    simp [afterCursor]

end

/-- A page before reads that go on behind its last row is read before them. -/
theorem ReadsFrom.cons (hp : 1 ≤ pageSize)
    (hr : page.results = (remaining g q after).take pageSize) (ht : (remaining g q after)[pageSize - 1]? = some t)
    (hmore : page.hasMore) (h : ReadsFrom g q (some t.rank) reads) :
    ReadsFrom g q after (⟨g, page⟩ :: reads) where
  listed := by
    intro s hs
    rw [servedRows_cons] at hs
    rcases mem_append.mp hs with hs | hs
    · rw [hr] at hs
      exact ⟨g, .refl g, (mem_remaining.mp (mem_of_mem_take hs)).1⟩
    · exact h.listed s hs
  behind := by
    intro s hs
    rw [servedRows_cons] at hs
    rcases mem_append.mp hs with hs | hs
    · rw [hr] at hs
      exact (mem_remaining.mp (mem_of_mem_take hs)).2
    · exact afterCursor_trans (mem_remaining.mp (mem_of_getElem? ht)).2 (h.behind s hs)
  distinct := by
    rw [servedRows_cons, pairwise_append, hr]
    refine ⟨(remaining_ids_distinct g q after).take, h.distinct, ?_⟩
    intro a ha b hb hid
    obtain ⟨g', hw, hb'⟩ := h.listed b hb
    have hab := unpagedEdges_rank_stable hw (mem_remaining.mp (mem_of_mem_take ha)).1 hb' hid
    subst b
    exact absurd (h.behind a hb) (by simp [not_after_of_mem_take (remaining_strict g q after) ht ha])
  complete := by
    intro final hf hm s hs ha
    by_cases hmem : s ∈ page.results
    · rw [servedRows_cons]
      exact mem_append_left _ hmem
    · rw [hr] at hmem
      have hrem : s ∈ remaining g q after := mem_remaining.mpr ⟨hs _ (mem_cons_self), ha⟩
      have hlater := after_of_not_mem_take (remaining_strict g q after) hp ht hrem hmem
      cases reads with
      | nil =>
        cases hf
        exact absurd (hmore.symm.trans hm) (by simp)
      | cons r rs =>
        have := h.complete final (by simpa using hf) hm s (forall_mem_cons.mp hs).2 hlater
        exact mem_append_right _ this

/-- A schedule reads on from its cursor, however the graph grows between its requests. -/
theorem runSchedule_readsFrom (codec : CursorCodec τ) (q : EdgeQuery) (steps : List ScheduleStep)
    (hsize : ∀ n, .request n ∈ steps → 1 ≤ n) (hd : cursor.mapM codec.decodeEdgeCursor = .ok after) :
    ∃ reads, runSchedule codec q steps g cursor = .ok reads ∧ ReadsFrom g q after reads := by
  induction steps generalizing g cursor after with
  | nil => exact ⟨[], rfl, .nil g q after⟩
  | cons step _ ih =>
    replace ih := fun {g cursor after} => @ih g cursor after fun n hn => hsize n (mem_cons_of_mem _ hn)
    cases step with
    | insertNode n =>
      obtain ⟨reads, hrun, hreads⟩ := ih (g := { g with nodes := g.nodes.insertIgnore n }) hd
      exact ⟨reads, hrun, hreads.of_within (within_insertNode g n)⟩
    | insertEdge e =>
      obtain ⟨reads, hrun, hreads⟩ := ih (g := { g with edges := g.edges.insertIgnore e }) hd
      exact ⟨reads, hrun, hreads.of_within (within_insertEdge g e)⟩
    | request pageSize =>
      obtain ⟨page, hpage, hres, hlast, hnext⟩ := paginateEdges_takes (g := g) (q := q) pageSize hd
      cases hc : page.nextCursor with
      | none =>
        refine ⟨[⟨g, page⟩], ?_, .last hres (fun h => (hlast h).2)⟩
        simp only [runSchedule, hpage, bind, Except.bind, hc]
        rfl
      | some next =>
        obtain ⟨t, rfl, ht⟩ := hnext next hc
        obtain ⟨reads, hrun, hreads⟩ := ih (g := g) (decode_minted codec t.rank)
        have hmore : page.hasMore := by
          by_contra hm
          rw [(hlast (by simpa using hm)).1] at hc
          simp at hc
        refine ⟨⟨g, page⟩ :: reads, ?_, .cons (hsize _ mem_cons_self) hres ht hmore hreads⟩
        simp only [runSchedule, hpage, bind, Except.bind, hc, hrun]
        rfl

/-- Whatever is inserted between requests, no edge is served twice, and one listed at every request is served once in
the end. -/
theorem runSchedule_serves_once {τ : Type} (codec : CursorCodec τ) (q : EdgeQuery)
    (steps : List ScheduleStep) (hsize : ∀ n, .request n ∈ steps → 1 ≤ n) (g : Graph) :
    ∃ reads, runSchedule codec q steps g none = .ok reads ∧
      ((servedRows reads).map (fun s => s.edge.id)).Nodup ∧
      ∀ final, reads.getLast? = some final → final.page.hasMore = false →
        ∀ s, (∀ r ∈ reads, s.edge ∈ r.graph.edges ∧ scoreEdge r.graph q s.edge = some s) →
          (servedRows reads).count s = 1 := by
  have hstart : (none : Option τ).mapM codec.decodeEdgeCursor = .ok none := rfl
  obtain ⟨reads, hrun, h⟩ := runSchedule_readsFrom codec q steps (g := g) hsize hstart
  have hids : ((servedRows reads).map (fun s => s.edge.id)).Nodup := pairwise_map.mpr h.distinct
  refine ⟨reads, hrun, hids, ?_⟩
  intro final hf hm s hs
  have hlisted : ∀ r ∈ reads, s ∈ unpagedEdges r.graph q := by
    intro r hr
    exact mem_unpagedEdges.mpr (mem_matchingEdges.mpr (hs r hr))
  exact count_eq_one_of_mem (hids.of_map _) (h.complete final hf hm s hlisted rfl)

def growingCalls : List ScheduleStep :=
  [.request 1, .insertEdge { id := "e0", fromId := "a", toId := "b", resolved := true }, .request 1]

/-- A call that is inserted before the rows still to come is not served. -/
theorem runSchedule_growingCalls : ∃ reads, runSchedule verbatimCursor callsOfA growingCalls twoCalls none = .ok reads ∧
    (servedRows reads).map (fun s => s.edge.id) = ["e2", "e1"] ∧ ((servedRows reads).map (fun s => s.edge.id)).Nodup := by
  have hserved : (runSchedule verbatimCursor callsOfA growingCalls twoCalls none).map
      (fun reads => (servedRows reads).map fun s => s.edge.id) = .ok ["e2", "e1"] := by decide +kernel
  obtain ⟨reads, hrun, hnodup, _⟩ := runSchedule_serves_once verbatimCursor callsOfA growingCalls
    (by simp [growingCalls]) twoCalls
  rw [hrun] at hserved
  exact ⟨reads, hrun, Except.ok.inj hserved, hnodup⟩

end GMesh
