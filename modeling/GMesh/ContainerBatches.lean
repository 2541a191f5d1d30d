import GMesh.ContainerRuns

namespace GMesh

open List

variable {ids : ContainerIds} {s t : Store} {L : Ledger} {k : ContainerKey} (ns : List NodeRecord)

def batch : Diff := { upsertNodes := ns }

def Store.runBatches (ids : ContainerIds) (s : Store) (batches : List (List NodeRecord)) : Store :=
  batches.foldl (fun s ns => s.applyDiff ids (batch ns)) s

def lastParent (stream : List NodeRecord) (k : ContainerKey) : Option (Option String) :=
  (lastWhere (fun n => decide (n.membership = some k)) stream).map (·.containerParent)

theorem lastRecord_append (a b : List NodeRecord) (id : String) :
    (batch (a ++ b)).lastRecord id = ((batch b).lastRecord id).or ((batch a).lastRecord id) :=
  lastWhere_append a b

theorem lastParent_append (a b : List NodeRecord) (k : ContainerKey) :
    lastParent (a ++ b) k = (lastParent b k).or (lastParent a k) := by
  unfold lastParent
  rw [lastWhere_append, Option.map_or]

theorem inForce_memberParents (k : ContainerKey) : Store.inForce (batch ns).memberParents k = lastParent ns k := by
  unfold Store.inForce Diff.memberParents lastParent
  rw [lastWhere_filterMap]
  have hp : ∀ n : NodeRecord, (n.membership.map (fun key => (key, n.containerParent))).any (fun p => decide (p.1 = k)) =
        decide (n.membership = some k) := by
    intro n
    cases n.membership <;> simp
  simp only [hp]
  show Option.map Prod.snd ((lastWhere _ ns).bind _) = _
  cases hl : lastWhere (fun n => decide (n.membership = some k)) ns with
  | none => rfl
  | some n =>
    have hm : n.membership = some k := of_decide_eq_true (mem_of_lastWhere hl).2
    rw [Option.bind_some, hm]
    rfl

theorem Ledger.write_batch_parent (L : Ledger) (ns : List NodeRecord) (k : ContainerKey) :
    (L.write (batch ns)).parent k = (lastParent ns k).getD (L.parent k) := by
  rw [← inForce_memberParents]
  rfl

theorem Ledger.write_batch_node (L : Ledger) (ns : List NodeRecord) (id : String) :
    (L.write (batch ns)).node id = (((batch ns).lastRecord id).map NodeRecord.toNodeRow).or (L.node id) := rfl

theorem Ledger.write_append (L : Ledger) (a b : List NodeRecord) :
    L.write (batch (a ++ b)) = (L.write (batch a)).write (batch b) := by
  ext1
  · funext id
    rw [write_batch_node, write_batch_node, write_batch_node, lastRecord_append, Option.map_or, Option.or_assoc]
  · funext k
    rw [write_batch_parent, write_batch_parent, write_batch_parent, lastParent_append]
    cases lastParent b k <;> rfl

theorem batch_namesNoContainer {ns : List NodeRecord} (hn : ∀ n ∈ ns, ∀ k, n.id ≠ ids.containerId k) :
    (batch ns).NamesNoContainer ids where
  upserted := hn
  deleted _ h := absurd h not_mem_nil
  edge _ h := absurd h not_mem_nil
  edgeDeleted _ h := absurd h not_mem_nil

/-- Batches of a stream leave the containers that one write of them all leaves. -/
theorem runBatches_shows (h : Shows ids s L) {batches : List (List NodeRecord)}
    (hn : ∀ n ∈ batches.flatten, ∀ k, n.id ≠ ids.containerId k) :
    Shows ids (s.runBatches ids batches) (L.write (batch batches.flatten)) := by
  induction batches generalizing s L with
  | nil =>
    exact h
  | cons ns _ ih =>
    rw [flatten_cons] at hn ⊢
    have hfirst : (batch ns).NamesNoContainer ids :=
      batch_namesNoContainer fun n hm => hn n (mem_append_left _ hm)
    rw [Ledger.write_append]
    exact ih (applyDiff_shows h hfirst) fun n hm => hn n (mem_append_right _ hm)

section

variable (hs : Shows ids s L) (ht : Shows ids t L)

include hs ht

theorem Shows.same_nodes (id : String) : s.nodes.find? id = t.nodes.find? id := by
  by_cases hc : ∃ k, id = ids.containerId k
  · obtain ⟨k, rfl⟩ := hc
    by_cases ho : L.Occupied k
    · rw [hs.node_some k ho, ht.node_some k ho]
    · rw [hs.node_none k ho, ht.node_none k ho]
  · have hp : ∀ k, id ≠ ids.containerId k := fun k hk => hc ⟨k, hk⟩
    rw [hs.plain id hp, ht.plain id hp]

theorem Shows.same_rows (id : String) : s.containers.find? id = t.containers.find? id := by
  by_cases hc : ∃ k, id = ids.containerId k
  · obtain ⟨k, rfl⟩ := hc
    by_cases ho : L.Occupied k
    · have hcount := definesCount_eq (k := k) hs.edges ht.edges fun _ => .rfl
      rw [hs.row_some k ho, ht.row_some k ho]
      unfold containerRow
      rw [hcount]
    · rw [hs.row_none k ho, ht.row_none k ho]
  · have hp : ∀ k, id ≠ ids.containerId k := fun k hk => hc ⟨k, hk⟩
    rw [hs.row_plain id hp, ht.row_plain id hp]

theorem Shows.edge_of_same {e : EdgeRow} (hk : e.kind = .defines) (hf : e.fromId = ids.containerId k)
    (he : e ∈ s.edges) : e ∈ t.edges := by
  obtain ⟨i, rfl⟩ := hs.edges.shape e he k hf hk
  exact (ht.edges.mem_iff k i).mpr ((hs.edges.mem_iff k i).mp he)

end

theorem occupied_of_lastParent_none {stream : List NodeRecord} (hp : lastParent stream k = none)
    (ho : (L.write (batch stream)).Occupied k) : L.Occupied k := by
  obtain ⟨i, hi⟩ := ho
  rcases Ledger.write_memberOf_iff.mp hi with hf | ⟨_, hm⟩
  · rw [← inForce_memberParents, Store.inForce_eq_none_iff] at hp
    exact absurd (Diff.finalMembership_parent hf) hp
  · exact ⟨i, hm⟩

/-- Where a stream of records is cut does not show in the nodes, the containers or their edges. A container has the
parent of its last member record, or the one it had. -/
theorem batch_cuts_agree (ids : ContainerIds) (calls : List StoreCall)
    (hc : ∀ c ∈ calls, c.sent.NamesNoContainer ids) (stream : List NodeRecord)
    (hn : ∀ n ∈ stream, ∀ k, n.id ≠ ids.containerId k) (batches batches' : List (List NodeRecord))
    (hb : batches.flatten = stream) (hb' : batches'.flatten = stream) :
    let start := Store.run ids calls
    let s := start.runBatches ids batches
    let s' := start.runBatches ids batches'
    (∀ id, s.nodes.find? id = s'.nodes.find? id) ∧
    (∀ id, s.containers.find? id = s'.containers.find? id) ∧
    (∀ e, e.kind = .defines → (∃ k, e.fromId = ids.containerId k) → (e ∈ s.edges ↔ e ∈ s'.edges)) ∧
    (∀ c ∈ s.containers,
      (∀ parent, lastParent stream c.ofKey = some parent → c.parentKey = parent) ∧
      (lastParent stream c.ofKey = none →
        ∃ c₀ ∈ start.containers, c₀.ofKey = c.ofKey ∧ c₀.parentKey = c.parentKey)) := by
  obtain ⟨L, h⟩ := run_shows hc
  have hs := @runBatches_shows ids _ L h batches (by rw [hb]; exact hn)
  have hs' := @runBatches_shows ids _ L h batches' (by rw [hb']; exact hn)
  rw [hb] at hs
  rw [hb'] at hs'
  refine ⟨hs.same_nodes hs', hs.same_rows hs', ?_, ?_⟩
  · rintro e hk ⟨k, hf⟩
    exact ⟨hs.edge_of_same hs' hk hf, hs'.edge_of_same hs hk hf⟩
  · intro c hcm
    obtain ⟨ho, hrow⟩ := hs.row_of_mem hcm
    have hpk : c.parentKey = (lastParent stream c.ofKey).getD (L.parent c.ofKey) := by
      rw [← Ledger.write_batch_parent]
      exact congrArg ContainerRow.parentKey hrow
    refine ⟨?_, ?_⟩
    · intro parent hp
      rw [hpk, hp]
      rfl
    · intro hp
      have hold := h.row_some c.ofKey (occupied_of_lastParent_none hp ho)
      refine ⟨_, (KeyedTable.find?_eq_some_iff.mp hold).1, rfl, ?_⟩
      rw [hpk, hp]
      rfl

def renamedParents : List NodeRecord :=
  [{ id := "a", language := "rust", container := some "m", containerParent := some "x" },
   { id := "b", language := "rust", container := some "m", containerParent := some "y" },
   { id := "a", language := "rust", container := some "n", containerParent := some "z" }]

theorem batch_cuts_agree_renamedParents :
    ((Store.run taggedIds []).runBatches taggedIds [renamedParents]).containers.find?
        (taggedIds.containerId ("rust", "m")) =
      ((Store.run taggedIds []).runBatches taggedIds (renamedParents.map fun n => [n])).containers.find?
        (taggedIds.containerId ("rust", "m")) := by
  have hids : ∀ n ∈ renamedParents, n.id.toList.head? ≠ some 'c' := by decide
  have h := batch_cuts_agree taggedIds [] (by simp) renamedParents (fun n hn k => ne_taggedId (hids n hn) k.1 k.2)
    [renamedParents] (renamedParents.map fun n => [n]) (by decide) (by decide)
  exact h.2.1 _

/-- A stream whose last record has the id of a container that an earlier one joins and leaves. -/
def borrowedId : List NodeRecord :=
  [{ id := "a", language := "go", container := some "p" }, { id := "a", language := "go" },
   { id := taggedIds.containerId ("go", "p"), language := "go" }]

/-- In one batch the recount takes the borrowed id for the container's node and deletes it. -/
theorem batch_cuts_differ_borrowedId :
    ((Store.run taggedIds []).runBatches taggedIds [borrowedId]).nodes.contains
        (taggedIds.containerId ("go", "p")) = false ∧
      ((Store.run taggedIds []).runBatches taggedIds [borrowedId.take 2, borrowedId.drop 2]).nodes.contains
        (taggedIds.containerId ("go", "p")) = true := by
  decide +kernel

end GMesh
