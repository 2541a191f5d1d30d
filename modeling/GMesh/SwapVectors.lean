import GMesh.SwapNodes
import GMesh.VectorFile

namespace GMesh

open KeyedTable VectorFile List Option

variable {V : Type}

namespace VectorFile

variable {f : VectorFile V} {x : String}

theorem storeVectors_other {batch : ComputedBatch V} (hstored : ∀ e ∈ batch.embeddings, e.nodeId ≠ x)
    (hdropped : x ∉ batch.dropped) : (f.storeVectors batch).vectors x = f.vectors x := by
  refine List.foldlRecOn (motive := fun g : VectorFile V => g.vectors x = f.vectors x) _ storeEmbedding
    (List.foldlRecOn (motive := fun g : VectorFile V => g.vectors x = f.vectors x) _ storeDropped rfl ?_) ?_
  · intro g hg id hid
    unfold storeDropped
    split
    next => exact hg
    next =>
      have hne : x ≠ id := fun hx => hdropped (hx ▸ hid)
      exact (Function.update_of_ne hne _ _).trans hg
  · intro g hg e he
    unfold storeEmbedding
    split
    next => exact (Function.update_of_ne (hstored e he).symm _ _).trans hg
    next => exact hg

end VectorFile

/-- Every vector belongs to a node and was computed from the text that the node has. -/
def Describes (textOf : V → Line) (f : VectorFile V) : Prop :=
  ∀ x v, f.vectors x = some v → ∃ n ∈ f.nodes, n.id = x ∧ n.nodeText = some (textOf v)

namespace Reindex

variable (r : Reindex) (vectors : String → Option V) (versionOf : V → String) (version : String)

/-- Whether the live vector of an upserted node is to go: the text changed, or there is none any more. -/
def textChanged (n : NodeRow) : Bool :=
  (r.live.nodes.find? n.id).any fun l =>
    decide (l.nodeText ≠ n.nodeText) || (n.nodeText.isNone && (vectors n.id).isSome)

def upsertedRows : List NodeRow := r.staging.nodes.rows.filter fun n => decide (n.id ∈ r.upsertNodes)

def planTextChanged : List String := (r.upsertedRows.filter (r.textChanged vectors)).map (·.id)

def planEmbeddings : List NodeRow :=
  (r.upsertedRows.filter fun n => n.nodeText.isSome && (!r.live.nodes.contains n.id || r.textChanged vectors n ||
    decide ((vectors n.id).map versionOf ≠ some version))).map candidateRecord

def swapVectors (embed : Line → V) (stored : List NodeRow) : VectorFile V :=
  storeVectors
    { toIndexFile := r.swapped
      vectors := fun x => if x ∈ r.deleteNodes ∨ x ∈ r.planTextChanged vectors then none else vectors x }
    (.compute embed stored)

variable {r vectors versionOf version} {n l : NodeRow} {textOf : V → Line}

theorem mem_planTextChanged {x : String} : x ∈ r.planTextChanged vectors ↔
    ∃ n ∈ r.staging.nodes, n.id = x ∧ x ∈ r.upsertNodes ∧ r.textChanged vectors n := by
  simp only [planTextChanged, upsertedRows, List.mem_map, List.mem_filter, decide_eq_true_eq]
  constructor
  · rintro ⟨n, ⟨⟨hn, hu⟩, hchanged⟩, rfl⟩
    exact ⟨n, hn, rfl, hu, hchanged⟩
  · rintro ⟨n, hn, rfl, hu, hchanged⟩
    exact ⟨n, ⟨⟨hn, hu⟩, hchanged⟩, rfl⟩

theorem textChanged_eq_false (hl : l ∈ r.live.nodes) (hid : l.id = n.id) (h : r.textChanged vectors n = false) :
    l.nodeText = n.nodeText := by
  rw [textChanged, ← hid, find?_key hl] at h
  simp only [any_some, Bool.or_eq_false_iff, decide_eq_false_iff_not, not_not] at h
  exact h.1

theorem textChanged_of_same (hcurrent : Describes textOf { r.live with vectors := vectors }) (hl : l ∈ r.live.nodes)
    (hid : l.id = n.id) (htext : l.nodeText = n.nodeText) : r.textChanged vectors n = false := by
  rw [textChanged, ← hid, find?_key hl, any_some, htext]
  cases hv : vectors l.id with
  | none => simp
  | some v =>
    obtain ⟨m, hm, hmid, hmtext⟩ := hcurrent l.id v hv
    rw [← htext, ← r.live.nodes.key_injective hm hl hmid, hmtext]
    simp

theorem describes_swapped (h : r.staging.HoldsOnly r.language)
    (hcurrent : Describes textOf { r.live with vectors := vectors }) :
    Describes textOf { r.swapped with
      vectors := fun x => if x ∈ r.deleteNodes ∨ x ∈ r.planTextChanged vectors then none else vectors x } := by
  intro x v hv
  dsimp only at hv ⊢
  split at hv
  next => cases hv
  next hkept =>
    obtain ⟨hdelete, hchanged⟩ := not_or.mp hkept
    obtain ⟨l, hl, rfl, htext⟩ := hcurrent x v hv
    by_cases hu : l.id ∈ r.upsertNodes
    · obtain ⟨n, hn, hid⟩ := contains_iff.mp (mem_stagedIds.mp (stagedIds_of_upsertNodes h hu))
      refine ⟨n, staged_swapped h hn, hid, ?_⟩
      have hsame : r.textChanged vectors n = false :=
        Bool.eq_false_iff.mpr fun hc => hchanged (mem_planTextChanged.mpr ⟨n, hn, hid, hu, hc⟩)
      rw [← textChanged_eq_false hl hid.symm hsame, htext]
    · exact ⟨l, (mem_swapped_nodes h).mpr (by rw [if_neg hu]; exact ⟨hl, hdelete⟩), rfl, htext⟩

theorem swap_keeps_vectors {embed : Line → V} {stored : List NodeRow} (h : r.staging.HoldsOnly r.language)
    (hcurrent : Describes textOf { r.live with vectors := vectors }) (hembed : ∀ text, textOf (embed text) = text)
    (hstored : stored ⊆ r.planEmbeddings vectors versionOf version) :
    Describes textOf (r.swapVectors vectors embed stored) ∧
    (∀ n ∈ (r.swapVectors vectors embed stored).nodes, n.language = r.language → n.nodeText = none →
      (r.swapVectors vectors embed stored).vectors n.id = none) ∧
    ∀ n ∈ (r.swapVectors vectors embed stored).nodes, n.language = r.language → ∀ l ∈ r.live.nodes, l.id = n.id →
      l.nodeText = n.nodeText → ∀ v, vectors n.id = some v → versionOf v = version →
        (r.swapVectors vectors embed stored).vectors n.id = some v := by
  have hfile : (r.swapVectors vectors embed stored).toIndexFile = r.swapped :=
    storeVectors_toIndexFile _ _
  have hdescribes : Describes textOf (r.swapVectors vectors embed stored) := by
    intro x v hv
    rw [hfile]
    rcases foldl_storeEmbedding_vector hv with ⟨e, he, htext, rfl⟩ | ⟨hv, -⟩
    · obtain ⟨n, -, hn⟩ := mem_filterMap.mp he
      obtain ⟨text, -, rfl⟩ := map_eq_some_iff.mp hn
      rw [currentText, foldl_storeDropped_toIndexFile] at htext
      obtain ⟨m, hm, htext⟩ := bind_eq_some_iff.mp htext
      obtain ⟨hm, hid⟩ := find?_eq_some_iff.mp hm
      exact ⟨m, hm, hid, by rw [htext, hembed]⟩
    · exact describes_swapped h hcurrent x v (foldl_storeDropped_vector hv).1
  refine ⟨hdescribes, ?_, ?_⟩
  · intro n hn _ hnone
    cases hv : (r.swapVectors vectors embed stored).vectors n.id with
    | none => rfl
    | some v =>
      obtain ⟨m, hm, hid, htext⟩ := hdescribes n.id v hv
      rw [KeyedTable.key_injective _ hm hn hid, hnone] at htext
      cases htext
  · intro n hn _ l hl hid htext v hv hversion
    rw [hfile] at hn
    have hstaged : n.id ∈ r.upsertNodes → n ∈ r.staging.nodes := by
      intro hu
      have hn := (mem_swapped_nodes h).mp hn
      rwa [if_pos hu] at hn
    have hsame := textChanged_of_same hcurrent hl hid htext
    have hother : ∀ c ∈ stored, c.id ≠ n.id := by
      intro c hc hcid
      obtain ⟨m, hm, rfl⟩ := mem_map.mp (hstored hc)
      simp only [upsertedRows, List.mem_filter, decide_eq_true_eq] at hm
      have hmn : m = n := r.staging.nodes.key_injective hm.1.1 (hstaged (hcid ▸ hm.1.2)) hcid
      subst hmn
      simp [hsame, contains_iff.mpr ⟨l, hl, hid⟩, hv, hversion] at hm
    have hkept : (r.swapVectors vectors embed stored).vectors n.id = if n.id ∈ r.deleteNodes ∨
        n.id ∈ r.planTextChanged vectors then none else vectors n.id := by
      refine storeVectors_other ?_ ?_
      · intro e he
        obtain ⟨c, hc, hn⟩ := mem_filterMap.mp he
        obtain ⟨text, -, rfl⟩ := map_eq_some_iff.mp hn
        exact hother c hc
      · intro hd
        obtain ⟨c, hc, hcid⟩ := mem_map.mp hd
        exact hother c (mem_filter.mp hc).1 hcid
    rw [hkept, if_neg, hv]
    rintro (hd | hchanged)
    · by_cases hu : n.id ∈ r.upsertNodes
      · exact (mem_deleteNodes.mp hd).2.1 (stagedIds_of_upsertNodes h hu)
      · have hn := (mem_swapped_nodes h).mp hn
        rw [if_neg hu] at hn
        exact hn.2 hd
    · obtain ⟨m, hm, hmid, hu, hc⟩ := mem_planTextChanged.mp hchanged
      rw [r.staging.nodes.key_injective hm (hstaged hu) hmid, hsame] at hc
      cases hc

end Reindex

/-- A function moves to another line, and its vector is of the current version. -/
def movedFunction : Reindex where
  language := "rust"
  keepSemanticPlaceholders := false
  live := { nodes := ⟨[{ id := "f", language := "rust", signature := some "fn f()" }], by decide⟩ }
  staging := { nodes := ⟨[{ id := "f", language := "rust", signature := some "fn f()", startLine := 1 }], by decide⟩ }

theorem swap_keeps_vectors_movedFunction : "f" ∈ movedFunction.upsertNodes ∧
    (movedFunction.swapVectors (fun x => if x = "f" then some ("v1", "fn f()".toList) else none) ("v1", ·)
      []).vectors "f" = some ("v1", "fn f()".toList) := by
  refine ⟨by decide, ?_⟩
  refine (@Reindex.swap_keeps_vectors _ movedFunction _ Prod.fst "v1" Prod.snd _ _
    (by constructor <;> decide) ?_ (fun _ => rfl) (nil_subset _)).2.2
    { id := "f", language := "rust", signature := some "fn f()", startLine := 1 } (by decide +kernel) rfl
    { id := "f", language := "rust", signature := some "fn f()" } (by decide +kernel) rfl (by decide +kernel) _ rfl
    rfl
  intro x v hv
  dsimp only at hv
  split at hv
  next hx =>
    cases hv
    exact ⟨_, mem_singleton.mpr rfl, hx.symm, by decide +kernel⟩
  next => cases hv

end GMesh
