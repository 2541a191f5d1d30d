import GMesh.ChildLedger
import GMesh.VectorFile

namespace GMesh

open VectorFile WriterPhase List Option

variable {V : Type} {embed : Line → V} {ids : ContainerIds} {rules : LinkRules} {x path : String} {scope : FileScope}

namespace VectorFile

variable {f g : VectorFile V}

/-- Every vector belongs to a node and is the embedding of the text the node has. -/
def Current (embed : Line → V) (f : VectorFile V) : Prop :=
  ∀ x v, f.vectors x = some v → ∃ n, f.nodes.find? x = some n ∧ n.nodeText.map embed = some v

variable {d : IndexDiff}

theorem rewrites_applyFileDiffLinked
    (h : f.applyFileDiffLinked ids rules path scope d = some g) : Rewrites (f.widen path scope d) f g := by
  obtain ⟨mid, hmid, rfl⟩ := map_eq_some_iff.mp h
  exact (rewrites_applyDiff hmid).spares (spares_linkWritten mid _)

theorem lastRecord_insertedPart {n : NodeRow} (hn : f.nodes.find? x = some n)
    (hx : x ∉ d.deleteNodeIds) : (f.insertedPart d).toDiff.lastRecord x = none := by
  rw [IndexFile.insertedPart_toDiff]
  refine lastWhere_eq_none_iff.mpr fun r hr => ?_
  have hnew := (List.mem_filter.mp hr).2
  rw [decide_eq_false_iff_not]
  intro hid
  have hkept : f.toStore.keeps d.toDiff r := by
    have hdel : r.id ∉ d.toDiff.deleteNodeIds := hid ▸ hx
    have hstored : f.toStore.nodes.contains r.id := by
      unfold KeyedTable.contains
      rw [hid, hn]
      rfl
    simp [Store.keeps, hdel, hstored]
  simp [hkept] at hnew

theorem applySemanticDiffLinked_vector (h : f.applySemanticDiffLinked ids rules d = some g) {v : V}
    (hv : g.vectors x = some v) :
    f.vectors x = some v ∧ ∀ n, f.nodes.find? x = some n → g.nodes.find? x = some n := by
  obtain ⟨mid, hmid, rfl⟩ := map_eq_some_iff.mp h
  have hlinked := spares_linkWritten mid d x v hv
  unfold applySemanticDiff at hmid
  split at hmid
  next =>
    cases hmid
    exact hlinked
  next =>
    obtain ⟨written, hwritten, rfl⟩ := map_eq_some_iff.mp hmid
    obtain ⟨hold, hdel, hrow⟩ := rewrites_applyDiff hwritten x v hlinked.1
    refine ⟨hold, fun n hn => hlinked.2 n ?_⟩
    have hkept := hrow n hn
    have hdel : x ∉ d.deleteNodeIds := hdel
    rw [lastRecord_insertedPart hn hdel] at hkept
    rw [IndexFile.foldl_replaceUntypedCalls_nodes]
    exact hkept

end VectorFile

namespace Embedding

variable {s : Embedding V} {w : Nat}

/-- Every vector describes its node's text, or a writer under way owes the node another. -/
structure Settling (embed : Line → V) (s : Embedding V) : Prop where
  sound : ∀ w, (s.phases w).Sound embed
  vectors : ∀ x v, s.file.vectors x = some v → ∃ n, s.file.nodes.find? x = some n ∧
    (n.nodeText.map embed = some v ∨ ∃ w, (s.phases w).Owes x n.nodeText)

variable {phase : WriterPhase V} {f : VectorFile V} {d : IndexDiff}

theorem moved_owes {text : Option Line} (hphase : (s.phases w).Owes x text → phase.Owes x text)
    {u : Nat} (h : (s.phases u).Owes x text) : ((s.moved w phase).phases u).Owes x text := by
  unfold moved
  by_cases hu : u = w
  · subst hu
    simpa using hphase h
  · simpa [hu] using h

theorem moved_sound (hs : ∀ u, (s.phases u).Sound embed) (hphase : phase.Sound embed) (u : Nat) :
    ((s.moved w phase).phases u).Sound embed := by
  unfold moved
  by_cases hu : u = w
  · subst hu
    simpa using hphase
  · simpa [hu] using hs u

namespace Settling

variable (hs : s.Settling embed)

include hs

theorem moved (hsound : phase.Sound embed) (howes : ∀ x text, (s.phases w).Owes x text → phase.Owes x text) :
    (s.moved w phase).Settling embed where
  sound := moved_sound hs.sound hsound
  vectors := by
    intro x v hv
    obtain ⟨n, hn, hcur | ⟨u, hu⟩⟩ := hs.vectors x v hv
    · exact ⟨n, hn, .inl hcur⟩
    · exact ⟨n, hn, .inr ⟨u, moved_owes (howes x _) hu⟩⟩

/-- A commit owes a vector to every node whose text it changes. -/
theorem commitFile
    (hidle : s.phases w = .idle) (hf : s.file.applyFileDiffLinked ids rules path scope d = some f)
    (hd : SendsText s.file (.commitFile path scope d)) :
    ({ s with file := f }.moved w (.committed (sentRows d))).Settling embed where
  sound := moved_sound (s := { s with file := f }) hs.sound trivial
  vectors := by
    intro x v hv
    obtain ⟨hold, hdel, hrow⟩ := rewrites_applyFileDiffLinked hf x v hv
    obtain ⟨n, hn, hcase⟩ := hs.vectors x v hold
    have hrow := hrow n hn
    have hlast : (s.file.widen path scope d).toDiff.lastRecord x = d.toDiff.lastRecord x := rfl
    rw [hlast] at hrow
    cases hsent : d.toDiff.lastRecord x with
    | none =>
      rw [hsent] at hrow
      refine ⟨n, hrow, hcase.imp_right ?_⟩
      rintro ⟨u, hu⟩
      exact ⟨u, moved_owes (s := { s with file := f }) (fun h => by simp [hidle, WriterPhase.Owes] at h) hu⟩
    | some r =>
      rw [hsent] at hrow
      obtain ⟨hmem, hid⟩ := Diff.mem_of_lastRecord hsent
      refine ⟨r.toNodeRow, hrow, .inr ⟨w, ?_⟩⟩
      have howes : (committed (sentRows d) : WriterPhase V).Owes x r.nodeText := by
        obtain ⟨sent, hsent', rfl⟩ := mem_map.mp hmem
        refine ⟨sent.toNodeRow, mem_map_of_mem hsent', by simpa using hid, rfl, fun hnone => ?_⟩
        rcases NodeRow.nodeText_eq_none_iff.mp hnone with hfiltered | hbare
        · exact hfiltered
        · have hgen := hd x (by rw [hold]; rfl) hdel _ hsent hbare
          simp [NodeRow.isFiltered, hgen]
      simpa [Embedding.moved] using howes

theorem commitSemantic {nodes : List NodeRow}
    (hidle : s.phases w = .idle) (hf : s.file.applySemanticDiffLinked ids rules d = some f) :
    ({ s with file := f }.moved w (.committedAnswer nodes)).Settling embed where
  sound := moved_sound (s := { s with file := f }) hs.sound trivial
  vectors := by
    intro x v hv
    obtain ⟨hold, hrow⟩ := applySemanticDiffLinked_vector hf hv
    obtain ⟨n, hn, hcase⟩ := hs.vectors x v hold
    refine ⟨n, hrow n hn, hcase.imp_right ?_⟩
    rintro ⟨u, hu⟩
    exact ⟨u, moved_owes (s := { s with file := f }) (fun h => by simp [hidle, WriterPhase.Owes] at h) hu⟩

/-- A stored batch pays what it owes, and describes the texts that nodes still have. -/
theorem store {batch : ComputedBatch V} (hsound : ∀ e ∈ batch.embeddings, e.embedding = embed e.text)
    (howes : ∀ x text, (s.phases w).Owes x text → (computed batch).Owes x text) :
    ({ s with file := s.file.storeVectors batch }.moved w .idle).Settling embed where
  sound := moved_sound (s := { s with file := s.file.storeVectors batch }) hs.sound trivial
  vectors := by
    intro x v hv
    have hnodes : (s.file.storeVectors batch).nodes = s.file.nodes := by
      rw [storeVectors_toIndexFile]
    show ∃ n, (s.file.storeVectors batch).nodes.find? x = some n ∧ _
    rw [hnodes]
    have htext := currentText_congr (foldl_storeDropped_toIndexFile batch.dropped s.file) x
    have hstored := foldl_storeEmbedding_vector hv
    rw [htext] at hstored
    rcases hstored with ⟨e, he, hcur, rfl⟩ | ⟨hkept, hnone⟩
    · obtain ⟨n, hn, hcur⟩ := bind_eq_some_iff.mp hcur
      exact ⟨n, hn, .inl (by rw [hcur, hsound e he]; rfl)⟩
    · obtain ⟨hold, hdropped⟩ := foldl_storeDropped_vector hkept
      obtain ⟨n, hn, hcase⟩ := hs.vectors x v hold
      have hcur : s.file.currentText x = n.nodeText := by simp [currentText, hn]
      rw [hcur] at hnone hdropped
      refine ⟨n, hn, hcase.imp_right ?_⟩
      rintro ⟨u, hu⟩
      by_cases huw : u = w
      · subst huw
        have howed := howes x _ hu
        cases hnode : n.nodeText with
        | none =>
          rw [hnode] at howed hdropped
          simpa using hdropped howed
        | some t =>
          rw [hnode] at howed hnone
          obtain ⟨e, he, hid, htext⟩ := howed
          exact absurd (by rw [htext]) (hnone e he hid)
      · exact ⟨u, by simpa [Embedding.moved, huw] using hu⟩

/-- Every step of a writer keeps each vector right or owed. -/
theorem step {a : WriterStep} (ha : SendsText s.file a) : (s.step embed ids rules w a).Settling embed := by
  cases a with
  | commitFile =>
    simp only [Embedding.step]
    split
    next hidle hf => exact hs.commitFile hidle hf ha
    next => exact hs
  | commitSemantic d =>
    simp only [Embedding.step]
    split
    next hidle hf => exact hs.commitSemantic hidle hf
    next => exact hs
  | lookUp | readPage =>
    simp only [Embedding.step]
    split
    next hphase => exact hs.moved trivial fun x text h => by simp [hphase, WriterPhase.Owes] at h
    next => exact hs
  | compute =>
    simp only [Embedding.step]
    split
    next nodes hphase =>
      exact hs.moved (sound_compute embed nodes) fun x text h => owes_compute embed (hphase ▸ h)
    next nodes hphase =>
      exact hs.moved (sound_compute embed nodes) fun x text h => by simp [hphase, WriterPhase.Owes] at h
    next => exact hs
  | store =>
    have hsound := hs.sound w
    simp only [Embedding.step]
    split
    next batch hphase =>
      rw [hphase] at hsound
      exact hs.store hsound fun x text h => hphase ▸ h
    next batch hphase =>
      rw [hphase] at hsound
      exact hs.store hsound fun x text h => by simp [hphase, WriterPhase.Owes] at h
    next => exact hs

end Settling

variable {steps : List (Nat × WriterStep)} {opened : VectorFile V}

theorem settling_run (ho : opened.Current embed) (hc : RunSendsText embed ids rules opened steps) :
    (run embed ids rules opened steps).Settling embed := by
  induction steps with
  | nil =>
    refine ⟨fun _ => trivial, fun x v hv => ?_⟩
    obtain ⟨n, hn, hcur⟩ := ho x v hv
    exact ⟨n, hn, .inl hcur⟩
  | cons _ _ ih => exact (ih hc.1).step hc.2

theorem step_phase_of_ne {u : Nat} (hu : u ≠ w) (a : WriterStep) :
    (s.step embed ids rules w a).phases u = s.phases u := by
  have hmoved : ∀ (t : Embedding V) (phase : WriterPhase V), (t.moved w phase).phases u = t.phases u := fun t phase => by
    simp [Embedding.moved, hu]
  cases a with
  | commitFile | commitSemantic | lookUp | readPage =>
    simp only [Embedding.step]
    split
    · exact hmoved _ _
    · rfl
  | compute | store =>
    simp only [Embedding.step]
    split
    · exact hmoved _ _
    · exact hmoved _ _
    · rfl

theorem run_phase_of_not_mem (hw : w ∉ steps.map Prod.fst) : (run embed ids rules opened steps).phases w = .idle := by
  induction steps with
  | nil => rfl
  | cons step before ih =>
    simp only [map_cons, mem_cons, not_or] at hw
    show (Embedding.step embed ids rules (run embed ids rules opened before) step.1 step.2).phases w = .idle
    rw [step_phase_of_ne hw.1, ih hw.2]

theorem Settling.current (hs : s.Settling embed) (hq : ∀ w, (s.phases w).isOpen = false) : s.file.Current embed := by
  intro x v hv
  obtain ⟨n, hn, hcur | ⟨w, hw⟩⟩ := hs.vectors x v hv
  · exact ⟨n, hn, hcur⟩
  · have hopen := hq w
    cases hphase : s.phases w <;> simp [hphase, WriterPhase.Owes, isOpen] at hw hopen

end Embedding

/-- No vector describes text its node no longer has once the writers are through. -/
theorem vectors_describe_current_text (embed : Line → V) (ids : ContainerIds) (rules : LinkRules)
    (opened : VectorFile V) (ho : opened.Current embed) (steps : List (Nat × WriterStep))
    (hc : Embedding.RunSendsText embed ids rules opened steps)
    (hq : ∀ w, ((Embedding.run embed ids rules opened steps).phases w).isOpen = false) :
    (∀ x v, (Embedding.run embed ids rules opened steps).file.vectors x = some v →
      ∃ n t, (Embedding.run embed ids rules opened steps).file.nodes.find? x = some n ∧ n.nodeText = some t ∧
        v = embed t) ∧
    (∀ n ∈ (Embedding.run embed ids rules opened steps).file.nodes, n.nodeText = none →
      (Embedding.run embed ids rules opened steps).file.vectors n.id = none) := by
  have hcurrent := (Embedding.settling_run ho hc).current hq
  refine ⟨fun x v hv => ?_, fun n hn hnone => ?_⟩
  · obtain ⟨n, hn, hcur⟩ := hcurrent x v hv
    obtain ⟨t, ht, rfl⟩ := map_eq_some_iff.mp hcur
    exact ⟨n, t, hn, ht, rfl⟩
  · by_contra hv
    obtain ⟨v, hv⟩ := ne_none_iff_exists'.mp hv
    obtain ⟨m, hm, hcur⟩ := hcurrent n.id v hv
    rw [KeyedTable.mem_iff_find?.mp hn] at hm
    cases hm
    simp [hnone] at hcur

def documented : DeclaredRecord :=
  { id := "n", name := "total", filePath := "a.ts", language := "typescript", docComment := some "Adds the rows." }

/-- A function is embedded, and then its file is sent again with another record. -/
def sentAgain (record : DeclaredRecord) : List (Nat × WriterStep) :=
  [(0, .store), (0, .compute), (0, .commitFile "a.ts" .complete { upsertNodes := [record] }),
    (0, .store), (0, .compute), (0, .commitFile "a.ts" .complete { upsertNodes := [documented] })]

def generatedRecord : DeclaredRecord := { documented with generated := true }

def bareRecord : DeclaredRecord := { documented with docComment := none }

variable {record : DeclaredRecord}

theorem sentAgain_closed (h : ((Embedding.run id taggedIds {} {} (sentAgain record)).phases 0).isOpen = false)
    (w : Nat) : ((Embedding.run id taggedIds {} {} (sentAgain record)).phases w).isOpen = false := by
  by_cases hw : w = 0
  · rw [hw, h]
  · rw [Embedding.run_phase_of_not_mem (by simp [sentAgain, hw])]
    rfl

theorem sendsText_record {f : VectorFile V} (h : record.isBare → record.generated) :
    Embedding.SendsText f (.commitFile "a.ts" .complete { upsertNodes := [record] }) := by
  intro x _ _ n hn hbare
  have hmem := (Diff.mem_of_lastRecord hn).1
  simp only [IndexDiff.toDiff, map_cons, map_nil, mem_singleton] at hmem
  subst hmem
  exact h hbare

theorem vectors_describe_generatedRecord :
    (Embedding.run id taggedIds {} {} (sentAgain generatedRecord)).file.vectors "n" = none := by
  have hall := vectors_describe_current_text id taggedIds {} {} (by simp [VectorFile.Current]) (sentAgain generatedRecord)
    ?_ (sentAgain_closed (by decide +kernel))
  · exact hall.2 generatedRecord.toNodeRow (by decide +kernel) (by decide +kernel)
  · have hfirst : documented.isBare = true → documented.generated = true := by decide +kernel
    have hsecond : generatedRecord.isBare = true → generatedRecord.generated = true := fun _ => rfl
    exact ⟨⟨⟨⟨⟨⟨trivial, sendsText_record hfirst⟩, trivial⟩, trivial⟩, sendsText_record hsecond⟩, trivial⟩, trivial⟩

theorem vectors_describe_bareRecord :
    ((Embedding.run id taggedIds {} {} (sentAgain bareRecord)).phases 0).isOpen = false ∧
    (Embedding.run id taggedIds {} {} (sentAgain bareRecord)).file.vectors "n" = some "Adds the rows.".toList ∧
    ((Embedding.run id taggedIds {} {} (sentAgain bareRecord)).file.nodes.find? "n").map NodeRow.nodeText =
      some none := by
  decide +kernel

end GMesh
