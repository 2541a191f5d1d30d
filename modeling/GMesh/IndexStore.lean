import GMesh.LinkedHistory
import GMesh.Savepoints

namespace GMesh

open List

/-- The index file, with the placeholders of each language that no diff has upserted since the last swap. -/
structure IndexStore where
  file : IndexFile := {}
  unclaimed : String → List String := fun _ => []

structure Faults where
  opening : Bool := false
  reads : Bool := false
  diff : Bool := false
  imports : Bool := false
  symbols : Bool := false
  goneRows : Bool := false
  commit : Bool := false
  deriving DecidableEq, Repr

inductive SwapOutcome
  | failed | detachFailed | done
  deriving DecidableEq, Repr

namespace IndexStore

variable (ids : ContainerIds) (rules : LinkRules) (s : IndexStore)

def claim (d : IndexDiff) : IndexStore :=
  { s with unclaimed := fun language => (s.unclaimed language).filter fun id => !d.upsertNodes.any (·.id == id) }

def commitBatch (fails : Bool) (d : IndexDiff) : IndexStore :=
  match Savepoint.failing fails (fun f => f.applyDiff ids d) s.file with
  | none => s
  | some f => { s with file := f }.claim d

variable (faults : Faults)

/-- The diff's own write, then the imports and the symbol links it enables. -/
def applyAndLink (apply : Savepoint IndexFile) (d : IndexDiff) : List (Savepoint IndexFile) :=
  [apply.failing faults.diff,
    Savepoint.failing faults.imports (fun f => some (f.linkDiffImports d)),
    Savepoint.failing faults.symbols (fun f => some (f.linkDiff rules d))]

/-- Only a write that succeeds as a whole claims what its diff sent. -/
def writeLinked (units : List (Savepoint IndexFile)) (d : IndexDiff) : IndexStore :=
  let written := inOneCommit (!faults.opening) (!faults.commit) units s.file
  if written.2 then { s with file := written.1 }.claim d else { s with file := written.1 }

def applyDiffLinked (d : IndexDiff) : IndexStore :=
  s.writeLinked faults (applyAndLink rules faults (fun f => f.applyDiff ids d) d) d

def applySemanticDiffLinked (d : IndexDiff) : IndexStore :=
  s.writeLinked faults (applyAndLink rules faults (fun f => f.applySemanticDiff ids d) d) d

def applyFileDiffLinked (path : String) (scope : FileScope) (d : IndexDiff) :
    IndexStore :=
  let widened := s.file.widen path scope d
  s.writeLinked faults
    (Savepoint.failing faults.reads some ::
      (applyAndLink rules faults (fun f => f.applyDiff ids widened) widened ++
        if scope = .gone then [Savepoint.failing faults.goneRows some] else []))
    widened

/-- Only a swap that returns the placeholders it kept records them. -/
def swapLanguage (outcome : SwapOutcome) (language : String) (staging : IndexFile) (plan : Plan) :
    IndexStore :=
  match outcome with
  | .failed => s
  | .detachFailed => { s with file := swapAttached s.file staging plan }
  | .done => { file := swapAttached s.file staging plan, unclaimed := Function.update s.unclaimed language plan.keepNodes }

def sweepUnclaimedNodes (fails : Bool) (language : String) : IndexStore where
  file := if fails then s.file else s.file.deletePlaceholders language (s.unclaimed language)
  unclaimed := Function.update s.unclaimed language []

end IndexStore

inductive IndexCall
  | commitBatch (fails : Bool) (d : IndexDiff)
  | applyDiffLinked (faults : Faults) (d : IndexDiff)
  | applySemanticDiffLinked (faults : Faults) (d : IndexDiff)
  | applyFileDiffLinked (faults : Faults) (path : String) (scope : FileScope) (d : IndexDiff)
  | swapLanguage (outcome : SwapOutcome) (language : String) (staging : IndexFile) (plan : Plan)
  | sweepUnclaimedNodes (fails : Bool) (language : String)

namespace IndexCall

variable (ids : ContainerIds) (rules : LinkRules)

def run (s : IndexStore) : IndexCall → IndexStore
  | commitBatch fails d => s.commitBatch ids fails d
  | applyDiffLinked faults d => s.applyDiffLinked ids rules faults d
  | applySemanticDiffLinked faults d => s.applySemanticDiffLinked ids rules faults d
  | applyFileDiffLinked faults path scope d => s.applyFileDiffLinked ids rules faults path scope d
  | swapLanguage outcome language staging plan => s.swapLanguage outcome language staging plan
  | sweepUnclaimedNodes fails language => s.sweepUnclaimedNodes fails language

def sends (s : IndexStore) : IndexCall → List String
  | commitBatch fails d => if !fails && (s.file.applyDiff ids d).isSome then d.upsertNodes.map (·.id) else []
  | applyDiffLinked faults d =>
    if !faults.opening && !faults.commit && !faults.diff && (s.file.applyDiff ids d).isSome then
      d.upsertNodes.map (·.id) else []
  | applySemanticDiffLinked faults d =>
    if !faults.opening && !faults.commit && !faults.diff && (s.file.applySemanticDiff ids d).isSome then
      d.upsertNodes.map (·.id) else []
  | applyFileDiffLinked faults path scope d =>
    if !faults.opening && !faults.commit && !faults.reads && !faults.diff &&
        (s.file.applyDiff ids (s.file.widen path scope d)).isSome then
      d.upsertNodes.map (·.id) else []
  | _ => []

def failsAfterDiff : IndexCall → Bool
  | applyDiffLinked faults _ => faults.imports || faults.symbols
  | applySemanticDiffLinked faults _ => faults.imports || faults.symbols
  | applyFileDiffLinked faults _ scope _ => faults.imports || faults.symbols || (decide (scope = .gone) && faults.goneRows)
  | _ => false

def swaps (language : String) : IndexCall → Bool
  | swapLanguage outcome swapped _ _ => decide (outcome ≠ .failed) && decide (swapped = language)
  | _ => false

end IndexCall

abbrev IndexRun := List IndexCall

namespace IndexRun

variable (ids : ContainerIds) (rules : LinkRules) (opened : IndexFile)

def store : IndexRun → IndexStore
  | [] => { file := opened }
  | call :: before => call.run ids rules (store before)

/-- The ids that some diff committed since the last swap of the language upserted. -/
def sent (language : String) : IndexRun → List String
  | [] => []
  | call :: before =>
    if call.swaps language then [] else call.sends ids (store ids rules opened before) ++ sent language before

/-- No write that fails after its diff sends a placeholder that waits to be claimed. -/
def KeepsClaims : IndexRun → Prop
  | [] => True
  | call :: before => KeepsClaims before ∧ (call.failsAfterDiff = true →
      ∀ x ∈ call.sends ids (store ids rules opened before), ∀ language,
        x ∉ (store ids rules opened before).unclaimed language)

end IndexRun

variable {ids : ContainerIds} {rules : LinkRules} {opened : IndexFile}

namespace IndexStore

variable {s : IndexStore} {faults : Faults} {d : IndexDiff} {x language : String}

theorem mem_claim_unclaimed :
    x ∈ (s.claim d).unclaimed language ↔ x ∈ s.unclaimed language ∧ x ∉ d.upsertNodes.map (·.id) := by
  simp only [claim, List.mem_filter, Bool.not_eq_true', any_eq_false, beq_iff_eq, mem_map, not_exists, not_and]

theorem mem_writeLinked_unclaimed {units : List (Savepoint IndexFile)}
    (h : x ∈ (s.writeLinked faults units d).unclaimed language) :
    x ∈ s.unclaimed language ∧ (x ∈ d.upsertNodes.map (·.id) →
      (inOneCommit (!faults.opening) (!faults.commit) units s.file).2 = false) := by
  simp only [writeLinked] at h
  split at h
  next hok =>
    obtain ⟨hx, hsent⟩ := mem_claim_unclaimed.mp h
    exact ⟨hx, fun hd => absurd hd hsent⟩
  next hok => exact ⟨h, fun _ => by simpa using hok⟩

theorem applyAndLink_ok (rules : LinkRules) {faults : Faults} (apply : Savepoint IndexFile) (d : IndexDiff) {f : IndexFile}
    (rest : List (Savepoint IndexFile))
    (happly : (apply f).isSome) (hdiff : faults.diff = false) (himports : faults.imports = false)
    (hsymbols : faults.symbols = false) (hrest : ∀ unit ∈ rest, ∀ g, (unit g).isSome) :
    (runUnits (applyAndLink rules faults apply d ++ rest) f).2 := by
  obtain ⟨g, hg⟩ := Option.isSome_iff_exists.mp happly
  refine runUnits_ok_cons.mpr ⟨g, by simp [Savepoint.failing, hdiff, hg], runUnits_ok ?_ g⟩
  intro unit hunit h
  rcases mem_cons.mp hunit with rfl | hunit
  · simp [Savepoint.failing, himports]
  rcases mem_cons.mp hunit with rfl | hunit
  · simp [Savepoint.failing, hsymbols]
  · exact hrest unit hunit h

end IndexStore

namespace IndexCall

variable {s : IndexStore} {call : IndexCall} {x language : String}

theorem failsAfterDiff_of_writeLinked {faults : Faults} (apply : Savepoint IndexFile) {d : IndexDiff}
    (hsent : (!faults.opening && !faults.commit && !faults.diff && (apply s.file).isSome))
    (h : (inOneCommit (!faults.opening) (!faults.commit) (IndexStore.applyAndLink rules faults apply d) s.file).2 = false) :
    (faults.imports || faults.symbols) := by
  simp only [Bool.and_eq_true, Bool.not_eq_true'] at hsent
  obtain ⟨⟨⟨hopen, hcommit⟩, hdiff⟩, happly⟩ := hsent
  by_contra hf
  simp only [Bool.or_eq_true, not_or, Bool.not_eq_true] at hf
  have hok := IndexStore.applyAndLink_ok rules apply d [] happly hdiff hf.1 hf.2 (by simp)
  rw [append_nil] at hok
  simp [inOneCommit, hopen, hcommit, hok] at h

/-- A call takes what it sends out of the unclaimed, unless it fails behind its diff. -/
theorem unclaimed_of_run (hswap : call.swaps language = false)
    (hx : x ∈ (call.run ids rules s).unclaimed language) :
    x ∈ s.unclaimed language ∧ (x ∈ call.sends ids s → call.failsAfterDiff) := by
  cases call with
  | commitBatch fails d =>
    simp only [run, IndexStore.commitBatch] at hx
    split at hx
    next hnone =>
      refine ⟨hx, fun hsent => ?_⟩
      have hno : (!fails && (s.file.applyDiff ids d).isSome) = false := by
        have hfail := Savepoint.failing_isSome fails (fun f => f.applyDiff ids d) s.file
        rw [hnone] at hfail
        simpa using hfail.symm
      simp [sends, hno] at hsent
    next f _ =>
      obtain ⟨hmem, hclaimed⟩ := IndexStore.mem_claim_unclaimed.mp hx
      refine ⟨hmem, fun hsent => ?_⟩
      simp only [sends] at hsent
      split at hsent
      · exact absurd hsent hclaimed
      · simp at hsent
  | applyDiffLinked faults d | applySemanticDiffLinked faults d =>
    obtain ⟨hmem, hlost⟩ := IndexStore.mem_writeLinked_unclaimed hx
    refine ⟨hmem, fun hsent => ?_⟩
    simp only [sends] at hsent
    split at hsent
    next hcommits => exact failsAfterDiff_of_writeLinked _ hcommits (hlost hsent)
    next => simp at hsent
  | applyFileDiffLinked faults path scope d =>
    obtain ⟨hmem, hlost⟩ := IndexStore.mem_writeLinked_unclaimed hx
    refine ⟨hmem, fun hsent => ?_⟩
    simp only [sends] at hsent
    split at hsent
    next hcommits =>
      simp only [Bool.and_eq_true, Bool.not_eq_true'] at hcommits
      obtain ⟨⟨⟨⟨hopen, hcommit⟩, hreads⟩, hdiff⟩, happly⟩ := hcommits
      have hfail := hlost hsent
      by_contra hno
      simp only [failsAfterDiff, Bool.or_eq_true, not_or, Bool.not_eq_true] at hno
      obtain ⟨⟨himports, hsymbols⟩, hgone⟩ := hno
      have hok := IndexStore.applyAndLink_ok rules (fun f => f.applyDiff ids (s.file.widen path scope d))
        (s.file.widen path scope d) (if scope = .gone then [Savepoint.failing faults.goneRows some] else []) happly
          hdiff himports hsymbols ?_
      · simp [inOneCommit, hopen, hcommit, runUnits, Savepoint.failing, hreads] at hfail hok
        simp [hok] at hfail
      · intro unit hunit g
        split at hunit
        next hscope =>
          have hrows : faults.goneRows = false := by simpa [hscope] using hgone
          simp only [mem_singleton] at hunit
          simp [hunit, Savepoint.failing, hrows]
        next => simp at hunit
    next => simp at hsent
  | swapLanguage outcome swapped =>
    cases outcome with
    | failed => exact ⟨hx, by simp [sends]⟩
    | detachFailed => exact ⟨hx, by simp [sends]⟩
    | done =>
      have hne : language ≠ swapped := by
        rintro rfl
        simp [swaps] at hswap
      simp only [run, IndexStore.swapLanguage, Function.update_of_ne hne] at hx
      exact ⟨hx, by simp [sends]⟩
  | sweepUnclaimedNodes fails swept =>
    simp only [run, IndexStore.sweepUnclaimedNodes, Function.update_apply] at hx
    split at hx
    · simp at hx
    · exact ⟨hx, by simp [sends]⟩

end IndexCall

namespace IndexRun

variable {calls : IndexRun} {x language : String}

theorem sent_not_unclaimed (hc : KeepsClaims ids rules opened calls) (hx : x ∈ sent ids rules opened language calls) :
    x ∉ (store ids rules opened calls).unclaimed language := by
  induction calls with
  | nil => simp [sent] at hx
  | cons _ _ ih =>
    intro hmem
    simp only [sent] at hx
    split at hx
    next => simp at hx
    next hswap =>
      obtain ⟨hbefore, hlost⟩ := IndexCall.unclaimed_of_run (by simpa using hswap) hmem
      rcases mem_append.mp hx with hsent | hsent
      · exact hc.2 (hlost hsent) x hsent language hbefore
      · exact ih hc.1 hsent hbefore

end IndexRun

/-- A sweep deletes no placeholder that was sent again. -/
theorem sweep_spares_sent (ids : ContainerIds) (rules : LinkRules) (opened : IndexFile) (calls : IndexRun)
    (hc : calls.KeepsClaims ids rules opened) {language x : String} (hx : x ∈ calls.sent ids rules opened language)
    (fails : Bool) :
    ((calls.store ids rules opened).sweepUnclaimedNodes fails language).file.nodes.find? x =
      (calls.store ids rules opened).file.nodes.find? x := by
  have hno := IndexRun.sent_not_unclaimed hc hx
  cases fails with
  | true => rfl
  | false => exact IndexFile.deletePlaceholders_node (fun hmem => absurd hmem hno)

def keptPlaceholder : IndexRun :=
  let committed : IndexRun := [.commitBatch false foundCall]
  let reindex : Reindex := ⟨{}, (committed.store taggedIds {} {}).file, "typescript", true⟩
  .swapLanguage .done "typescript" reindex.staging reindex.planAttached :: committed

theorem sweep_spares_resent :
    (((IndexRun.store taggedIds {} {} (.applySemanticDiffLinked {} foundCall :: keptPlaceholder)).sweepUnclaimedNodes
      false "typescript").file.nodes.find? "p").isSome = true := by
  have hsent : "p" ∈ IndexRun.sent taggedIds {} {} "typescript"
      (.applySemanticDiffLinked {} foundCall :: keptPlaceholder) := by decide +kernel
  have hspared := sweep_spares_sent taggedIds {} {} (.applySemanticDiffLinked {} foundCall :: keptPlaceholder)
    (by simp [IndexRun.KeepsClaims, keptPlaceholder, IndexCall.failsAfterDiff]) hsent false
  rw [hspared]
  decide +kernel

def unlinkedResend : IndexRun := .applySemanticDiffLinked { symbols := true } foundCall :: keptPlaceholder

/-- The sweep takes a placeholder that the store has just committed. -/
theorem sweep_takes_resent :
    "p" ∈ unlinkedResend.sent taggedIds {} {} "typescript" ∧
    (unlinkedResend.store taggedIds {} {}).file.nodes.contains "p" = true ∧
    ((unlinkedResend.store taggedIds {} {}).sweepUnclaimedNodes false "typescript").file.nodes.contains "p" = false := by
  decide +kernel

end GMesh
