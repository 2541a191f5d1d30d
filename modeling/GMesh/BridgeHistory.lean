import GMesh.BridgeMemory

namespace GMesh

open PassRequest LspBridge Answers Option List

def replacedEdges (index : SdkIndex) : List String :=
  index.files.flatMap fun f => f.graph.openSites.filterMap OpenSite.replaces

namespace PassState

variable {v : ServerView} {config : SemanticConfig} {index : SdkIndex} {budgets : Budgets} {s : PassState} {t : Turn}
  {file : String} {named : List String}

structure Clear (file : String) (named : List String) (s : PassState) : Prop where
  answers : s.answers.Clear file named
  questions : ∀ q ∈ s.openQuestions, q.Clear file named
  touched : file ∉ s.touchedFiles

/-- A round without a hop into the file stays clear of it. -/
theorem Clear.round (h : s.Clear file named)
    (hop : ∀ h ∈ handedIn budgets s t, HopSpares v index file h.1 h.2) :
    (s.round v config index budgets t).Clear file named := by
  have htouched : (∀ f ∈ (s.round v config index budgets t).touchedFiles,
      f ∈ s.touchedFiles ∨ ∃ p ∈ s.openQuestions, p.accountedTo = f) →
      file ∉ (s.round v config index budgets t).touchedFiles := by
    intro hall hfile
    rcases hall file hfile with hf | ⟨p, hp, hpf⟩
    · exact h.touched hf
    · exact (h.questions p hp).accounted hpf
  rcases round_does v config index budgets s t with ⟨_, hpass⟩ | ⟨q, answer, hin, hq, hans, hopen, htouch⟩
  · exact ⟨hpass.answers ▸ h.answers, fun p hp => h.questions p (hpass.questions p hp), htouched hpass.touched⟩
  · have hclear := h.answers.recordAnswer config (h.questions q hq) (hop (q, answer) hin)
    refine ⟨hans ▸ hclear.1, ?_, htouched htouch⟩
    intro p hp
    rcases hopen p hp with hp | hp
    · exact h.questions p hp
    · exact hclear.2 p hp

/-- So does a pass without one. -/
theorem Clear.run {turns : List Turn} (h : s.Clear file named)
    (hop : ∀ h ∈ handedOn v config index budgets turns s, HopSpares v index file h.1 h.2) :
    (s.run v config index budgets turns).Clear file named := by
  induction turns generalizing s with
  | nil => exact h
  | cons _ _ ih =>
    refine ih (h.round fun e he => hop e (mem_append_left _ ?_)) fun e he => hop e (mem_append_right _ he)
    simpa using he

end PassState

section Plan

variable {index : SdkIndex} {config : SemanticConfig} {budgets : Budgets} {q : Question}

theorem siteAsk_site {graph : SdkGraph} {site : OpenSite} {ask : Ask} (hask : siteAsk index graph site = some ask) :
    ask = .definition site ∨ ask = .overload site := by
  unfold siteAsk at hask
  split at hask
  · simp at hask
  · simp at hask
  · split at hask
    · exact .inr (some.inj hask).symm
    · simp at hask
  · split at hask
    · exact .inl (some.inj hask).symm
    · simp at hask
  · exact .inl (some.inj hask).symm

theorem fileQuestions_clear {entry : FileEntry} (hentry : entry ∈ index.files)
    (hq : q ∈ fileQuestions index config entry) :
    q.accountedTo = q.file ∧ q.rememberedFor = q.file ∧
      ∀ site, q.ask = .definition site → ∀ x ∈ site.replaces, x ∈ replacedEdges index := by
  rcases mem_append.mp hq with hq | hq
  · obtain ⟨site, hsite, hmap⟩ := mem_filterMap.mp (mem_filter.mp hq).1
    obtain ⟨ask, hask, rfl⟩ := map_eq_some_iff.mp hmap
    rcases siteAsk_site hask with rfl | rfl
    · refine ⟨rfl, rfl, ?_⟩
      intro site' hsame x hx
      cases hsame
      exact mem_flatMap.mpr ⟨entry, hentry, mem_filterMap.mpr ⟨site, hsite, hx⟩⟩
    · exact ⟨rfl, rfl, by simp⟩
  · obtain ⟨node, _, rfl⟩ := mem_map.mp hq
    exact ⟨rfl, rfl, by simp⟩

theorem mem_planFiles {scope : List String} {plan : Questions} (hq : q ∈ (planFiles index config budgets scope plan).asking) :
    q ∈ plan.asking ∨ ∃ entry ∈ index.files, entry.path ∈ scope ∧ q ∈ fileQuestions index config entry := by
  induction scope generalizing plan with
  | nil => exact .inl hq
  | cons path _ ih =>
    rw [planFiles] at hq
    split at hq
    next =>
      rcases ih hq with hq | ⟨entry, hmem, hpath, hq⟩
      · exact .inl hq
      · exact .inr ⟨entry, hmem, mem_cons_of_mem path hpath, hq⟩
    next entry hentry =>
      have hmem : entry ∈ index.files := mem_of_find?_eq_some hentry
      have hpath : entry.path = path := by simpa using find?_some hentry
      simp only at hq
      split at hq
      next =>
        rcases ih hq with hq | ⟨other, hother, hscope, hq⟩
        · rcases mem_append.mp hq with hq | hq
          · exact .inl hq
          · exact .inr ⟨entry, hmem, hpath ▸ mem_cons_self, hq⟩
        · exact .inr ⟨other, hother, mem_cons_of_mem path hscope, hq⟩
      next => exact .inl hq

theorem startPass_clear {r : PassRequest} {file : String} {warmedUp : Bool} {nextId : Nat}
    (hfile : ∀ q ∈ (r.plan config).asking, q.file ≠ file) :
    (startPass (r.plan config).asking warmedUp nextId).Clear file (replacedEdges r.index) := by
  refine ⟨⟨by simp [startPass], by simp [startPass], by simp [startPass]⟩, ?_, by simp [startPass]⟩
  intro q hq
  have hasked : q ∈ (r.plan config).asking := by simpa [PassState.openQuestions, startPass] using hq
  rcases mem_planFiles hasked with hnone | ⟨entry, hmem, _, hq⟩
  · simp at hnone
  · obtain ⟨hacc, hrem, hsite⟩ := fileQuestions_clear hmem hq
    exact ⟨hacc ▸ hfile q hasked, hrem ▸ hfile q hasked, hsite⟩

end Plan

namespace Answers

variable {a : Answers} {index : SdkIndex} {finished : List String} {x file : String} (config : SemanticConfig)

theorem mem_settle_retract :
    x ∈ (a.settle index finished).retract ↔ x ∈ a.boundEdges index finished ∨ x ∈ a.retract := by
  simp only [settle, drop, settleOverloads, mem_append]

theorem boundEdges_named (h : x ∈ a.boundEdges index finished) : x ∈ replacedEdges index := by
  have hmem : x ∈ (overloadSites index finished).map Prod.fst := (mem_filter.mp (mem_dedup.mp h)).1
  obtain ⟨⟨replaced, position⟩, hsite, rfl⟩ := mem_map.mp hmem
  obtain ⟨path, _, hsite⟩ := mem_flatMap.mp hsite
  obtain ⟨site, hopen, hsome⟩ := mem_filterMap.mp hsite
  cases hg : index.graph path with
  | none => simp [hg] at hopen
  | some graph =>
    obtain ⟨entry, hentry, rfl⟩ := map_eq_some_iff.mp hg
    simp only [hg, elim_some] at hopen
    refine mem_flatMap.mpr ⟨entry, mem_of_find?_eq_some hentry, mem_filterMap.mpr ⟨site, hopen, ?_⟩⟩
    split at hsome
    · obtain ⟨_, hr, heq⟩ := map_eq_some_iff.mp hsome
      rw [hr, (Prod.mk.inj heq).1]
    · simp at hsome

theorem mem_settle_emittedFor (h : x ∈ (a.settle index finished).emittedFor file) : (file, x) ∈ a.byFile := by
  obtain ⟨e, he, rfl⟩ := mem_map.mp h
  obtain ⟨he, hfile⟩ := mem_filter.mp he
  have hfile : e.1 = file := by simpa using hfile
  have hmem : e ∈ a.byFile := (mem_filter.mp (mem_filter.mp he).1).1
  exact hfile ▸ hmem

theorem mem_deleteEdgeIds :
    x ∈ (a.finish config).deleteEdgeIds ↔
      x ∈ a.retract ∧ x ∉ a.recorded.map RecordedEdge.id ∧ x ∉ a.resend.map (·.id) := by
  simp only [finish, mem_insertionSort, mem_dedup, mem_filter, decide_eq_true_iff]

theorem mem_retractStale {remembered now : String → List String} {covered : List String} :
    x ∈ (a.retractStale remembered covered now).retract ↔
      (∃ f ∈ covered, x ∈ remembered f ∧ x ∉ now f) ∨ x ∈ a.retract := by
  simp only [retractStale, mem_append, mem_flatMap, mem_filter, decide_eq_true_iff]

theorem mem_upsertEdges_ids :
    x ∈ (a.finish config).upsertEdges.map (·.id) ↔ x ∈ a.recorded.map RecordedEdge.id ∨ x ∈ a.resend.map (·.id) := by
  simp [finish, recordedRow, mem_insertionSort]

end Answers

namespace PassRequest

variable (v : ServerView) (config : SemanticConfig) (r : PassRequest)

def ended : Option PassState :=
  if (r.plan config).asking = [] then none
  else
    match r.outcome with
    | .notReady _ => none
    | .asked warmedUp nextId turns =>
      let s := (startPass (r.plan config).asking warmedUp nextId).run v config r.index r.budgets turns
      if s.running then none else some s

def handed : List (Question × ServerAnswer) :=
  match r.outcome with
  | .notReady _ => []
  | .asked warmedUp nextId turns =>
    PassState.handedOn v config r.index r.budgets turns (startPass (r.plan config).asking warmedUp nextId)

def produced (file : String) : List String :=
  (r.ended v config).elim [] fun s => (s.answers.settle r.index (finished config r s)).emittedFor file

end PassRequest

namespace LspBridge

variable {v : ServerView} {config : SemanticConfig} {b : LspBridge} {r : PassRequest} {out : LspBridge × SemanticAnswer}
  {file x : String}

def recordedFor (v : ServerView) (config : SemanticConfig) (before : List PassRequest) (file : String) : List String :=
  before.flatMap fun r => r.produced v config file

/-- How a pass ends: without a run, with nothing to ask, or with its rounds at an end. -/
theorem answer_cases (h : b.answer v config r = some out) :
    (r.ended v config = none ∧ out.1 = b ∧ out.2.diff = {} ∧
      (r.scope = [] ∨ ((r.plan config).asking = [] ∧ out.2.unfinished = r.scope) ∨
        ((r.plan config).asking ≠ [] ∧ out.2.unfinished = r.askedAbout config))) ∨
    (r.ended v config = none ∧ (r.plan config).asking = [] ∧ out = b.answerNothingAsked config r) ∨
    ((r.plan config).asking ≠ [] ∧ ∃ s, r.ended v config = some s ∧ out = b.answerRun config r s) := by
  unfold answer at h
  split at h
  next hscope =>
    refine .inl ⟨?_, ?_⟩
    · simp [ended, plan, hscope, questions, planFiles]
    · rw [← some.inj h]
      exact ⟨rfl, rfl, .inl hscope⟩
  next =>
    split at h
    next hasking =>
      split at h
      next =>
        refine .inl ⟨by simp [ended, hasking], ?_⟩
        rw [← some.inj h]
        exact ⟨rfl, rfl, .inr (.inl ⟨hasking, rfl⟩)⟩
      next =>
        exact .inr (.inl ⟨by simp [ended, hasking], hasking, (some.inj h).symm⟩)
    next hasking =>
      cases hout : r.outcome with
      | notReady reason =>
        rw [hout] at h
        refine .inl ⟨by simp [ended, hout], ?_⟩
        rw [← some.inj h]
        exact ⟨rfl, rfl, .inr (.inr ⟨hasking, rfl⟩)⟩
      | asked =>
        rw [hout] at h
        simp only at h
        split at h
        next => simp at h
        next hrun =>
          refine .inr (.inr ⟨hasking, _, ?_, (some.inj h).symm⟩)
          simp only [ended, if_neg hasking, hout, hrun]
          rfl

theorem ended_clear {s : PassState} (hs : r.ended v config = some s) (hplan : ∀ q ∈ (r.plan config).asking, q.file ≠ file)
    (hop : ∀ h ∈ r.handed v config, HopSpares v r.index file h.1 h.2) : s.Clear file (replacedEdges r.index) := by
  unfold ended at hs
  unfold handed at hop
  split at hs
  next => simp at hs
  next =>
    split at hs
    next => simp at hs
    next warmedUp nextId turns hout =>
      rw [hout] at hop
      simp only at hs
      split at hs
      next => simp at hs
      next => exact some.inj hs ▸ (startPass_clear hplan).run hop

/-- A bridge remembers for a file only edges that some pass recorded for it. -/
theorem emitted_subset_recordedFor {before : List PassRequest} (hx : x ∈ (after v config before).emitted file) :
    x ∈ recordedFor v config before file := by
  induction before with
  | nil => simp [after] at hx
  | cons r before ih =>
    rw [recordedFor, flatMap_cons, mem_append]
    rw [after] at hx
    cases hout : (after v config before).answer v config r with
    | none =>
      rw [hout] at hx
      exact .inr (ih hx)
    | some out =>
      rw [hout] at hx
      have hx : x ∈ out.1.emitted file := hx
      rcases answer_cases hout with ⟨_, hsame, _⟩ | ⟨_, _, rfl⟩ | ⟨_, s, hs, rfl⟩
      · exact .inr (ih (hsame ▸ hx))
      · simp only [answerNothingAsked] at hx
        split at hx
        · simp at hx
        · exact .inr (ih hx)
      · simp only [answerRun] at hx
        split at hx
        · exact .inl (by simpa [produced, hs] using hx)
        · rcases mem_append.mp hx with hx | hx
          · exact .inr (ih hx)
          · exact .inl (by simpa [produced, hs] using (mem_filter.mp hx).1)

theorem mem_nothingAsked_deletes :
    x ∈ (b.answerNothingAsked config r).2.diff.deleteEdgeIds ↔ ∃ f ∈ r.scope, x ∈ b.emitted f := by
  refine (mem_deleteEdgeIds config).trans ?_
  simp [retractStale]

theorem finished_subset {s : PassState} (h : file ∈ finished config r s) : file ∈ s.covered :=
  (mem_filter.mp h).1

end LspBridge

/-- A pass withdraws nothing of a file it does not ask about, unless the file is in its scope, and forgets nothing of
it that it does not withdraw. -/
theorem pass_spares_files_not_asked (v : ServerView) (config : SemanticConfig) (before : List PassRequest)
    (r : PassRequest) (file : String) (hplan : ∀ q ∈ (r.plan config).asking, q.file ≠ file)
    (hop : ∀ h ∈ r.handed v config, HopSpares v r.index file h.1 h.2)
    (hown : ∀ x ∈ LspBridge.recordedFor v config before file,
      (∀ f, f ≠ file → x ∉ (LspBridge.after v config before).emitted f) ∧ x ∉ replacedEdges r.index)
    {out : LspBridge × SemanticAnswer} (hout : (LspBridge.after v config before).answer v config r = some out) :
    (∀ x ∈ out.2.diff.deleteEdgeIds, x ∈ LspBridge.recordedFor v config before file → file ∈ r.scope) ∧
    ∀ x ∈ (LspBridge.after v config before).emitted file, x ∉ out.2.diff.deleteEdgeIds → x ∈ out.1.emitted file := by
  rcases answer_cases hout with ⟨_, hb, hdiff, _⟩ | ⟨_, _, rfl⟩ | ⟨_, s, hs, rfl⟩
  · rw [hdiff, hb]
    exact ⟨by simp, fun x hx _ => hx⟩
  · refine ⟨?_, ?_⟩
    · intro x hx hrec
      obtain ⟨f, hf, hxf⟩ := mem_nothingAsked_deletes.mp hx
      by_cases hfile : f = file
      · exact hfile ▸ hf
      · exact absurd hxf ((hown x hrec).1 f hfile)
    · intro x hx hnot
      have hscope : file ∉ r.scope := fun hscope => hnot (mem_nothingAsked_deletes.mpr ⟨file, hscope, hx⟩)
      simpa [answerNothingAsked, hscope] using hx
  · have hclear := ended_clear hs hplan hop
    have hcovered : file ∉ s.covered := fun hc => hclear.touched (PassState.mem_covered.mp hc).1
    refine ⟨?_, ?_⟩
    · intro x hx hrec
      obtain ⟨halone, hunnamed⟩ := hown x hrec
      rcases mem_retractStale.mp ((mem_deleteEdgeIds config).mp hx).1 with ⟨f, hf, hxf, _⟩ | hretract
      · exact absurd hxf (halone f fun hfile => hcovered (hfile ▸ hf))
      · rcases mem_settle_retract.mp hretract with hbound | hretract
        · exact absurd (boundEdges_named hbound) hunnamed
        · exact absurd (hclear.answers.retract x hretract) hunnamed
    · intro x hx _
      simp only [answerRun, if_neg hcovered]
      exact mem_append_left _ hx

def sweepConfig : SemanticConfig where
  implementationKinds := ["trait"]

def callSite : OpenSite := { fromId := "f", position := ⟨0, 5⟩, name := "m" }

/-- A trait and a method in one file; a function and a type in the other. -/
def traitProject (sites : List OpenSite) : SdkIndex where
  files := [
    { path := "a.rs",
      graph := {
        nodes := [
          { id := "T", kind := .type, name := "T", qualifiedName := "T", filePath := "a.rs", endCol := 9,
            nativeKind := some "trait" },
          { id := "m", name := "m", qualifiedName := "m", filePath := "a.rs", startLine := 3, endLine := 3, endCol := 9 }] } },
    { path := "g.rs",
      graph := {
        nodes := [
          { id := "f", name := "f", qualifiedName := "f", filePath := "g.rs", endCol := 9 },
          { id := "S", kind := .type, name := "S", qualifiedName := "S", filePath := "g.rs", startLine := 2, endLine := 2,
            endCol := 9 }],
        openSites := sites } }]
  ordered := (by decide +kernel : ["a.rs", "g.rs"].Pairwise (· < ·))

def answeredPass (files : List String) (sites : List OpenSite) (found : List ServerLocation) : PassRequest where
  files := files
  index := traitProject sites
  budgets := {}
  outcome := .asked true 0 (found.mapIdx (fun i l => { poll := .answered i { locations := [l] } }) ++ [{ poll := .noise }])

def callPass : PassRequest := answeredPass ["g.rs"] [callSite] [⟨"a.rs", 3, 0⟩]

def foundCallId : String := "edge|f|CALLS|node|g.rs|Module|a.rs#=m|pending_symbol"

/-- The server names the type in `g.rs` as the trait's implementation. -/
def sweepPass : PassRequest := answeredPass ["a.rs"] [callSite] [⟨"g.rs", 2, 0⟩]

theorem callPass_recorded (file : String) :
    recordedFor plainView sweepConfig [callPass] file = if file = "g.rs" then [foundCallId] else [] := by
  have hbyFile : (callPass.ended plainView sweepConfig).map (fun s =>
      (s.answers.settle callPass.index (finished sweepConfig callPass s)).byFile) =
        some [("g.rs", foundCallId)] := by decide +kernel
  obtain ⟨s, hs, hbyFile⟩ := map_eq_some_iff.mp hbyFile
  simp only [recordedFor, flatMap_cons, flatMap_nil, append_nil, produced, hs, elim_some, emittedFor, hbyFile]
  split
  next hfile => simp [hfile]
  next hfile => simp [Ne.symm hfile]

theorem pass_spares_sweepPass :
    foundCallId ∈ (LspBridge.after plainView sweepConfig [sweepPass, callPass]).emitted "g.rs" := by
  have hout : ((after plainView sweepConfig [callPass]).answer plainView sweepConfig sweepPass).isSome = true := by
    decide +kernel
  obtain ⟨out, hout⟩ := isSome_iff_exists.mp hout
  have hdeletes : ((after plainView sweepConfig [callPass]).answer plainView sweepConfig sweepPass).map
      (·.2.diff.deleteEdgeIds) = some [] := by decide +kernel
  have hspared := (pass_spares_files_not_asked plainView sweepConfig [callPass] sweepPass "g.rs" (by decide +kernel) ?_ ?_
    hout).2 foundCallId (by decide +kernel) ?_
  · rw [LspBridge.after, hout]
    exact hspared
  · have hhanded : (sweepPass.handed plainView sweepConfig).map (fun h => (h.1.ask, h.2.locations)) =
        [(.implementation "T", [⟨"g.rs", 2, 0⟩])] := by decide +kernel
    intro h hh anchor hask l hl _
    have hmem := mem_map_of_mem (f := fun h : Question × ServerAnswer => (h.1.ask, h.2.locations)) hh
    rw [hhanded, mem_singleton, Prod.mk.injEq] at hmem
    rw [hmem.2, mem_singleton] at hl
    rw [hmem.1, Ask.implementation.injEq] at hask
    rw [hl, ← hask]
    decide +kernel
  · intro x hx
    rw [callPass_recorded, if_pos rfl, mem_singleton] at hx
    refine ⟨?_, hx ▸ by decide +kernel⟩
    intro f hf hmem
    have hrec := emitted_subset_recordedFor hmem
    rw [callPass_recorded, if_neg hf] at hrec
    simp at hrec
  · rw [hout] at hdeletes
    simp [some.inj hdeletes]

/-- The server first names the `impl` in `g.rs` and then the type it is for. -/
def twoHopPass : PassRequest := answeredPass ["a.rs"] [callSite] [⟨"g.rs", 5, 0⟩, ⟨"g.rs", 2, 0⟩]

/-- A pass over `a.rs` alone withdraws the call found in `g.rs` and forgets it. -/
theorem pass_spares_twoHopPass :
    LspBridge.recordedFor plainView sweepConfig [callPass] "g.rs" = [foundCallId] ∧
    (twoHopPass.plan sweepConfig).asking.map Question.file = ["a.rs"] ∧ twoHopPass.scope = ["a.rs"] ∧
    ((LspBridge.after plainView sweepConfig [callPass]).answer plainView sweepConfig twoHopPass).map
      (fun out => (out.2.shortfall, out.2.diff.deleteEdgeIds, out.1.emitted "g.rs")) = some (none, [foundCallId], []) := by
  decide +kernel

namespace LspBridge

variable {v : ServerView} {config : SemanticConfig} {b : LspBridge} {r : PassRequest} {out : LspBridge × SemanticAnswer}
  {file x : String}

/-- The bridge holds for the file what the pass recorded, and what else it held is withdrawn or sent again. -/
structure Refreshed (v : ServerView) (config : SemanticConfig) (b : LspBridge) (r : PassRequest)
    (out : LspBridge × SemanticAnswer) (file : String) : Prop where
  withdrawn : ∀ x ∈ b.emitted file, x ∉ r.produced v config file →
    x ∈ out.2.diff.deleteEdgeIds ∨ x ∈ out.2.diff.upsertEdges.map (·.id)
  remembered : out.1.emitted file = r.produced v config file

theorem refreshed_of_covered {s : PassState} (hs : r.ended v config = some s) (hfile : file ∈ s.covered) :
    Refreshed v config b r (b.answerRun config r s) file := by
  have hproduced : r.produced v config file = (s.answers.settle r.index (finished config r s)).emittedFor file := by
    simp [produced, hs]
  refine ⟨?_, ?_⟩
  · intro x hx hnot
    rw [hproduced] at hnot
    by_cases hsent : x ∈ (b.answerRun config r s).2.diff.upsertEdges.map (·.id)
    · exact .inr hsent
    · refine .inl ((mem_deleteEdgeIds config).mpr ⟨mem_retractStale.mpr (.inl ⟨file, hfile, hx, hnot⟩), ?_⟩)
      have hneither := mt (mem_upsertEdges_ids config).mpr hsent
      exact not_or.mp hneither
  · rw [hproduced]
    simp only [answerRun, if_pos hfile]

theorem askedAbout_iff : file ∈ r.askedAbout config ↔ ∃ q ∈ (r.plan config).asking, q.file = file := by
  simp [askedAbout, mem_insertionSort]

variable (hout : b.answer v config r = some out)

include hout

theorem refreshed_of_unheld (hb : b.emitted file = []) : Refreshed v config b r out file := by
  rcases answer_cases hout with ⟨hs, hsame, _⟩ | ⟨hs, _, rfl⟩ | ⟨_, s, hs, rfl⟩
  · exact ⟨by simp [hb], by simp [produced, hs, hsame, hb]⟩
  · exact ⟨by simp [hb], by simp [produced, hs, answerNothingAsked, hb]⟩
  · by_cases hfile : file ∈ s.covered
    · exact refreshed_of_covered hs hfile
    · refine ⟨by simp [hb], ?_⟩
      simp [produced, hs, answerRun, hfile, hb]

theorem refreshed_of_asked (hasked : ∃ q ∈ (r.plan config).asking, q.file = file) (hdone : file ∉ out.2.unfinished) :
    Refreshed v config b r out file := by
  have habout := askedAbout_iff.mpr hasked
  have hsome : (r.plan config).asking ≠ [] := by
    obtain ⟨q, hq, _⟩ := hasked
    exact ne_nil_of_mem hq
  rcases answer_cases hout with ⟨_, _, _, hnone | hnone | hnone⟩ | ⟨_, hnone, _⟩ | ⟨_, s, hs, rfl⟩
  · simp [plan, hnone, questions, planFiles] at hsome
  · exact absurd hnone.1 hsome
  · exact absurd (hnone.2 ▸ habout) hdone
  · exact absurd hnone hsome
  · have hfinished : file ∈ finished config r s := by
      by_contra hnot
      exact hdone (mem_append_left _ (mem_filter.mpr ⟨habout, decide_eq_true hnot⟩))
    exact refreshed_of_covered hs (finished_subset hfinished)

theorem refreshed_of_nothing_asked (hnone : (r.plan config).asking = []) (hscope : file ∈ r.scope)
    (hdone : file ∉ out.2.unfinished) : Refreshed v config b r out file := by
  rcases answer_cases hout with ⟨_, _, _, hempty | hcut | hasked⟩ | ⟨hs, _, rfl⟩ | ⟨hsome, _⟩
  · simp [hempty] at hscope
  · exact absurd (hcut.2 ▸ hscope) hdone
  · exact absurd hnone hasked.1
  · refine ⟨fun x hx _ => .inl (mem_nothingAsked_deletes.mpr ⟨file, hscope, hx⟩), ?_⟩
    simp [produced, hs, answerNothingAsked, hscope]
  · exact absurd hnone hsome

theorem unheld_of_refreshed (hplan : ∀ q ∈ (r.plan config).asking, q.file ≠ file)
    (hsome : (r.plan config).asking ≠ []) (hop : ∀ h ∈ r.handed v config, HopSpares v r.index file h.1 h.2)
    (h : Refreshed v config b r out file) : b.emitted file = [] := by
  have hremembered := h.remembered
  rcases answer_cases hout with ⟨hs, hsame, _⟩ | ⟨_, hnone, _⟩ | ⟨_, s, hs, rfl⟩
  · simpa [produced, hs, hsame] using hremembered
  · exact absurd hnone hsome
  · have hclear := ended_clear hs hplan hop
    have hcovered : file ∉ s.covered := fun hc => hclear.touched (PassState.mem_covered.mp hc).1
    have hnothing : (s.answers.settle r.index (finished config r s)).emittedFor file = [] := by
      refine eq_nil_iff_forall_not_mem.mpr fun x hx => ?_
      exact hclear.answers.byFile _ (mem_settle_emittedFor hx) rfl
    simpa [produced, hs, answerRun, hcovered, hnothing] using hremembered

end LspBridge

/-- A finished file of a pass's scope keeps no stale answer when it has a question of its own, nothing is asked, or
nothing was held for it. One that no second hop reaches keeps one otherwise. -/
theorem pass_refreshes_files (v : ServerView) (config : SemanticConfig) (before : List PassRequest) (r : PassRequest)
    (file : String) {out : LspBridge × SemanticAnswer}
    (hout : (LspBridge.after v config before).answer v config r = some out) (hscope : file ∈ r.scope)
    (hdone : file ∉ out.2.unfinished) :
    (((LspBridge.after v config before).emitted file = [] ∨ (∃ q ∈ (r.plan config).asking, q.file = file) ∨
        (r.plan config).asking = []) →
      LspBridge.Refreshed v config (LspBridge.after v config before) r out file) ∧
    ((∀ h ∈ r.handed v config, HopSpares v r.index file h.1 h.2) →
      LspBridge.Refreshed v config (LspBridge.after v config before) r out file →
      (LspBridge.after v config before).emitted file = [] ∨ (∃ q ∈ (r.plan config).asking, q.file = file) ∨
        (r.plan config).asking = []) := by
  refine ⟨?_, ?_⟩
  · rintro (hheld | hasked | hnone)
    · exact refreshed_of_unheld hout hheld
    · exact refreshed_of_asked hout hasked hdone
    · exact refreshed_of_nothing_asked hout hnone hscope hdone
  · intro hop hfresh
    by_cases hasked : ∃ q ∈ (r.plan config).asking, q.file = file
    · exact .inr (.inl hasked)
    by_cases hnone : (r.plan config).asking = []
    · exact .inr (.inr hnone)
    have hplan : ∀ q ∈ (r.plan config).asking, q.file ≠ file := fun q hq hqf => hasked ⟨q, hq, hqf⟩
    exact .inl (unheld_of_refreshed hout hplan hnone hop hfresh)

def goneCallPass : PassRequest := answeredPass ["g.rs"] [] []

theorem pass_refreshes_goneCallPass :
    ((LspBridge.after plainView sweepConfig [callPass]).answer plainView sweepConfig goneCallPass).any (fun out =>
      decide (out.2.diff.deleteEdgeIds = [foundCallId] ∧ out.1.emitted "g.rs" = [])) = true := by
  have hsome : ((after plainView sweepConfig [callPass]).answer plainView sweepConfig goneCallPass).isSome := by
    decide +kernel
  have hanswer : ((after plainView sweepConfig [callPass]).answer plainView sweepConfig goneCallPass).map
      (fun out => (out.2.unfinished, out.2.diff.deleteEdgeIds)) = some ([], [foundCallId]) := by decide +kernel
  obtain ⟨out, hout⟩ := isSome_iff_exists.mp hsome
  rw [hout, map_some, some.injEq, Prod.mk.injEq] at hanswer
  have hfresh := (pass_refreshes_files plainView sweepConfig [callPass] goneCallPass "g.rs" hout (by decide +kernel)
    (by simp [hanswer.1])).1 (.inr (.inr (by decide +kernel)))
  have hnothing : goneCallPass.produced plainView sweepConfig "g.rs" = [] := by decide +kernel
  rw [hout, any_some, decide_eq_true_iff]
  exact ⟨hanswer.2, hfresh.remembered.trans hnothing⟩

/-- The call in `g.rs` is gone while `a.rs` still asks for its trait's implementations. -/
def mixedPass : PassRequest := answeredPass ["a.rs", "g.rs"] [] [⟨"g.rs", 2, 0⟩]

/-- The call that is gone is neither withdrawn nor forgotten. -/
theorem pass_refreshes_mixedPass :
    mixedPass.scope = ["a.rs", "g.rs"] ∧
    ((LspBridge.after plainView sweepConfig [callPass]).answer plainView sweepConfig mixedPass).map
      (fun out => (out.2.shortfall, out.2.unfinished, out.2.diff.deleteEdgeIds, out.1.emitted "g.rs")) =
        some (none, [], [], [foundCallId]) ∧
    mixedPass.produced plainView sweepConfig "g.rs" = [] := by
  decide +kernel

end GMesh
