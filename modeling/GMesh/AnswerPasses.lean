import GMesh.AnswerRuns
import GMesh.BridgeHistory

namespace GMesh

open List

structure SameResult (x y : LspBridge × SemanticAnswer) : Prop where
  diff : Answers.SameDiff x.2.diff y.2.diff
  shortfall : x.2.shortfall = y.2.shortfall
  unfinished : x.2.unfinished = y.2.unfinished
  emitted : ∀ file, (x.1.emitted file).Perm (y.1.emitted file)
  trimmed : x.1.trimmed = y.1.trimmed

def processedPass (final : Answers) (order : List Question) : PassState where
  answers := final
  queue := []
  touchedFiles := order.map Question.accountedTo
  running := false

section Results

variable {v : ServerView} {config : SemanticConfig} {s s' : PassState}

theorem covered_congr (hnone : s.failedFiles = []) (hnone' : s'.failedFiles = [])
    (h : ∀ file, file ∈ s.touchedFiles ↔ file ∈ s'.touchedFiles) : s.covered = s'.covered := by
  have hdedup : ((s.touchedFiles.filter fun file => decide (file ∉ s.failedFiles)).dedup).Perm
      ((s'.touchedFiles.filter fun file => decide (file ∉ s'.failedFiles)).dedup) := by
    refine (perm_ext_iff_of_nodup (nodup_dedup _) (nodup_dedup _)).mpr fun file => ?_
    simp [hnone, hnone', h]
  refine List.Perm.eq_of_pairwise' (pairwise_insertionSort _ _) (pairwise_insertionSort _ _) ?_
  exact ((perm_insertionSort _ _).trans hdedup).trans (perm_insertionSort _ _).symm

theorem Answers.SameBooks.answerRun (h : Answers.SameBooks s.answers s'.answers) (hcovered : s.covered = s'.covered)
    (hfailure : s.failure = s'.failure) (b : LspBridge) (r : PassRequest) :
    SameResult (b.answerRun config r s) (b.answerRun config r s') := by
  have hfinished : LspBridge.finished config r s = LspBridge.finished config r s' := by
    simp only [LspBridge.finished, hcovered]
  have hsettled : SameBooks (s.answers.settle r.index (LspBridge.finished config r s'))
      (s'.answers.settle r.index (LspBridge.finished config r s')) := h.settle
  have hstale := @SameBooks.retractStale _ _ hsettled b.emitted _ _ s'.covered hsettled.emittedFor
  have hfinish := @SameBooks.finish _ _ hstale config
  have htrim := @SameBooks.trimUntypedCalls _ _ hstale r.index (LspBridge.finished config r s') b.trimmed
  unfold LspBridge.answerRun
  simp only [hfinished, hcovered, hfailure, htrim]
  refine ⟨⟨hfinish.nodes.append_right _, hfinish.edges, hfinish.deletes⟩, rfl, rfl, ?_, rfl⟩
  intro file
  dsimp only
  split
  · exact hsettled.emittedFor file
  · exact ((hsettled.emittedFor file).filter _).append_left _

end Results

section Plan

variable {config : SemanticConfig} {r : PassRequest} {q : Question}

theorem PassRequest.plan_asks (hq : q ∈ (r.plan config).asking) (i : Nat) : q.waitsFor i = false := by
  rcases mem_planFiles hq with hnone | ⟨entry, _, _, hq⟩
  · simp at hnone
  · rcases mem_append.mp hq with hq | hq
    · obtain ⟨site, _, hmap⟩ := mem_filterMap.mp (List.mem_filter.mp hq).1
      obtain ⟨ask, hask, rfl⟩ := Option.map_eq_some_iff.mp hmap
      rcases siteAsk_site hask with rfl | rfl <;> rfl
    · obtain ⟨node, _, rfl⟩ := mem_map.mp hq
      rfl

end Plan

/-- A steady server's answers may be processed in any order where what they record agrees. -/
theorem answer_order_immaterial (v : ServerView) (config : SemanticConfig) (server : SteadyServer) (b : LspBridge)
    (r : PassRequest) (hunique : r.index.UniqueIds)
    (hagree : Answers.Agree v ((r.plan config).asking.flatMap (server.inTheEnd v config r.index)))
    {final final' : Answers} {order order' : List Question}
    (h : Processes v config r.index server (r.plan config).asking {} final order)
    (h' : Processes v config r.index server (r.plan config).asking {} final' order') :
    SameResult (b.answerRun config r (processedPass final order)) (b.answerRun config r (processedPass final' order')) := by
  have hstart : Answers.Awaits v r.index server (r.plan config).asking {} :=
    Answers.Awaits.start fun q hq => PassRequest.plan_asks hq
  obtain ⟨ops, hops, hfinal⟩ := h.ops hunique hstart
  obtain ⟨ops', hops', hfinal'⟩ := h'.ops hunique hstart
  rw [show ({} : Answers).pendingOps v r.index server = [] from rfl, append_nil] at hops hops'
  have hbooks : Answers.SameBooks final.ledger final'.ledger := by
    rw [hfinal, hfinal']
    exact Answers.sameBooks_of_perm (hagree.perm hops) (hops.symm.trans hops')
  have hsame : Answers.SameBooks final final' := { hbooks with }
  have hcovered : (processedPass final order).covered = (processedPass final' order').covered :=
    covered_congr rfl rfl fun file => h.files.trans h'.files.symm
  exact Answers.SameBooks.answerRun hsame hcovered rfl b r

theorem Processes.pair {v : ServerView} {config : SemanticConfig} {index : SdkIndex} {server : SteadyServer}
    {a : Answers} {q q' : Question} (hq : (recordAnswer v config index a q (server q.request)).2 = [])
    (hq' : (recordAnswer v config index (recordAnswer v config index a q (server q.request)).1 q'
      (server q'.request)).2 = []) :
    Processes v config index server [q, q'] a (recordAnswer v config index
      (recordAnswer v config index a q (server q.request)).1 q' (server q'.request)).1 [q, q'] := by
  refine .next (.refl _) ?_
  rw [hq]
  refine .next (.refl _) ?_
  rw [hq']
  exact .done _

/-- A file with two inline modules that each call a method of the other file. -/
def inlineModules (one two : String) : SdkIndex where
  files := [
    { path := "lib.rs",
      graph := {
        openSites := [
          { fromId := "f", position := ⟨1, 13⟩, name := "m", fromContainer := some one },
          { fromId := "g", position := ⟨4, 13⟩, name := "m", fromContainer := some two }] } },
    { path := "model.rs",
      graph := {
        nodes := [{ id := "m", kind := .function, name := "m", qualifiedName := "m", filePath := "model.rs", endCol := 9 }] } }]
  ordered := (by decide +kernel : ["lib.rs", "model.rs"].Pairwise (· < ·))

def inlineModulesPass (one two : String) : PassRequest where
  files := ["lib.rs"]
  index := inlineModules one two
  budgets := {}
  outcome := .notReady ""

def methodServer : SteadyServer := fun _ => { locations := [⟨"model.rs", 0, 0⟩] }

def inlineCall (line : Nat) (caller container : String) : Question where
  file := "lib.rs"
  position := ⟨line, 13⟩
  ask := .definition { fromId := caller, position := ⟨line, 13⟩, name := "m", fromContainer := some container }

/-- Both calls are in one module: either order gives the same result. -/
theorem answer_order_oneModule : ∃ final final',
    Processes plainView {} (inlineModules "crate" "crate") methodServer
      ((inlineModulesPass "crate" "crate").plan {}).asking {} final [inlineCall 1 "f" "crate", inlineCall 4 "g" "crate"] ∧
    Processes plainView {} (inlineModules "crate" "crate") methodServer
      ((inlineModulesPass "crate" "crate").plan {}).asking {} final' [inlineCall 4 "g" "crate", inlineCall 1 "f" "crate"] ∧
    SameResult
      (({} : LspBridge).answerRun {} (inlineModulesPass "crate" "crate")
        (processedPass final [inlineCall 1 "f" "crate", inlineCall 4 "g" "crate"]))
      (({} : LspBridge).answerRun {} (inlineModulesPass "crate" "crate")
        (processedPass final' [inlineCall 4 "g" "crate", inlineCall 1 "f" "crate"])) := by
  have h := @Processes.pair plainView {} (inlineModules "crate" "crate") methodServer {} (inlineCall 1 "f" "crate")
    (inlineCall 4 "g" "crate") (by decide +kernel) (by decide +kernel)
  have h' := (@Processes.pair plainView {} (inlineModules "crate" "crate") methodServer {} (inlineCall 4 "g" "crate")
    (inlineCall 1 "f" "crate") (by decide +kernel) (by decide +kernel)).perm (List.Perm.swap _ _ _)
  refine ⟨_, _, h, h', ?_⟩
  exact answer_order_immaterial plainView {} methodServer {} (inlineModulesPass "crate" "crate") (by decide +kernel)
    (by decide +kernel) h h'

/-- The calls are in two modules: their shared placeholder keeps the module of the first one answered. -/
theorem answer_order_twoModules : ∃ final final',
    Processes plainView {} (inlineModules "crate::a" "crate::b") methodServer
      ((inlineModulesPass "crate::a" "crate::b").plan {}).asking {} final
      [inlineCall 1 "f" "crate::a", inlineCall 4 "g" "crate::b"] ∧
    Processes plainView {} (inlineModules "crate::a" "crate::b") methodServer
      ((inlineModulesPass "crate::a" "crate::b").plan {}).asking {} final'
      [inlineCall 4 "g" "crate::b", inlineCall 1 "f" "crate::a"] ∧
    (({} : LspBridge).answerRun {} (inlineModulesPass "crate::a" "crate::b") (processedPass final
      [inlineCall 1 "f" "crate::a", inlineCall 4 "g" "crate::b"])).2.diff.upsertNodes.map
        (fun n => n.target.bind (·.fromContainer)) = [some "crate::a"] ∧
    (({} : LspBridge).answerRun {} (inlineModulesPass "crate::a" "crate::b") (processedPass final'
      [inlineCall 4 "g" "crate::b", inlineCall 1 "f" "crate::a"])).2.diff.upsertNodes.map
        (fun n => n.target.bind (·.fromContainer)) = [some "crate::b"] := by
  have h := @Processes.pair plainView {} (inlineModules "crate::a" "crate::b") methodServer {} (inlineCall 1 "f" "crate::a")
    (inlineCall 4 "g" "crate::b") (by decide +kernel) (by decide +kernel)
  have h' := (@Processes.pair plainView {} (inlineModules "crate::a" "crate::b") methodServer {} (inlineCall 4 "g" "crate::b")
    (inlineCall 1 "f" "crate::a") (by decide +kernel) (by decide +kernel)).perm (List.Perm.swap _ _ _)
  exact ⟨_, _, h, h', by decide +kernel, by decide +kernel⟩

end GMesh
