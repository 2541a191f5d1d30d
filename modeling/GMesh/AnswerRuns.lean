import GMesh.AnswerOrder
import GMesh.LspBridge
import GMesh.HoverBooks

namespace GMesh

open List

namespace Answers

structure SameDiff (d e : IndexDiff) : Prop where
  nodes : d.upsertNodes.Perm e.upsertNodes
  edges : d.upsertEdges.Perm e.upsertEdges
  deletes : d.deleteEdgeIds.Perm e.deleteEdgeIds

namespace SameBooks

variable {a b : Answers} (h : SameBooks a b) {index : SdkIndex} {finished : List String} {config : SemanticConfig}

include h

theorem boundEdges : a.boundEdges index finished = b.boundEdges index finished := by
  simp only [Answers.boundEdges, KeyedTable.contains, h.overloadBound]

theorem restored (bound : List String) : a.restored index finished bound = b.restored index finished bound := by
  simp only [Answers.restored, h.contradicted.mem_iff, h.upheld.mem_iff]

theorem drop {dropped dropped' : List String} (hd : ∀ x, x ∈ dropped ↔ x ∈ dropped') :
    SameBooks (a.drop dropped) (b.drop dropped') := by
  refine { h with recorded := ?_, byFile := ?_ }
  · simp only [Answers.drop, hd]
    exact h.recorded.filter _
  · simp only [Answers.drop, hd]
    exact h.byFile.filter _

theorem settleOverloads : SameBooks (a.settleOverloads index finished) (b.settleOverloads index finished) := by
  have hrows := KeyedTable.rows_perm h.overloadBound
  unfold Answers.settleOverloads
  simp only [h.boundEdges]
  have hkeep : ∀ id, id ∈ (a.overloadBound.rows.filter fun s => decide (s.replaced ∈ b.boundEdges index finished)).map
      BoundSite.id ↔ id ∈ (b.overloadBound.rows.filter fun s => decide (s.replaced ∈ b.boundEdges index finished)).map
      BoundSite.id := fun id => ((hrows.filter _).map _).mem_iff
  simp only [hkeep]
  have hdrop := h.drop (fun x => ((hrows.filter fun s => decide (s.replaced ∉ b.boundEdges index finished ∧
    s.id ∉ (b.overloadBound.rows.filter fun s => decide (s.replaced ∈ b.boundEdges index finished)).map
      BoundSite.id)).map BoundSite.id).mem_iff (a := x))
  exact { hdrop with retract := h.retract.append_left _ }

theorem covers (resent : List EdgeRow) : a.covers resent = b.covers resent := by
  funext e
  unfold Answers.covers
  have hany : ∀ r : EdgeRow, (a.confirmed.any fun c => c.replaced == r.id && c.fromId == e.fromId &&
      c.declaration == e.declaration && decide (c.kind = e.kind)) = (b.confirmed.any fun c => c.replaced == r.id &&
      c.fromId == e.fromId && c.declaration == e.declaration && decide (c.kind = e.kind)) :=
    fun r => h.confirmed.any_eq
  simp only [hany]

theorem settle : SameBooks (a.settle index finished) (b.settle index finished) := by
  have hover : SameBooks (a.settleOverloads index finished) (b.settleOverloads index finished) := h.settleOverloads
  unfold Answers.settle
  simp only [h.boundEdges, h.restored, hover.covers]
  have hdrop := hover.drop (fun x => ((hover.recorded.filter ((b.settleOverloads index finished).covers
    (b.restored index finished (b.boundEdges index finished)))).map RecordedEdge.id).mem_iff (a := x))
  exact { hdrop with resend := rfl }

theorem emittedFor (file : String) : (a.emittedFor file).Perm (b.emittedFor file) :=
  (h.byFile.filter _).map _

theorem retractStale {remembered now now' : String → List String} {covered : List String}
    (hnow : ∀ file, (now file).Perm (now' file)) :
    SameBooks (a.retractStale remembered covered now) (b.retractStale remembered covered now') := by
  refine { h with retract := ?_ }
  simp only [Answers.retractStale, (hnow _).mem_iff]
  exact h.retract.append_left _

theorem finish : SameDiff (a.finish config) (b.finish config) := by
  constructor
  · have hused : ∀ p : HeldPlaceholder, (a.recorded.any fun e => e.toId == p.id) = b.recorded.any fun e => e.toId == p.id :=
      fun p => h.recorded.any_eq
    simp only [Answers.finish, hused]
    have hrows := (KeyedTable.rows_perm h.placeholders).filter fun p => b.recorded.any fun e => e.toId == p.id
    exact (((perm_insertionSort _ _).trans hrows).trans (perm_insertionSort _ _).symm).map _
  · simp only [Answers.finish, h.resend]
    have hrows := ((perm_insertionSort (fun e f : RecordedEdge => e.inFile ≤ f.inFile) a.recorded).trans
      h.recorded).trans (perm_insertionSort (fun e f : RecordedEdge => e.inFile ≤ f.inFile) b.recorded).symm
    exact (hrows.map _).append_right _
  · simp only [Answers.finish, h.resend, (h.recorded.map RecordedEdge.id).mem_iff]
    have hkept := (h.retract.filter fun id => decide (id ∉ b.recorded.map RecordedEdge.id ∧ id ∉ b.resend.map (·.id))).dedup
    exact ((perm_insertionSort _ _).trans hkept).trans (perm_insertionSort _ _).symm

theorem trimUntypedCalls (files : List String) (trimmed : String → List String) :
    trimUntypedCalls index files a.untypedAnswered trimmed = trimUntypedCalls index files b.untypedAnswered trimmed := by
  have hkept : ∀ graph node, keptUntypedCalls graph a.untypedAnswered node = keptUntypedCalls graph b.untypedAnswered node := by
    intro graph node
    simp only [keptUntypedCalls, h.untypedAnswered.count_eq]
  have htrimmed : ∀ graph, isTrimmed graph a.untypedAnswered = isTrimmed graph b.untypedAnswered := by
    intro graph
    funext node
    simp only [isTrimmed, hkept]
  simp only [GMesh.trimUntypedCalls, hkept, htrimmed]

end SameBooks

end Answers

open SteadyServer Question

/-- Answers processed in an order: any open question is next, and what it asks is open from then on. -/
inductive Processes (v : ServerView) (config : SemanticConfig) (index : SdkIndex) (server : SteadyServer) :
    List Question → Answers → Answers → List Question → Prop
  | done (a : Answers) : Processes v config index server [] a a []
  | next {asked rest : List Question} {a final : Answers} {q : Question} {order : List Question}
      (hq : asked.Perm (q :: rest))
      (hrest : Processes v config index server ((recordAnswer v config index a q (server q.request)).2 ++ rest)
        (recordAnswer v config index a q (server q.request)).1 final order) :
      Processes v config index server asked a final (q :: order)

variable {config : SemanticConfig} {server : SteadyServer} {order asked : List Question}
  {nodeFile anchor forFile : String} {final : Answers} {l : OverloadLanding} {site : OpenSite}

theorem Processes.perm {v : ServerView} {index : SdkIndex} {asked' : List Question} {a : Answers}
    (h : Processes v config index server asked a final order) (hperm : asked'.Perm asked) :
    Processes v config index server asked' a final order := by
  cases h with
  | done =>
    rw [perm_nil.mp hperm]
    exact .done _
  | next hq hrest => exact .next (hperm.trans hq) hrest

namespace Answers

variable {v : ServerView} {config : SemanticConfig} {index : SdkIndex} {server : SteadyServer} {a b : Answers}
  {q : Question} {rest : List Question}

def pendingOps (v : ServerView) (index : SdkIndex) (server : SteadyServer) (a : Answers) : List AnswerOp :=
  a.pending.flatMap (server.pendingInTheEnd v index)

/-- What an answer does at once, and its questions and the pending calls then, is all that was to be done. -/
def Accounts (v : ServerView) (config : SemanticConfig) (index : SdkIndex) (server : SteadyServer) (a : Answers)
    (q : Question) (result : Answers × List Question) : Prop :=
  (server.inTheEnd v config index q ++ a.pendingOps v index server).Perm
    (answerOps v config index a q (server q.request) ++
      (result.2.flatMap (server.inTheEnd v config index) ++ result.1.pendingOps v index server))

variable {node : DeclaredRecord}

theorem inTheEnd_askedHovers {candidates : List Int} :
    (a.askedHovers v index l node nodeFile candidates).flatMap (server.inTheEnd v config index) = [] := by
  refine flatMap_eq_nil_iff.mpr fun q hq => ?_
  rcases mem_cons.mp hq with rfl | hq
  · rfl
  · obtain ⟨⟨o, m⟩, hm, hsome⟩ := mem_filterMap.mp hq
    obtain ⟨_, rfl⟩ := mem_candidateHovers.mp hm
    obtain ⟨position, _, rfl⟩ := Option.map_eq_some_iff.mp hsome
    rfl

/-- An overload answer is booked at once, or its hovers are open and the call pending. -/
theorem bindOverload_step (l : OverloadLanding) (config : SemanticConfig) (ordinals : List Int)
    (h : Awaits v index server (q :: rest) a) (hq : ∀ i, q.waitsFor i = false)
    (hholder : index.holder node.id = some (nodeFile, node)) (hl : l.nodeId = node.id) :
    Awaits v index server ((a.bindOverload v config index l node nodeFile ordinals).2 ++ rest)
      (a.bindOverload v config index l node nodeFile ordinals).1 ∧
    (server.boundInTheEnd v config index l node ordinals ++ a.pendingOps v index server).Perm
      (bindOps config l node ordinals ++
        ((a.bindOverload v config index l node nodeFile ordinals).2.flatMap (server.inTheEnd v config index) ++
          (a.bindOverload v config index l node nodeFile ordinals).1.pendingOps v index server)) := by
  have hconclude : ∀ ordinal, (a.conclude v l ordinal).pending = a.pending ∧ (a.conclude v l ordinal).hovers = a.hovers :=
    fun ordinal => conclude_eq (v := v) (a := a) l ordinal ▸ applyOps_pending _
  cases hchoice : chooseOverload node ordinals config.overloadDisambiguation with
  | bound | unbound =>
    simp only [bindOverload, bindOps, boundInTheEnd, hchoice, pendingOps, (hconclude _).1]
    exact ⟨h.plain hq (by simp) (hconclude _).1 (hconclude _).2, .refl _⟩
  | hover candidates =>
    refine ⟨h.bind hq hholder hl hchoice, ?_⟩
    rw [bindOverload_hover hchoice, inTheEnd_askedHovers]
    simp only [bindOps, boundInTheEnd, hchoice, pendingOps, nil_append, flatMap_append, flatMap_singleton]
    exact perm_append_comm

theorem flatMap_set_perm {α β : Type} {f : α → List β} {l : List α} {i : Nat} {x : α} (h : l[i]? = some x) (y : α) :
    (f y ++ l.flatMap f).Perm (f x ++ (l.set i y).flatMap f) := by
  induction l generalizing i with
  | nil => simp at h
  | cons z rest ih =>
    cases i with
    | zero =>
      cases h
      rw [set_cons_zero, flatMap_cons, flatMap_cons, ← append_assoc, ← append_assoc]
      exact perm_append_comm.append_right _
    | succ i =>
      have hrest := ih (i := i) (by simpa using h)
      calc (f y ++ (f z ++ rest.flatMap f)).Perm (f z ++ (f y ++ rest.flatMap f)) := perm_append_comm_assoc _ _ _
        _ |>.Perm (f z ++ (f x ++ (rest.set i y).flatMap f)) := hrest.append_left _
        _ |>.Perm (f x ++ (f z ++ (rest.set i y).flatMap f)) := perm_append_comm_assoc _ _ _

/-- A hover answer is booked, and settles its call when it is the last one the call waits for. -/
theorem hovered_step {i : Nat} {hover : Hovered} {f : String} (h : Awaits v index server (q :: rest) a)
    (hask : q.ask = .overloadHover i hover f) :
    Awaits v index server rest (a.hovered v i hover (server q.request).hover) ∧
    (a.pendingOps v index server).Perm (a.hoverOps v i hover (server q.request).hover ++
      (a.hovered v i hover (server q.request).hover).pendingOps v index server) := by
  obtain ⟨p, hp, htext⟩ := h.hover q mem_cons_self i hover f hask
  rw [hovered_eq hp, hoverOps_eq hp]
  generalize (server q.request).hover.getD [] = text at htext ⊢
  by_cases hmore : 0 < p.waiting - 1
  · rw [if_pos hmore, if_pos hmore]
    refine ⟨h.hear htext hask hp (.inl ⟨rfl, hmore⟩) ⟨rfl, rfl⟩, ?_⟩
    have hset := flatMap_set_perm (f := server.pendingInTheEnd v index) hp (some (heardCall p hover text))
    exact (perm_append_left_iff _).mp hset
  · rw [if_neg hmore, if_neg hmore, h.matching htext hask hp hmore]
    have hkeeps := applyOps_pending (v := v)
      (a := { a with hovers := a.heardHovers hover text, pending := a.pending.set i none })
      (concludeOps p.landing (server.singledOut v index p.landing p.candidates))
    refine ⟨h.hear htext hask hp (.inr ⟨rfl, hmore⟩) ⟨hkeeps.2, hkeeps.1⟩, ?_⟩
    have hset := flatMap_set_perm (f := server.pendingInTheEnd v index) hp none
    simp only [pendingOps, hkeeps.1]
    exact hset

theorem waitsFor_of_ask (h : ∀ i hover f, q.ask ≠ .overloadHover i hover f) (i : Nat) : q.waitsFor i = false := by
  refine Bool.eq_false_iff.mpr fun hwaits => ?_
  obtain ⟨hover, f, hask⟩ := waitsFor_iff.mp hwaits
  exact h i hover f hask

theorem hopTo_ask {l : ServerLocation} (h : hopTo v index anchor forFile l = some q) :
    q.ask = .implementor anchor forFile := by
  unfold hopTo at h
  split at h
  · cases h
  · obtain ⟨path, _, rfl⟩ := Option.map_eq_some_iff.mp h
    rfl

/-- One answer keeps the hovers' books and does its share of what is to be done. -/
def Steps (v : ServerView) (config : SemanticConfig) (index : SdkIndex) (server : SteadyServer) (rest : List Question)
    (a : Answers) (q : Question) (result : Answers × List Question) : Prop :=
  Awaits v index server (result.2 ++ rest) result.1 ∧ Accounts v config index server a q result

theorem Steps.plain {result : Answers × List Question} (ops : List AnswerOp) (h : Awaits v index server (q :: rest) a)
    (hq : ∀ i, q.waitsFor i = false) (hagain : ∀ p ∈ result.2, ∀ i, p.waitsFor i = false)
    (hresult : result.1 = a.applyOps v ops)
    (hops : server.inTheEnd v config index q =
      answerOps v config index a q (server q.request) ++ result.2.flatMap (server.inTheEnd v config index)) :
    Steps v config index server rest a q result := by
  obtain ⟨hpending, hhovers⟩ := applyOps_pending (v := v) (a := a) ops
  rw [← hresult] at hpending hhovers
  refine ⟨h.plain hq hagain hpending hhovers, ?_⟩
  unfold Accounts pendingOps
  rw [hops, hpending, append_assoc]

section

variable (h : Awaits v index server (q :: rest) a)

include h

theorem recordAnswer_definition_steps (hunique : index.UniqueIds) (hask : q.ask = .definition site) :
    Steps v config index server rest a q (recordAnswer v config index a q (server q.request)) := by
  have hq := waitsFor_of_ask (q := q) (by simp [hask])
  have hrecord := @recordAnswer_definition v config index q site hask a (server q.request)
  cases hl : v.overloadedCall index site (server q.request).locations with
  | none =>
    rw [hl] at hrecord
    refine .plain (definitionOps v index q.file site (server q.request).locations) h hq ?_ ?_ ?_
    · simp [hrecord]
    · rw [hrecord, recordDefinition_eq]
    · rw [hrecord, flatMap_nil, append_nil]
      simp only [inTheEnd, answerOps, hask, hl]
  | some landed =>
    obtain ⟨l, ordinals⟩ := landed
    have hholder := hunique.holder (ServerView.has_of_overloadLanding (Option.filter_eq_some_iff.mp hl).1)
    have hb : Awaits v index server (q :: rest)
        { a with untypedAnswered := (site.fromId, site.name) :: a.untypedAnswered } := h.congr rfl rfl
    obtain ⟨hawaits, hperm⟩ := bindOverload_step (overloadLandingOf index q.file site l.node) config ordinals hb hq
      hholder rfl
    rw [hl] at hrecord
    unfold Steps Accounts
    rw [hrecord]
    simp only [inTheEnd, answerOps, hask, hl]
    exact ⟨hawaits, hperm.cons _⟩

theorem recordAnswer_implementation_steps (hask : q.ask = .implementation anchor) :
    Steps v config index server rest a q (recordAnswer v config index a q (server q.request)) := by
  rw [recordAnswer_implementation hask, recordImplementors_eq]
  have hhops : ∀ hop ∈ (server q.request).locations.filterMap (hopTo v index anchor q.file),
      hop.ask = .implementor anchor q.file := by
    intro hop hhop
    obtain ⟨l, _, hl⟩ := mem_filterMap.mp hhop
    exact hopTo_ask hl
  refine .plain _ h (waitsFor_of_ask (by simp [hask])) (fun hop hhop => waitsFor_of_ask (by simp [hhops hop hhop])) rfl ?_
  have hends : ∀ hop ∈ (server q.request).locations.filterMap (hopTo v index anchor q.file),
      server.inTheEnd v config index hop = implementors v index anchor q.file (server hop.request).locations := by
    intro hop hhop
    unfold inTheEnd
    rw [hhops hop hhop]
  rw [flatMap_congr hends]
  simp only [inTheEnd, answerOps, hask]
  rfl

theorem recordAnswer_implementor_steps (hask : q.ask = .implementor anchor forFile) :
    Steps v config index server rest a q (recordAnswer v config index a q (server q.request)) := by
  rw [recordAnswer_implementor hask]
  refine .plain _ h (waitsFor_of_ask (by simp [hask])) (by simp) rfl ?_
  simp only [inTheEnd, answerOps, hask, flatMap_nil, append_nil]
  rfl

theorem recordAnswer_overload_steps (hunique : index.UniqueIds) (hask : q.ask = .overload site) :
    Steps v config index server rest a q (recordAnswer v config index a q (server q.request)) := by
  have hq := waitsFor_of_ask (q := q) (by simp [hask])
  have hrecord := @recordAnswer_overload v config index q site hask a (server q.request)
  cases hl : v.refinedCall index q.file site (server q.request).locations with
  | none =>
    rw [hl] at hrecord
    refine .plain [] h hq ?_ ?_ ?_
    · simp [hrecord]
    · rw [hrecord, applyOps_nil]
    · rw [hrecord, flatMap_nil, append_nil]
      simp only [inTheEnd, answerOps, hask, hl]
  | some landed =>
    obtain ⟨l, ordinals⟩ := landed
    have hholder := hunique.holder (ServerView.has_of_overloadLanding (Option.filter_eq_some_iff.mp hl).1)
    rw [hl] at hrecord
    unfold Steps Accounts
    rw [hrecord]
    simp only [inTheEnd, answerOps, hask, hl]
    exact bindOverload_step _ config ordinals h hq hholder rfl

/-- One answer, whatever was asked, keeps the hovers' books and does its share. -/
theorem recordAnswer_steps (config : SemanticConfig) (hunique : index.UniqueIds) :
    Steps v config index server rest a q (recordAnswer v config index a q (server q.request)) := by
  cases hask : q.ask with
  | definition site => exact recordAnswer_definition_steps h hunique hask
  | implementation anchor => exact recordAnswer_implementation_steps h hask
  | implementor anchor forFile => exact recordAnswer_implementor_steps h hask
  | overload site => exact recordAnswer_overload_steps h hunique hask
  | overloadHover =>
    obtain ⟨hawaits, hperm⟩ := hovered_step h hask
    unfold Steps Accounts
    simp only [recordAnswer, inTheEnd, answerOps, hask]
    exact ⟨hawaits, hperm⟩

end

theorem Awaits.start (h : ∀ q ∈ asked, ∀ i, q.waitsFor i = false) : Awaits v index server asked {} where
  hovers _ _ _ h := by cases h
  hover q hq i hover f hask := by
    have hwaits := waitsFor_iff.mpr ⟨hover, f, hask⟩
    rw [h q hq i] at hwaits
    exact absurd hwaits Bool.false_ne_true
  pending i p hp := by simp at hp

theorem Awaits.nothingPending (h : Awaits v index server [] a) : a.pendingOps v index server = [] := by
  refine flatMap_eq_nil_iff.mpr fun o ho => ?_
  cases o with
  | none => rfl
  | some p =>
    obtain ⟨i, hi⟩ := mem_iff_getElem?.mp ho
    have hwaits := h.pending i p hi
    have hnone := hwaits.waiting
    have hsome := hwaits.positive
    rw [countP_nil] at hnone
    omega

end Answers

open Answers in
theorem Processes.ops {v : ServerView} {index : SdkIndex} {a : Answers}
    (hunique : index.UniqueIds) (h : Processes v config index server asked a final order)
    (hawaits : Awaits v index server asked a) :
    ∃ ops, (asked.flatMap (server.inTheEnd v config index) ++ a.pendingOps v index server).Perm ops ∧
      final.ledger = a.ledger.applyOps v ops := by
  induction h with
  | done a => exact ⟨[], by rw [hawaits.nothingPending]; exact .refl _, rfl⟩
  | @next _ _ a _ q _ hq _ ih =>
    obtain ⟨hafter, hshare⟩ := recordAnswer_steps (hawaits.perm hq) config hunique
    obtain ⟨ops, hperm, hfinal⟩ := ih hafter
    refine ⟨answerOps v config index a q (server q.request) ++ ops, ?_, ?_⟩
    · refine perm_iff_count.mpr fun op => ?_
      have hasked := (hq.flatMap_right (server.inTheEnd v config index)).count_eq op
      have hdone := hshare.count_eq op
      have hrest := hperm.count_eq op
      simp only [flatMap_cons, flatMap_append, count_append] at hasked hdone hrest ⊢
      omega
    · rw [hfinal, recordAnswer_ledger, applyOps_append]

def SteadyServer.reaches (v : ServerView) (index : SdkIndex) (server : SteadyServer) (q : Question) : List String :=
  q.accountedTo ::
    match q.ask with
    | .implementation anchor =>
      ((server q.request).locations.filterMap (Answers.hopTo v index anchor q.file)).map file
    | _ => []

section Reaches

variable {v : ServerView} {config : SemanticConfig} {index : SdkIndex} {server : SteadyServer} {a : Answers}
  {q : Question} {file : String}

theorem bindOverload_accountedTo {node : DeclaredRecord} {ordinals : List Int}
    (hq : q ∈ (a.bindOverload v config index l node nodeFile ordinals).2) : server.reaches v index q = [l.file] := by
  unfold Answers.bindOverload at hq
  cases hchoice : chooseOverload node ordinals config.overloadDisambiguation with
  | bound | unbound => simp [hchoice] at hq
  | hover candidates =>
    simp only [hchoice] at hq
    rcases mem_cons.mp hq with rfl | hq
    · rfl
    · obtain ⟨⟨o, m⟩, hm, hsome⟩ := mem_filterMap.mp hq
      obtain ⟨_, rfl⟩ := Answers.mem_candidateHovers.mp hm
      obtain ⟨position, _, rfl⟩ := Option.map_eq_some_iff.mp hsome
      rfl

/-- A question reaches its own file and what the questions of its answer reach. -/
theorem mem_reaches_recordAnswer :
    (file = q.accountedTo ∨ file ∈ (recordAnswer v config index a q (server q.request)).2.flatMap (server.reaches v index)) ↔
      file ∈ server.reaches v index q := by
  have hnone : ∀ again : List Question, (∀ p ∈ again, server.reaches v index p = [q.accountedTo]) →
      server.reaches v index q = [q.accountedTo] →
      ((file = q.accountedTo ∨ file ∈ again.flatMap (server.reaches v index)) ↔ file ∈ server.reaches v index q) := by
    intro again hagain hq
    rw [hq, mem_singleton, or_iff_left_iff_imp]
    intro hfile
    obtain ⟨p, hp, hfile⟩ := mem_flatMap.mp hfile
    rw [hagain p hp] at hfile
    exact mem_singleton.mp hfile
  cases hask : q.ask with
  | definition site =>
    have haccounted : q.accountedTo = q.file := by simp only [accountedTo, hask]
    refine hnone _ ?_ (by simp only [reaches, hask])
    rw [Answers.recordAnswer_definition hask, haccounted]
    cases v.overloadedCall index site (server q.request).locations with
    | none => simp
    | some landed => exact fun p hp => bindOverload_accountedTo hp
  | implementation anchor =>
    have hhops : ∀ hop ∈ (server q.request).locations.filterMap (Answers.hopTo v index anchor q.file),
        server.reaches v index hop = [hop.file] := by
      intro hop hhop
      obtain ⟨l, _, hl⟩ := mem_filterMap.mp hhop
      simp only [reaches, accountedTo, Answers.hopTo_ask hl]
    rw [Answers.recordAnswer_implementation hask, Answers.recordImplementors_eq, flatMap_congr hhops]
    simp only [reaches, hask, mem_cons, mem_flatMap, mem_map, eq_comm, not_mem_nil, or_false]
  | implementor anchor forFile =>
    refine hnone _ ?_ (by simp only [reaches, hask])
    rw [Answers.recordAnswer_implementor hask]
    simp
  | overload site =>
    have haccounted : q.accountedTo = q.file := by simp only [accountedTo, hask]
    refine hnone _ ?_ (by simp only [reaches, hask])
    rw [Answers.recordAnswer_overload hask, haccounted]
    cases v.refinedCall index q.file site (server q.request).locations with
    | none => simp
    | some landed => exact fun p hp => bindOverload_accountedTo hp
  | overloadHover =>
    refine hnone _ ?_ (by simp only [reaches, hask])
    simp [recordAnswer, hask]

theorem Processes.files {order : List Question}
    (h : Processes v config index server asked a final order) :
    file ∈ order.map accountedTo ↔ file ∈ asked.flatMap (server.reaches v index) := by
  induction h with
  | done a => simp
  | @next _ _ _ _ _ _ hq _ ih =>
    rw [(hq.flatMap_right (server.reaches v index)).mem_iff, map_cons, mem_cons, ih, flatMap_append,
      mem_append, ← or_assoc, mem_reaches_recordAnswer, flatMap_cons, mem_append]

end Reaches

end GMesh
