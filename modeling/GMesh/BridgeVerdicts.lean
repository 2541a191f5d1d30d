import GMesh.AnswerOrder
import GMesh.BridgeHistory

namespace GMesh

open Answers LspBridge PassState List Option

variable {v : ServerView} {config : SemanticConfig} {index : SdkIndex} {a : Answers} {x : String}
  {l : OverloadLanding}

namespace Answers

def recordAll (v : ServerView) (config : SemanticConfig) (index : SdkIndex) (log : List (Question × ServerAnswer))
    (a : Answers) : Answers :=
  log.foldl (fun a h => (recordAnswer v config index a h.1 h.2).1) a

def logOps (v : ServerView) (config : SemanticConfig) (index : SdkIndex) :
    List (Question × ServerAnswer) → Answers → List AnswerOp
  | [], _ => []
  | h :: rest, a => answerOps v config index a h.1 h.2 ++ logOps v config index rest
      (recordAnswer v config index a h.1 h.2).1

theorem recordAll_ledger (log : List (Question × ServerAnswer)) :
    (a.recordAll v config index log).ledger = a.ledger.applyOps v (logOps v config index log a) := by
  induction log generalizing a with
  | nil => rfl
  | cons _ _ ih =>
    rw [logOps, applyOps_append, ← recordAnswer_ledger, ← ih]
    rfl

variable {log : List (Question × ServerAnswer)} {op : AnswerOp}

theorem mem_logOps (hop : op ∈ logOps v config index log a) :
    ∃ h ∈ log, ∃ b, op ∈ answerOps v config index b h.1 h.2 := by
  induction log generalizing a with
  | nil => simp [logOps] at hop
  | cons h _ ih =>
    rcases mem_append.mp hop with hop | hop
    · exact ⟨h, mem_cons_self, a, hop⟩
    · obtain ⟨g, hg, hb⟩ := ih hop
      exact ⟨g, mem_cons_of_mem h hg, hb⟩

theorem exists_answerOps_subset {h : Question × ServerAnswer} (hh : h ∈ log) :
    ∃ b, ∀ op ∈ answerOps v config index b h.1 h.2, op ∈ logOps v config index log a := by
  induction log generalizing a with
  | nil => simp at hh
  | cons g _ ih =>
    rcases mem_cons.mp hh with rfl | hh
    · exact ⟨a, fun op hop => mem_append_left _ hop⟩
    · obtain ⟨b, hb⟩ := @ih (recordAnswer v config index a g.1 g.2).1 hh
      exact ⟨b, fun op hop => mem_append_right _ (hb op hop)⟩

/-- The verdicts of a pass are those of its answers, taken one by one. -/
theorem recordAll_verdicts : let final := ({} : Answers).recordAll v config index log
    let ops := logOps v config index log {}
    (x ∈ final.contradicted ↔ .contradict x ∈ ops) ∧ (x ∈ final.retract ↔ .contradict x ∈ ops) ∧
      (x ∈ final.upheld ↔ ∃ agreed, .uphold x agreed ∈ ops) := by
  intro final ops
  obtain ⟨hcontradicted, hretract, hupheld, _⟩ := applyOps_lists (.empty v) ops
  have hledger : final.ledger = ({} : Answers).applyOps v ops := recordAll_ledger log
  rw [← hledger] at hcontradicted hretract hupheld
  have hmem : x ∈ ops.filterMap AnswerOp.contradicted? ↔ .contradict x ∈ ops := by
    rw [mem_filterMap]
    refine ⟨?_, fun hop => ⟨_, hop, rfl⟩⟩
    rintro ⟨op, hop, hx⟩
    cases op with
    | contradict edge => exact Option.some.inj hx ▸ hop
    | record | uphold | untyped => cases hx
  rw [show final.contradicted = _ from hcontradicted, show final.retract = _ from hretract,
    show final.upheld = _ from hupheld, append_nil, append_nil, mem_reverse, hmem, mem_reverse,
    List.mem_map]
  refine ⟨.rfl, .rfl, ?_, fun ⟨agreed, hop⟩ => ⟨(x, agreed), mem_filterMap.mpr ⟨_, hop, rfl⟩, rfl⟩⟩
  rintro ⟨⟨edge, agreed⟩, hup, rfl⟩
  obtain ⟨op, hop, hx⟩ := mem_filterMap.mp hup
  cases op with
  | uphold =>
    cases hx
    exact ⟨_, hop⟩
  | record | contradict | untyped => cases hx

theorem mem_concludeOps {ordinal : Option Int} (hop : op ∈ concludeOps l ordinal) :
    ∃ r, op = .record r ∧ (r.boundAt.isSome → r.toDeclaration.isSome) := by
  unfold concludeOps at hop
  split at hop
  next => simp at hop
  next hopen =>
    refine ⟨_, mem_singleton.mp hop, ?_⟩
    intro hbound
    split at hbound
    next hkind => exact isSome_iff_ne_none.mpr fun hnone => hopen ⟨hkind, hnone⟩
    next => simp at hbound

theorem mem_bindOps {node : DeclaredRecord} {ordinals : List Int}
    (hop : op ∈ bindOps config l node ordinals) :
    ∃ r, op = .record r ∧ (r.boundAt.isSome → r.toDeclaration.isSome) := by
  unfold bindOps at hop
  split at hop
  · exact mem_concludeOps hop
  · exact mem_concludeOps hop
  · simp at hop

variable {found : List ServerLocation}

theorem mem_implementorOps {anchor forFile : String}
    (hop : op ∈ found.flatMap fun l => (implementorOps v index anchor forFile l).getD []) :
    ∃ r, op = .record r ∧ r.boundAt = none := by
  obtain ⟨l, _, hop⟩ := mem_flatMap.mp hop
  cases hops : implementorOps v index anchor forFile l with
  | none => simp [hops] at hop
  | some ops =>
    rw [hops, getD_some] at hop
    obtain ⟨anchorNode, _, hops⟩ := bind_eq_some_iff.mp hops
    obtain ⟨landing, _, hops⟩ := bind_eq_some_iff.mp hops
    split at hops
    · simp [← some.inj hops] at hop
    · split at hops
      · cases hops
      · split at hops
        · simp [← some.inj hops] at hop
        · rw [← some.inj hops, mem_singleton] at hop
          exact ⟨_, hop, rfl⟩

theorem mem_hoverOps {pending : Nat} {hover : Hovered} {text : Option (List Char)}
    (hop : op ∈ a.hoverOps v pending hover text) :
    ∃ r, op = .record r ∧ (r.boundAt.isSome → r.toDeclaration.isSome) := by
  unfold hoverOps at hop
  split at hop
  next =>
    cases hover with
    | call | candidate =>
      dsimp only at hop
      split at hop
      · simp at hop
      · exact mem_concludeOps hop
  next => simp at hop

theorem mem_answerOps {q : Question} {answer : ServerAnswer} (hop : op ∈ answerOps v config index a q answer) :
    (∃ r, op = .record r ∧ (r.boundAt.isSome → r.toDeclaration.isSome)) ∨ (∃ call, op = .untyped call) ∨
      ∃ site, q.ask = .definition site ∧ op ∈ definitionOps v index q.file site answer.locations := by
  unfold answerOps at hop
  cases hask : q.ask with
  | definition site =>
    rw [hask] at hop
    dsimp only at hop
    split at hop
    · rcases mem_cons.mp hop with rfl | hop
      · exact .inr (.inl ⟨_, rfl⟩)
      · exact .inl (mem_bindOps hop)
    · exact .inr (.inr ⟨site, rfl, hop⟩)
  | implementation anchor | implementor anchor forFile =>
    rw [hask] at hop
    obtain ⟨r, rfl, hr⟩ := mem_implementorOps hop
    exact .inl ⟨r, rfl, by simp [hr]⟩
  | overload site =>
    rw [hask] at hop
    dsimp only at hop
    split at hop
    · exact .inl (mem_bindOps hop)
    · simp at hop
  | overloadHover =>
    rw [hask] at hop
    exact .inl (mem_hoverOps hop)

/-- A definition answer against the edge its site names: it lands on a declaration that is not the edge's target, nor
what core linked it onto, nor gets the edge's own id. -/
def SpeaksAgainst (v : ServerView) (index : SdkIndex) (edge : String) (h : Question × ServerAnswer) : Prop :=
  ∃ site l, h.1.ask = .definition site ∧ site.replaces = some edge ∧
    v.definitionLanding index h.1.file site h.2.locations = some l ∧ agreesWith v index h.1.file site l.node edge = false

variable {file : String} {site : OpenSite}

theorem mem_definitionOps_record {r : RecordOp} (hop : .record r ∈ definitionOps v index file site found) :
    r.boundAt = none := by
  rcases mem_append.mp hop with hop | hop
  · split at hop <;> simp at hop
  · split at hop
    · simp at hop
    · split at hop
      · simp at hop
      · rcases mem_cons.mp hop with hop | hop
        · rw [AnswerOp.record.inj hop]
        · simp at hop

/-- A definition answer is against the edge its site names when it lands elsewhere. -/
theorem contradict_mem_definitionOps :
    .contradict x ∈ definitionOps v index file site found ↔ site.replaces = some x ∧
      ∃ l, v.definitionLanding index file site found = some l ∧ agreesWith v index file site l.node x = false := by
  unfold definitionOps
  rw [mem_append]
  have huntyped : AnswerOp.contradict x ∉ (if v.untypedCallAnswered index site found
      (v.definitionTarget index site found).isSome then [AnswerOp.untyped (site.fromId, site.name)] else []) := by
    split <;> simp
  cases v.definitionLanding index file site found with
  | none => simp [huntyped]
  | some l =>
    cases hr : site.replaces with
    | none => simp [huntyped]
    | some edge =>
      by_cases hagrees : agreesWith v index file site l.node edge
      · simp only [huntyped, any_some, hagrees, if_true, toList_some, map_cons, map_nil,
          mem_singleton, reduceCtorEq, or_false, some.injEq, false_iff, not_and, not_exists]
        rintro rfl _ rfl
        simp [hagrees]
      · have hagrees := Bool.eq_false_iff.mpr hagrees
        simp only [huntyped, any_some, hagrees, Bool.false_eq_true, if_false, toList_some, map_cons,
          map_nil, mem_cons, reduceCtorEq, AnswerOp.contradict.injEq, not_mem_nil, or_false, false_or,
          some.injEq]
        constructor
        · rintro rfl
          exact ⟨rfl, l, rfl, hagrees⟩
        · rintro ⟨rfl, -⟩
          rfl

theorem contradict_or_uphold (found : List ServerLocation) (hr : site.replaces = some x) :
    .contradict x ∈ definitionOps v index file site found ∨ ∃ agreed,
      .uphold x agreed ∈ definitionOps v index file site found := by
  unfold definitionOps
  rw [hr]
  cases v.definitionLanding index file site found with
  | none => exact .inr ⟨none, by simp⟩
  | some l =>
    by_cases hagrees : agreesWith v index file site l.node x
    · exact .inr ⟨some ⟨x, site.fromId, site.edgeKind, l.node.id⟩, by simp [hagrees]⟩
    · exact .inl (by simp [hagrees])

theorem overloadedCall_none (hr : site.replaces = some x) : v.overloadedCall index site found = none := by
  unfold ServerView.overloadedCall
  rw [hr]
  cases v.overloadLanding index found <;> simp [filter_some]

theorem contradicted_log (hx : x ∈ (({} : Answers).recordAll v config index log).contradicted) :
    x ∈ (({} : Answers).recordAll v config index log).retract ∧ ∃ h ∈ log, SpeaksAgainst v index x h := by
  have hop := recordAll_verdicts.1.mp hx
  refine ⟨recordAll_verdicts.2.1.mpr hop, ?_⟩
  obtain ⟨h, hh, b, hop⟩ := mem_logOps hop
  rcases mem_answerOps hop with ⟨r, heq, _⟩ | ⟨call, heq⟩ | ⟨site, hask, hop⟩
  · cases heq
  · cases heq
  · obtain ⟨hr, l, hl, hagrees⟩ := contradict_mem_definitionOps.mp hop
    exact ⟨h, hh, site, l, hask, hr, hl, hagrees⟩

theorem not_upheld_log (hx : x ∉ (({} : Answers).recordAll v config index log).upheld) :
    ∀ h ∈ log, ∀ site, h.1.ask = .definition site → site.replaces = some x → SpeaksAgainst v index x h := by
  intro h hh site hask hr
  obtain ⟨b, hb⟩ := @exists_answerOps_subset v config index {} log h hh
  have hops : answerOps v config index b h.1 h.2 = definitionOps v index h.1.file site h.2.locations := by
    unfold answerOps
    rw [hask]
    dsimp only
    rw [overloadedCall_none hr]
  rw [hops] at hb
  rcases contradict_or_uphold h.2.locations hr with hop | ⟨agreed, hop⟩
  · obtain ⟨_, l, hl, hagrees⟩ := contradict_mem_definitionOps.mp hop
    exact ⟨site, l, hask, hr, hl, hagrees⟩
  · exact absurd (recordAll_verdicts.2.2.mpr ⟨agreed, hb _ hop⟩) hx

def BindsOrdinal (v : ServerView) (a : Answers) (edge : String) (position : TextPosition) : Prop :=
  ∃ b ∈ a.overloadBound, b.replaced = edge ∧ b.position = position ∧
    ∃ fromId kind toId ordinal, b.id = edgeId v.digest fromId kind toId (some ordinal)

theorem overloadBound_log {b : BoundSite} (hb : b ∈ (({} : Answers).recordAll v config index log).overloadBound) :
    ∃ fromId kind toId ordinal, b.id = edgeId v.digest fromId kind toId (some ordinal) := by
  have hb : b ∈ (({} : Answers).recordAll v config index log).ledger.overloadBound := hb
  rw [recordAll_ledger] at hb
  have hfind := (applyOps_overloadBound (.empty v) _ _).symm.trans (KeyedTable.find?_key hb)
  revert hfind
  refine List.foldlRecOn (motive := fun o : Option BoundSite => o = some b →
    ∃ fromId kind toId ordinal, b.id = edgeId v.digest fromId kind toId (some ordinal)) _ _ nofun ?_
  intro o ho r hr hsome
  split at hsome
  next hbound =>
    have hordinal : r.boundAt.isSome → r.toDeclaration.isSome := by
      obtain ⟨h, _, b, hop⟩ := mem_logOps (mem_record?.mp hr)
      rcases mem_answerOps hop with ⟨r', heq, hr⟩ | ⟨call, heq⟩ | ⟨site, _, hop⟩
      · exact AnswerOp.record.inj heq ▸ hr
      · cases heq
      · simp [mem_definitionOps_record hop]
    obtain ⟨ordinal, hordinal⟩ := isSome_iff_exists.mp (hordinal (by rw [hbound]; rfl))
    exact ⟨r.fromId, r.kind, placeholderId v.digest r.inFile r.target, ordinal,
      by rw [← some.inj hsome, ← hordinal]; rfl⟩
  next => exact ho hsome

end Answers

/-- The books of a run are those of the answers handed on in it. -/
theorem PassState.run_answers {budgets : Budgets} (turns : List Turn) (s : PassState) :
    (s.run v config index budgets turns).answers =
      s.answers.recordAll v config index (handedOn v config index budgets turns s) := by
  induction turns generalizing s with
  | nil => rfl
  | cons t _ ih =>
    rw [run, ih, handedOn]
    unfold recordAll
    rw [foldl_append]
    rcases round_does v config index budgets s t with ⟨hnone, hpasses⟩ | ⟨q, answer, hsome, _, hanswers, _⟩
    · rw [hnone, hpasses.answers]
      rfl
    · rw [hsome, hanswers]
      rfl

/-- A structural edge that open sites of its own file name, and of no other. -/
structure SdkIndex.Guesses (index : SdkIndex) (file : String) (graph : SdkGraph) (e : EdgeRow) : Prop where
  indexed : index.graph file = some graph
  edge : graph.edgeAt e.id = some e
  named : ∃ site ∈ graph.openSites, site.replaces = some e.id
  own : ∀ other held, index.graph other = some held → (∃ site ∈ held.openSites, site.replaces = some e.id) → other = file

theorem SdkIndex.Guesses.graph_eq {file other : String} {graph held : SdkGraph} {e : EdgeRow}
    (he : index.Guesses file graph e) (hg : index.graph other = some held)
    (hsite : ∃ site ∈ held.openSites, site.replaces = some e.id) : held = graph := by
  rw [he.own other held hg hsite, he.indexed] at hg
  exact (some.inj hg).symm

namespace Answers

variable {finished : List String} {file : String} {graph : SdkGraph} {e : EdgeRow}

section

variable (he : index.Guesses file graph e)

include he

theorem edgeAt_of_named {n : SdkGraph × String} (hid : n.2 = e.id)
    (hn : n ∈ finished.flatMap fun file => (index.graph file).elim [] fun graph =>
      (graph.openSites.filterMap OpenSite.replaces).map fun replaced => (graph, replaced)) :
    n.1.edgeAt n.2 = some e := by
  obtain ⟨other, _, hother⟩ := mem_flatMap.mp hn
  cases hg : index.graph other with
  | none => simp [hg] at hother
  | some held =>
    rw [hg, elim_some] at hother
    obtain ⟨replaced, hreplaced, rfl⟩ := mem_map.mp hother
    obtain ⟨site, hsite, hr⟩ := mem_filterMap.mp hreplaced
    rw [he.graph_eq hg ⟨site, hsite, hid ▸ hr⟩, hid]
    exact he.edge

theorem mem_restored (hfile : file ∈ finished) (hbound : e.id ∉ a.boundEdges index finished)
    (hkept : ¬ (e.id ∈ a.contradicted ∧ e.id ∉ a.upheld)) :
    e ∈ a.restored index finished (a.boundEdges index finished) := by
  obtain ⟨site, hsite, hreplaces⟩ := he.named
  set named := finished.flatMap fun file => (index.graph file).elim [] fun graph =>
    (graph.openSites.filterMap OpenSite.replaces).map fun replaced => (graph, replaced)
  have hmem : (graph, e.id) ∈ named.filter fun n =>
      decide (n.2 ∉ a.boundEdges index finished ∧ ¬ (n.2 ∈ a.contradicted ∧ n.2 ∉ a.upheld)) := by
    refine mem_filter.mpr ⟨mem_flatMap.mpr ⟨file, hfile, ?_⟩, decide_eq_true ⟨hbound, hkept⟩⟩
    rw [he.indexed, elim_some]
    exact mem_map_of_mem (mem_filterMap.mpr ⟨site, hsite, hreplaces⟩)
  obtain ⟨n, hn, hid⟩ : ∃ n ∈ keepFirst Prod.snd [] _, n.2 = e.id := exists_mem_keepFirst hmem not_mem_nil
  exact mem_filterMap.mpr ⟨n, hn, edgeAt_of_named he hid (mem_filter.mp (mem_of_mem_keepFirst hn)).1⟩

theorem restored_id {bound : List String} (hid : e.id ∈ (a.restored index finished bound).map (·.id)) :
    e ∈ a.restored index finished bound := by
  obtain ⟨row, hrow, hrowid⟩ := mem_map.mp hid
  obtain ⟨n, hn, hedge⟩ := mem_filterMap.mp hrow
  have hkey : n.2 = e.id := by
    have hfound : row.id = n.2 := by simpa using find?_some hedge
    rw [← hfound, hrowid]
  have hsame := edgeAt_of_named he hkey (mem_filter.mp (mem_of_mem_keepFirst hn)).1
  rw [hedge] at hsame
  exact some.inj hsame ▸ hrow

end

theorem boundEdges_contains (hx : x ∈ a.boundEdges index finished) (hfile : file ∈ finished)
    (hgraph : index.graph file = some graph) {site : OpenSite} (hsite : site ∈ graph.openSites)
    (hkind : site.kind = .overloadCall) (hreplaces : site.replaces = some x) :
    a.overloadBound.contains (x, site.position) := by
  have hall := (mem_filter.mp (mem_dedup.mp hx)).2
  have hmem : (x, site.position) ∈ overloadSites index finished := by
    refine mem_flatMap.mpr ⟨file, hfile, mem_filterMap.mpr ⟨site, ?_, ?_⟩⟩
    · rw [hgraph]
      exact hsite
    · rw [if_pos hkind, hreplaces]
      rfl
  exact all_eq_true.mp hall _ (mem_filter.mpr ⟨hmem, by simp⟩)

end Answers

section Plan

variable {budgets : Budgets} {q : Question} {entry : FileEntry}

theorem site_of_fileQuestions {site : OpenSite} (hq : q ∈ fileQuestions index config entry)
    (hask : q.ask = .definition site ∨ q.ask = .overload site) :
    q.file = entry.path ∧ q.accountedTo = entry.path ∧ site ∈ entry.graph.openSites := by
  have haccounted : q.accountedTo = q.file := by
    unfold Question.accountedTo
    rcases hask with hask | hask <;> rw [hask]
  rcases mem_append.mp hq with hq | hq
  · obtain ⟨site', hsite, hmap⟩ := mem_filterMap.mp (mem_filter.mp hq).1
    obtain ⟨ask, hsome, rfl⟩ := map_eq_some_iff.mp hmap
    refine ⟨rfl, haccounted, ?_⟩
    have hkind : ask = .definition site' ∨ ask = .overload site' := siteAsk_site hsome
    rcases hkind with rfl | rfl <;> rcases hask with hask | hask <;> cases hask <;> exact hsite
  · obtain ⟨node, _, rfl⟩ := mem_map.mp hq
    rcases hask with hask | hask <;> cases hask

theorem SdkIndex.graph_of_mem (hentry : entry ∈ index.files) : index.graph entry.path = some entry.graph := by
  have hnodup : (index.files.map FileEntry.path).Nodup :=
    index.ordered.imp fun {_ _} hlt => ne_of_lt hlt
  unfold SdkIndex.graph SdkIndex.entry
  cases hfind : index.files.find? (fun f => f.path == entry.path) with
  | none => exact absurd (find?_eq_none.mp hfind entry hentry) (by simp)
  | some found =>
    have hpath : found.path = entry.path := by simpa using find?_some hfind
    have hsame := inj_on_of_nodup_map hnodup (mem_of_find?_eq_some hfind) hentry hpath
    rw [hsame, map_some]

end Plan

namespace PassRequest

/-- No round of the pass drops a question without failing its file. -/
def KeepsBooks (v : ServerView) (config : SemanticConfig) (r : PassRequest) : Prop :=
  match r.outcome with
  | .notReady _ => True
  | .asked warmedUp nextId turns => PassState.RunKeepsBooks v config r.index r.budgets turns
      (startPass (r.plan config).asking warmedUp nextId)

/-- The answers of a pass are against a structural edge: each definition answer landed elsewhere, and one was given,
or each of its overload calls bound an ordinal. -/
def Against (v : ServerView) (config : SemanticConfig) (r : PassRequest) (s : PassState) (graph : SdkGraph)
    (e : EdgeRow) : Prop :=
  ((∃ h ∈ r.handed v config, Answers.SpeaksAgainst v r.index e.id h) ∧
    ∀ h ∈ r.handed v config, ∀ site, h.1.ask = .definition site → site.replaces = some e.id →
      Answers.SpeaksAgainst v r.index e.id h) ∨
  ((∃ site ∈ graph.openSites, site.kind = .overloadCall ∧ site.replaces = some e.id) ∧
    ∀ site ∈ graph.openSites, site.kind = .overloadCall → site.replaces = some e.id →
      s.answers.BindsOrdinal v e.id site.position)

variable {r : PassRequest} {s : PassState} (hs : r.ended v config = some s) {file : String} {graph : SdkGraph}
  {e : EdgeRow}

include hs

theorem exists_run_of_ended :
    ∃ warmedUp nextId turns, r.outcome = .asked warmedUp nextId turns ∧ s.running = false ∧
      s = (startPass (r.plan config).asking warmedUp nextId).run v config r.index r.budgets turns := by
  cases hout : r.outcome with
  | notReady reason => simp [ended, hout] at hs
  | asked warmedUp nextId turns =>
    refine ⟨warmedUp, nextId, turns, rfl, ?_⟩
    simp only [ended, hout] at hs
    split at hs
    next => cases hs
    next =>
      split at hs
      next => cases hs
      next hstopped => exact some.inj hs ▸ ⟨by simpa using hstopped, rfl⟩

theorem ended_answers : s.answers = ({} : Answers).recordAll v config r.index (r.handed v config) := by
  obtain ⟨warmedUp, nextId, turns, hout, _, rfl⟩ := exists_run_of_ended hs
  simp only [handed, hout]
  exact run_answers turns _

theorem handed_of_finished (hbooks : r.KeepsBooks v config)
    (hfile : file ∈ finished config r s) {q : Question} (hq : q ∈ (r.plan config).asking)
    (haccounted : q.accountedTo = file) : ∃ answer, (q, answer) ∈ r.handed v config := by
  obtain ⟨warmedUp, nextId, turns, hout, hstopped, rfl⟩ := exists_run_of_ended hs
  simp only [KeepsBooks, hout] at hbooks
  simp only [handed, hout]
  have hbalance := run_books (startPass_balanced (r.plan config).asking warmedUp nextId)
    (fun hstop => absurd hstop (by simp [startPass])) hbooks
  have hperm := handed_of_covered hbalance.1 hbalance.2 hstopped (finished_subset hfile)
  have howed : q ∈ ((r.plan config).asking ++ returned v config r.index r.budgets turns
      (startPass (r.plan config).asking warmedUp nextId)).filter fun q => q.accountedTo == file :=
    mem_filter.mpr ⟨mem_append_left _ hq, by simp [haccounted]⟩
  have hhanded := (mem_filter.mp (hperm.mem_iff.mp howed)).1
  obtain ⟨⟨q', answer⟩, hmem, rfl⟩ := mem_map.mp hhanded
  exact ⟨answer, hmem⟩

variable (hfile : file ∈ finished config r s) (he : r.index.Guesses file graph e)

include hfile he

/-- An edge with every overload call bound has its answers against it. -/
theorem against_of_bound (hbound : e.id ∈ s.answers.boundEdges r.index (finished config r s)) :
    r.Against v config s graph e := by
  refine .inr ⟨?_, ?_⟩
  · have hmem : e.id ∈ (overloadSites r.index (finished config r s)).map Prod.fst :=
      (mem_filter.mp (mem_dedup.mp hbound)).1
    obtain ⟨⟨replaced, position⟩, hsite, hid⟩ := mem_map.mp hmem
    obtain ⟨other, _, hsite⟩ := mem_flatMap.mp hsite
    obtain ⟨site, hopen, hsome⟩ := mem_filterMap.mp hsite
    cases hg : r.index.graph other with
    | none => simp [hg] at hopen
    | some held =>
      rw [hg, elim_some] at hopen
      split at hsome
      next hkind =>
        obtain ⟨_, hr, heq⟩ := map_eq_some_iff.mp hsome
        have hreplaces : site.replaces = some e.id := by
          rw [hr, (Prod.mk.inj heq).1]
          exact congrArg some hid
        exact ⟨site, he.graph_eq hg ⟨site, hopen, hreplaces⟩ ▸ hopen, hkind, hreplaces⟩
      next => cases hsome
  · intro site hsite hkind hreplaces
    have hcontains := boundEdges_contains hbound hfile he.indexed hsite hkind hreplaces
    obtain ⟨b, hb, hkey⟩ := KeyedTable.contains_iff.mp hcontains
    obtain ⟨hreplaced, hposition⟩ := Prod.mk.inj hkey
    refine ⟨b, hb, hreplaced, hposition, ?_⟩
    rw [ended_answers hs] at hb
    exact overloadBound_log hb

theorem restored_or_against :
    e ∈ (s.answers.settle r.index (finished config r s)).resend ∨
      r.Against v config s graph e ∧ e.id ∈ (s.answers.settle r.index (finished config r s)).retract := by
  by_cases hbound : e.id ∈ s.answers.boundEdges r.index (finished config r s)
  · exact .inr ⟨against_of_bound hs hfile he hbound, mem_settle_retract.mpr (.inl hbound)⟩
  by_cases hagainst : e.id ∈ s.answers.contradicted ∧ e.id ∉ s.answers.upheld
  · obtain ⟨hx, hup⟩ := hagainst
    rw [ended_answers hs] at hx hup
    refine .inr ⟨.inl ⟨(contradicted_log hx).2, not_upheld_log hup⟩, mem_settle_retract.mpr (.inr ?_)⟩
    rw [ended_answers hs]
    exact (contradicted_log hx).1
  · exact .inl (mem_restored he hfile hbound hagainst)

end PassRequest

/-- In a finished file a structural edge is withdrawn only after every question about its sites was answered, with the
answers against it. Otherwise it is sent again, unless the answers are against it and a semantic edge was recorded
under its id. -/
theorem structural_edges_withdrawn_against (v : ServerView) (config : SemanticConfig) (b : LspBridge) (r : PassRequest)
    {s : PassState} {out : LspBridge × SemanticAnswer} (hs : r.ended v config = some s)
    (hbooks : r.KeepsBooks v config) (hout : b.answer v config r = some out) :
    (∀ file ∈ LspBridge.finished config r s, ∀ graph e, r.index.Guesses file graph e →
      (e.id ∈ out.2.diff.deleteEdgeIds →
        (∀ q ∈ (r.plan config).asking, ∀ site, q.ask = .definition site ∨ q.ask = .overload site →
          site.replaces = some e.id → ∃ answer, (q, answer) ∈ r.handed v config) ∧ r.Against v config s graph e) ∧
      (e.id ∉ out.2.diff.deleteEdgeIds → e ∈ out.2.diff.upsertEdges ∨
        r.Against v config s graph e ∧ ∃ row ∈ out.2.diff.upsertEdges, row.id = e.id ∧ row.source = .semantic)) ∧
    ∀ id ∈ out.2.diff.deleteEdgeIds, id ∉ out.2.diff.upsertEdges.map (·.id) := by
  have hrun : out = b.answerRun config r s := by
    rcases answer_cases hout with ⟨hnone, _⟩ | ⟨hnone, _⟩ | ⟨_, s', hs', hrun⟩
    · exact absurd (hnone.symm.trans hs) (by simp)
    · exact absurd (hnone.symm.trans hs) (by simp)
    · rw [hs] at hs'
      rw [hrun, some.inj hs']
  subst hrun
  refine ⟨?_, ?_⟩
  · intro file hfile graph e he
    have hcases := PassRequest.restored_or_against hs hfile he
    refine ⟨fun hdeleted => ⟨?_, ?_⟩, fun hkept => ?_⟩
    · intro q hq site hask hreplaces
      rcases mem_planFiles hq with hnone | ⟨entry, hentry, _, hfor⟩
      · simp at hnone
      · obtain ⟨_, haccounted, hsite⟩ := site_of_fileQuestions hfor hask
        have hsame := he.own entry.path entry.graph (SdkIndex.graph_of_mem hentry) ⟨site, hsite, hreplaces⟩
        exact PassRequest.handed_of_finished hs hbooks hfile hq (haccounted.trans hsame)
    · have hresend := ((mem_deleteEdgeIds config).mp hdeleted).2.2
      rcases hcases with hsent | hagainst
      · exact absurd (mem_map_of_mem hsent) hresend
      · exact hagainst.1
    · rcases hcases with hsent | ⟨hagainst, hretract⟩
      · exact .inl (mem_append_right _ hsent)
      · have hsent : e.id ∈ (b.answerRun config r s).2.diff.upsertEdges.map (·.id) := by
          by_contra hunsent
          have hneither := mt (mem_upsertEdges_ids config).mpr hunsent
          exact hkept ((mem_deleteEdgeIds config).mpr
            ⟨mem_retractStale.mpr (.inr hretract), not_or.mp hneither⟩)
        rcases (mem_upsertEdges_ids config).mp hsent with hrecorded | hresent
        · obtain ⟨row, hrow, hid⟩ := mem_map.mp hrecorded
          have hmem : recordedRow config row ∈ (b.answerRun config r s).2.diff.upsertEdges :=
            mem_append_left _ (mem_map_of_mem ((mem_insertionSort _).mpr hrow))
          exact .inr ⟨hagainst, _, hmem, hid, rfl⟩
        · exact .inl (mem_append_right _ (restored_id he hresent))
  · intro id hid hsent
    exact not_or.mpr ((mem_deleteEdgeIds config).mp hid).2 ((mem_upsertEdges_ids config).mp hsent)

def guessedCallId : String := "edge|f|CALLS|node|a.ts|Module|b.ts#=m|pending_symbol"

def guessedCall : EdgeRow :=
  { id := guessedCallId, fromId := "f", toId := "node|a.ts|Module|b.ts#=m|pending_symbol" }

variable (sites : List OpenSite)

def guessingGraph : SdkGraph where
  nodes := [{ id := "f", name := "f", qualifiedName := "f", filePath := "a.ts", endLine := 3, endCol := 9 },
    { id := guessedCall.toId, filePath := "a.ts", nativeKind := some "pending_symbol"
      target := some { scope := "b.ts", key := "m" } }]
  edges := [guessedCall]
  openSites := sites

def guessingProject (others : List OpenSite) : SdkIndex where
  files := [
    { path := "a.ts", graph := guessingGraph sites },
    { path := "b.ts",
      graph := {
        nodes := [
          { id := "m", name := "m", qualifiedName := "m", filePath := "b.ts", endCol := 9
            declarations := [{ ordinal := 0 }] },
          { id := "n", name := "n", qualifiedName := "n", filePath := "b.ts", startLine := 2, endLine := 2, endCol := 9 }]
        openSites := others } }]
  ordered := (by decide +kernel : ["a.ts", "b.ts"].Pairwise (· < ·))

def guessedSite (line : Nat) : OpenSite :=
  { fromId := "f", position := ⟨line, 5⟩, name := "m", replaces := some guessedCallId }

theorem guessingProject_guesses {sites : List OpenSite} (h : ∃ site ∈ sites, site.replaces = some guessedCallId) :
    (guessingProject sites []).Guesses "a.ts" (guessingGraph sites) guessedCall where
  indexed := rfl
  edge := by simp [SdkGraph.edgeAt, guessingGraph]
  named := h
  own := by
    rintro other held hgraph ⟨site, hsite, _⟩
    obtain ⟨entry, hentry, rfl⟩ := map_eq_some_iff.mp hgraph
    have hpath : entry.path = other := by simpa using find?_some hentry
    have hmem := mem_of_find?_eq_some hentry
    simp only [guessingProject, mem_cons, not_mem_nil, or_false] at hmem
    rcases hmem with rfl | rfl
    · exact hpath.symm
    · simp at hsite

def guessingPass (polls : List Poll) : PassRequest where
  files := ["a.ts"]
  index := guessingProject sites []
  budgets := {}
  outcome := .asked true 0 ((polls ++ [Poll.noise]).map fun poll => { poll })

def landed (question line : Nat) : Poll := .answered question { locations := [⟨"b.ts", line, 5⟩] }

def wrongGuessPass : PassRequest := guessingPass [guessedSite 0, guessedSite 1] [landed 0 2, landed 1 2]

theorem structural_edges_wrongGuessPass :
    (({} : LspBridge).answer plainView {} wrongGuessPass).map (·.2.diff.deleteEdgeIds) = some [guessedCallId] ∧
      ∃ s, wrongGuessPass.ended plainView {} = some s ∧
        wrongGuessPass.Against plainView {} s (guessingGraph [guessedSite 0, guessedSite 1]) guessedCall := by
  have hended : (wrongGuessPass.ended plainView {}).isSome = true := by decide +kernel
  obtain ⟨s, hs⟩ := isSome_iff_exists.mp hended
  have hdeletes : (({} : LspBridge).answer plainView {} wrongGuessPass).map (·.2.diff.deleteEdgeIds) =
      some [guessedCallId] := by decide +kernel
  obtain ⟨out, hout, hdeleted⟩ := map_eq_some_iff.mp hdeletes
  have hfinished : (wrongGuessPass.ended plainView {}).map (finished {} wrongGuessPass) = some ["a.ts"] := by
    decide +kernel
  rw [hs, map_some, some.injEq] at hfinished
  have hbooks : wrongGuessPass.KeepsBooks plainView {} := runKeepsBooks_of_calm (by decide)
  have hagainst := (structural_edges_withdrawn_against plainView {} {} wrongGuessPass hs hbooks hout).1 "a.ts"
    (by simp [hfinished]) _ _ (guessingProject_guesses ⟨guessedSite 0, by simp, rfl⟩)
  exact ⟨hdeletes, s, hs, (hagainst.1 (by rw [hdeleted]; exact mem_singleton_self _)).2⟩

def refusedPass : PassRequest :=
  guessingPass [guessedSite 0, guessedSite 1, guessedSite 2] [landed 0 2, landed 1 0, .failed 2 false]

def overloadedPass : PassRequest :=
  guessingPass [guessedSite 0, { guessedSite 1 with kind := .overloadCall }] [landed 0 2, landed 1 0]

def sharedPass : PassRequest :=
  { guessingPass [] [landed 0 2, .failed 1 false] with
    files := ["a.ts", "b.ts"], index := guessingProject [guessedSite 0] [guessedSite 1] }

def takenOverPass : PassRequest :=
  guessingPass [guessedSite 0, { guessedSite 1 with replaces := none }] [landed 0 2, landed 1 0]

/-- The unfinished files and the deleted edges of a pass, how many questions it asked and how many were answered. -/
def PassRequest.verdict (r : PassRequest) : Option (List String × List String) × Nat × Nat :=
  ((({} : LspBridge).answer plainView {} r).map fun out => (out.2.unfinished, out.2.diff.deleteEdgeIds),
    (r.plan {}).asking.length, (r.handed plainView {}).length)

/-- An edge is deleted although an answer agreed with it, in an unfinished file and in a finished one where an overload
call was answered so without an ordinal, and while a site of another file waits for its answer. In a finished file an
edge that the answers are against can be replaced. -/
theorem structural_edges_refusedPass :
    refusedPass.verdict = (some (["a.ts"], [guessedCallId]), 3, 2) ∧
      overloadedPass.verdict = (some ([], [guessedCallId]), 2, 2) ∧
      sharedPass.verdict = (some (["b.ts"], [guessedCallId]), 2, 1) ∧
      (({} : LspBridge).answer plainView {} takenOverPass).map (fun out =>
        (out.2.unfinished, out.2.diff.deleteEdgeIds, decide (guessedCall ∈ out.2.diff.upsertEdges),
          out.2.diff.upsertEdges.any fun e => decide (e.id = guessedCallId ∧ e.source = .semantic))) =
        some ([], [], false, true) := by
  decide +kernel

end GMesh
