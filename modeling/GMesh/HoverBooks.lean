import GMesh.AnswerOps
import GMesh.BridgePass

namespace GMesh

open Answers List Option

/-- What is asked, whichever overload call a hover is for. -/
def Question.request (q : Question) : Question :=
  match q.ask with
  | .overloadHover _ hover _ => { q with ask := .overloadHover 0 hover "" }
  | _ => q

abbrev SteadyServer := Question → ServerAnswer

/-- The node with this id and its file, in the first file that has one. -/
def SdkIndex.holder (index : SdkIndex) (id : String) : Option (String × DeclaredRecord) :=
  index.files.findSome? fun f => (f.graph.nodeAt id).map fun n => (f.path, n)

def SdkIndex.UniqueIds (index : SdkIndex) : Prop :=
  ∀ f ∈ index.files, ∀ n ∈ f.graph.nodes, index.holder n.id = some (f.path, n)

instance (index : SdkIndex) : Decidable index.UniqueIds :=
  inferInstanceAs (Decidable (∀ f ∈ index.files, ∀ n ∈ f.graph.nodes, index.holder n.id = some (f.path, n)))

namespace SteadyServer

variable (v : ServerView) (config : SemanticConfig) (index : SdkIndex) (server : SteadyServer) (l : OverloadLanding)

def callHover : List Char :=
  (server ⟨l.file, l.site.position, .overloadHover 0 .call ""⟩).hover.getD []

def hoverPlace (nodeFile : String) (node : DeclaredRecord) (ordinal : Int) : Option TextPosition :=
  (node.declarations.find? fun c => c.ordinal == ordinal).bind
    (declarationNamePosition v.alphanumeric ((index.source nodeFile).getD []) node.name)

def candidateHover (node : String) (ordinal : Int) : List Char :=
  ((index.holder node).bind fun h => (hoverPlace v index h.1 h.2 ordinal).map fun position =>
    (server ⟨h.1, position, .overloadHover 0 (.candidate node ordinal) ""⟩).hover.getD []).getD []

def onlyOne : List Int → Option Int
  | [one] => some one
  | _ => none

def singledOut (candidates : List Int) : Option Int :=
  onlyOne (candidates.filter fun ordinal =>
    hoverMatches v.alphanumeric (candidateHover v index server l.nodeId ordinal) (callHover server l))

def boundInTheEnd (node : DeclaredRecord) (ordinals : List Int) : List AnswerOp :=
  match chooseOverload node ordinals config.overloadDisambiguation with
  | .bound ordinal => concludeOps l (some ordinal)
  | .unbound => concludeOps l none
  | .hover candidates => concludeOps l (singledOut v index server l candidates)

def implementors (anchor forFile : String) (found : List ServerLocation) : List AnswerOp :=
  found.flatMap fun l => (implementorOps v index anchor forFile l).getD []

def inTheEnd (q : Question) : List AnswerOp :=
  let found := (server q.request).locations
  match q.ask with
  | .definition site =>
    match v.overloadedCall index site found with
    | some (l, ordinals) => .untyped (site.fromId, site.name) ::
        boundInTheEnd v config index server (overloadLandingOf index q.file site l.node) l.node ordinals
    | none => definitionOps v index q.file site found
  | .implementation anchor => implementors v index anchor q.file found ++
      (found.filterMap (hopTo v index anchor q.file)).flatMap fun hop =>
        implementors v index anchor q.file (server hop.request).locations
  | .implementor anchor forFile => implementors v index anchor forFile found
  | .overload site =>
    match v.refinedCall index q.file site found with
    | some (l, ordinals) =>
      boundInTheEnd v config index server (overloadLandingOf index q.file site l.node) l.node ordinals
    | none => []
  | .overloadHover _ _ _ => []

def pendingInTheEnd : Option PendingOverload → List AnswerOp
  | some p => concludeOps p.landing (singledOut v index server p.landing p.candidates)
  | none => []

end SteadyServer

section Landings

variable {v : ServerView} {index : SdkIndex}

theorem foldl_picks {α : Type} {pick : Option α → α → Option α}
    (hpick : ∀ best n, pick best n = some n ∨ pick best n = best) {l : List α} {best : Option α} {x : α}
    (h : l.foldl pick best = some x) : x ∈ l ∨ best = some x := by
  induction l generalizing best with
  | nil => exact .inr h
  | cons n _ ih =>
    rcases ih h with hx | hx
    · exact .inl (mem_cons_of_mem n hx)
    · rcases hpick best n with hn | hn
      · cases hn.symm.trans hx
        exact .inl mem_cons_self
      · exact .inr (hn.symm.trans hx)

def SdkIndex.Has (index : SdkIndex) (path : String) (n : DeclaredRecord) : Prop :=
  ∃ f ∈ index.files, f.path = path ∧ n ∈ f.graph.nodes

variable {path : String} {n : DeclaredRecord} {l : ServerLocation} {landing : Landing}

theorem SdkIndex.has_of_graph (h : n ∈ (index.graph path).elim [] SdkGraph.nodes) : index.Has path n := by
  unfold SdkIndex.graph at h
  cases he : index.entry path with
  | none => simp [he] at h
  | some f =>
    rw [he] at h
    have hpath : f.path = path := by simpa using find?_some he
    exact ⟨f, mem_of_find?_eq_some he, hpath, h⟩

theorem SdkIndex.has_of_nodeAt {place : TextPosition} (h : index.nodeAt path place = some n) : index.Has path n := by
  have hmem : n ∈ (index.graph path).elim [] fun g => g.nodes.filter fun n => n.range.contains place := by
    refine (foldl_picks ?_ h).resolve_right (by simp)
    intro best m
    cases best with
    | none => exact .inl rfl
    | some held =>
      simp only
      split
      · exact .inl rfl
      · exact .inr rfl
  refine SdkIndex.has_of_graph ?_
  cases hg : index.graph path with
  | none => simp [hg] at hmem
  | some g =>
    rw [hg] at hmem
    exact (mem_filter.mp hmem).1

theorem ServerView.has_of_nodeAt (h : v.nodeAt index l = some landing) : index.Has landing.path landing.node := by
  obtain ⟨path, _, h⟩ := bind_eq_some_iff.mp h
  obtain ⟨n, hn, rfl⟩ := map_eq_some_iff.mp h
  exact SdkIndex.has_of_nodeAt (filter_eq_some_iff.mp hn).1

theorem ServerView.has_of_declarationAt {ordinal : Int}
    (h : v.declarationAt index l = some (landing, ordinal)) : index.Has landing.path landing.node := by
  obtain ⟨path, _, h⟩ := bind_eq_some_iff.mp h
  obtain ⟨c, hc, hland⟩ := map_eq_some_iff.mp h
  obtain ⟨rfl, _⟩ := Prod.mk.inj hland
  have hmem := (foldl_picks (by
    intro best m
    cases best with
    | none => exact .inl rfl
    | some held =>
      simp only
      split
      · exact .inl rfl
      · exact .inr rfl) hc).resolve_right (by simp)
  obtain ⟨n, hn, hheld⟩ := mem_flatMap.mp hmem
  split at hheld
  · obtain ⟨d, _, rfl⟩ := mem_map.mp hheld
    exact SdkIndex.has_of_graph hn
  · simp at hheld

theorem ServerView.has_of_overloadLanding {found : List ServerLocation} {l : Landing} {ordinals : List Int}
    (h : v.overloadLanding index found = some (l, ordinals)) : index.Has l.path l.node := by
  obtain ⟨landing, hagreed, hl⟩ := map_eq_some_iff.mp h
  obtain ⟨rfl, _⟩ := Prod.mk.inj hl
  have hmem : landing ∈ (found.filterMap (v.overloadAt index)).map Prod.fst := by
    revert hagreed
    cases (found.filterMap (v.overloadAt index)).map Prod.fst with
    | nil => simp [ServerView.agreed]
    | cons first rest =>
      intro hagreed
      simp only [ServerView.agreed, ite_none_right_eq_some] at hagreed
      rw [← some.inj hagreed.2]
      exact mem_cons_self
  obtain ⟨⟨landing', o⟩, hat, rfl⟩ := mem_map.mp hmem
  obtain ⟨location, _, hat⟩ := mem_filterMap.mp hat
  unfold ServerView.overloadAt at hat
  cases hd : v.declarationAt index location with
  | some d =>
    rw [hd] at hat
    cases hat
    exact ServerView.has_of_declarationAt hd
  | none =>
    rw [hd] at hat
    obtain ⟨landing'', hn, hat⟩ := map_eq_some_iff.mp hat
    cases hat
    exact ServerView.has_of_nodeAt hn

theorem SdkIndex.UniqueIds.holder (hunique : index.UniqueIds) (h : index.Has path n) :
    index.holder n.id = some (path, n) := by
  obtain ⟨f, hf, rfl, hn⟩ := h
  exact hunique f hf n hn

end Landings

open Question SteadyServer

def Question.waitsFor (i : Nat) (q : Question) : Bool :=
  match q.ask with
  | .overloadHover pending _ _ => pending == i
  | _ => false

theorem Question.waitsFor_iff {q : Question} {i : Nat} :
    q.waitsFor i ↔ ∃ hover f, q.ask = .overloadHover i hover f := by
  unfold waitsFor
  cases q.ask <;> simp

variable {asked asked' : List Question}

namespace Answers

variable {v : ServerView} {config : SemanticConfig} {index : SdkIndex} {server : SteadyServer} {a b : Answers}
  {q : Question} {again rest : List Question}

def hoverText (v : ServerView) (index : SdkIndex) (server : SteadyServer) (p : PendingOverload) : Hovered → List Char
  | .call => server.callHover p.landing
  | .candidate node ordinal => server.candidateHover v index node ordinal

/-- A pending overload call counts its open hovers, which ask the texts it lacks. -/
structure Waits (server : SteadyServer) (asked : List Question) (a : Answers) (i : Nat) (p : PendingOverload) : Prop where
  waiting : p.waiting = asked.countP (waitsFor i)
  positive : 0 < p.waiting
  call : p.call = some (server.callHover p.landing) ∨ ∃ q ∈ asked, ∃ f, q.ask = .overloadHover i .call f
  candidates : ∀ o ∈ p.candidates, (a.hovers (p.landing.nodeId, o)).isSome = true ∨
    ∃ q ∈ asked, ∃ f, q.ask = .overloadHover i (.candidate p.landing.nodeId o) f

/-- The hover texts are the server's, and the open hovers those the pending calls wait for. -/
structure Awaits (v : ServerView) (index : SdkIndex) (server : SteadyServer) (asked : List Question) (a : Answers) :
    Prop where
  hovers : ∀ node ordinal text, a.hovers (node, ordinal) = some text → text = server.candidateHover v index node ordinal
  hover : ∀ q ∈ asked, ∀ i hover f, q.ask = .overloadHover i hover f →
    ∃ p, a.pending[i]? = some (some p) ∧ (server q.request).hover.getD [] = hoverText v index server p hover
  pending : ∀ i p, a.pending[i]? = some (some p) → Waits server asked a i p

theorem Waits.congr {i : Nat} {p : PendingOverload} (h : Waits server asked a i p)
    (hcount : asked'.countP (waitsFor i) = asked.countP (waitsFor i))
    (hopen : ∀ q ∈ asked, q.waitsFor i → q ∈ asked')
    (hhovers : ∀ k, (a.hovers k).isSome → (b.hovers k).isSome) : Waits server asked' b i p := by
  have hkept : ∀ {hover f q}, q ∈ asked → q.ask = .overloadHover i hover f → q ∈ asked' := fun hq hask =>
    hopen _ hq (waitsFor_iff.mpr ⟨_, _, hask⟩)
  refine ⟨h.waiting.trans hcount.symm, h.positive, ?_, ?_⟩
  · exact h.call.imp_right fun ⟨q, hq, f, hask⟩ => ⟨q, hkept hq hask, f, hask⟩
  · intro o ho
    exact (h.candidates o ho).imp (hhovers _) fun ⟨q, hq, f, hask⟩ => ⟨q, hkept hq hask, f, hask⟩

theorem Awaits.perm (h : Awaits v index server asked a) (hperm : asked.Perm asked') :
    Awaits v index server asked' a where
  hovers := h.hovers
  hover q hq := h.hover q (hperm.mem_iff.mpr hq)
  pending i p hp := (h.pending i p hp).congr (hperm.countP_eq _).symm (fun _ hq _ => hperm.mem_iff.mp hq) fun _ => id

theorem Awaits.congr (h : Awaits v index server asked a) (hpending : b.pending = a.pending)
    (hhovers : b.hovers = a.hovers) : Awaits v index server asked b := by
  refine ⟨hhovers ▸ h.hovers, hpending ▸ h.hover, fun i p hp => ?_⟩
  exact (h.pending i p (hpending ▸ hp)).congr rfl (fun _ hq _ => hq) fun k hk => hhovers ▸ hk

theorem countP_waitsFor_cons {i : Nat} (hq : q.waitsFor i = false) :
    (q :: rest).countP (waitsFor i) = rest.countP (waitsFor i) := by
  simp [hq]

theorem Awaits.plain (h : Awaits v index server (q :: rest) a) (hq : ∀ i, q.waitsFor i = false)
    (hagain : ∀ p ∈ again, ∀ i, p.waitsFor i = false) (hpending : b.pending = a.pending) (hhovers : b.hovers = a.hovers) :
    Awaits v index server (again ++ rest) b := by
  have hnone : ∀ i, again.countP (waitsFor i) = 0 := fun i =>
    countP_eq_zero.mpr fun p hp => by simp [hagain p hp i]
  refine ⟨fun node ordinal => hhovers ▸ h.hovers node ordinal, ?_, ?_⟩
  · intro p hp i hover f hask
    rw [hpending]
    rcases mem_append.mp hp with hp | hp
    · have hwaits := waitsFor_iff.mpr ⟨hover, f, hask⟩
      rw [hagain p hp i] at hwaits
      exact absurd hwaits Bool.false_ne_true
    · exact h.hover p (mem_cons_of_mem q hp) i hover f hask
  · intro i p hp
    rw [hpending] at hp
    refine (h.pending i p hp).congr ?_ ?_ (fun k hk => hhovers ▸ hk)
    · rw [countP_append, hnone, Nat.zero_add, countP_waitsFor_cons (hq i)]
    · intro p hp hwaits
      rcases mem_cons.mp hp with rfl | hp
      · rw [hq i] at hwaits
        exact absurd hwaits Bool.false_ne_true
      · exact mem_append_right _ hp

theorem applyOp_pending (op : AnswerOp) : (a.applyOp v op).pending = a.pending ∧ (a.applyOp v op).hovers = a.hovers := by
  cases op with
  | record r =>
    simp only [applyOp, applyRecord, record]
    split <;> split <;> exact ⟨rfl, rfl⟩
  | uphold | contradict | untyped => exact ⟨rfl, rfl⟩

theorem applyOps_pending (ops : List AnswerOp) :
    (a.applyOps v ops).pending = a.pending ∧ (a.applyOps v ops).hovers = a.hovers := by
  induction ops generalizing a with
  | nil => exact ⟨rfl, rfl⟩
  | cons op _ ih =>
    obtain ⟨hpending, hhovers⟩ := @applyOp_pending v a op
    rw [applyOps_cons, ih.1, ih.2]
    exact ⟨hpending, hhovers⟩

def askedHovers (v : ServerView) (index : SdkIndex) (a : Answers) (l : OverloadLanding) (node : DeclaredRecord)
    (nodeFile : String) (candidates : List Int) : List Question :=
  ⟨l.file, l.site.position, .overloadHover a.pending.length .call l.file⟩ ::
    (a.candidateHovers v index node nodeFile l.file candidates).filterMap Prod.snd

def nowhereHovered (v : ServerView) (index : SdkIndex) (a : Answers) (node : DeclaredRecord) (nodeFile forFile : String)
    (candidates : List Int) : List Int :=
  ((a.candidateHovers v index node nodeFile forFile candidates).filter fun h => h.2.isNone).map Prod.fst

variable {l : OverloadLanding} {node : DeclaredRecord} {nodeFile forFile : String} {ordinals candidates : List Int}

theorem bindOverload_hover (h : chooseOverload node ordinals config.overloadDisambiguation = .hover candidates) :
    a.bindOverload v config index l node nodeFile ordinals = ({ a with
        hovers := fun k => if k.1 = node.id ∧ k.2 ∈ a.nowhereHovered v index node nodeFile l.file candidates then some []
          else a.hovers k
        pending := a.pending ++
          [some ⟨l, candidates, none, (a.askedHovers v index l node nodeFile candidates).length⟩] },
        a.askedHovers v index l node nodeFile candidates) := by
  unfold bindOverload
  rw [h]
  rfl

theorem mem_candidateHovers {o : Int}
    {m : Option Question} : (o, m) ∈ a.candidateHovers v index node nodeFile forFile candidates ↔
      (o ∈ candidates ∧ (a.hovers (node.id, o)).isNone) ∧ (hoverPlace v index nodeFile node o).map (fun position =>
          ⟨nodeFile, position, .overloadHover a.pending.length (.candidate node.id o) forFile⟩) = m := by
  simp only [candidateHovers, List.mem_map, mem_filter, hoverPlace, Prod.mk.injEq]
  constructor
  · rintro ⟨o', ho, rfl, hm⟩
    exact ⟨ho, hm⟩
  · rintro ⟨ho, hm⟩
    exact ⟨o, ho, rfl, hm⟩

theorem mem_nowhereHovered {o : Int} : o ∈ a.nowhereHovered v index node nodeFile forFile candidates ↔
      (o ∈ candidates ∧ (a.hovers (node.id, o)).isNone) ∧ hoverPlace v index nodeFile node o = none := by
  simp only [nowhereHovered, List.mem_map, mem_filter]
  constructor
  · rintro ⟨⟨o', m⟩, ⟨hm, hnone⟩, rfl⟩
    obtain ⟨ho, rfl⟩ := mem_candidateHovers.mp hm
    exact ⟨ho, by simpa using hnone⟩
  · rintro ⟨ho, hplace⟩
    exact ⟨(o, none), ⟨mem_candidateHovers.mpr ⟨ho, by simp [hplace]⟩, rfl⟩, rfl⟩

theorem askedHovers_spec
    (hholder : index.holder node.id = some (nodeFile, node)) {p : PendingOverload} (hp : p.landing = l)
    (hq : q ∈ a.askedHovers v index l node nodeFile candidates) :
    ∃ hover, q.ask = .overloadHover a.pending.length hover l.file ∧
      (server q.request).hover.getD [] = hoverText v index server p hover := by
  rcases mem_cons.mp hq with rfl | hq
  · exact ⟨.call, rfl, by rw [hoverText, hp]; rfl⟩
  · obtain ⟨⟨o, m⟩, hm, hsome⟩ := mem_filterMap.mp hq
    obtain ⟨_, rfl⟩ := mem_candidateHovers.mp hm
    obtain ⟨position, hplace, rfl⟩ := map_eq_some_iff.mp hsome
    refine ⟨.candidate node.id o, rfl, ?_⟩
    simp only [hoverText, candidateHover, hholder, bind_some, hplace, map_some, getD_some]
    rfl

/-- An overload answer that hovers decide opens one for every text that is lacking. -/
theorem Awaits.bind (h : Awaits v index server (q :: rest) a) (hq : ∀ i, q.waitsFor i = false)
    (hholder : index.holder node.id = some (nodeFile, node)) (hl : l.nodeId = node.id)
    (hchoice : chooseOverload node ordinals config.overloadDisambiguation = .hover candidates) :
    Awaits v index server ((a.bindOverload v config index l node nodeFile ordinals).2 ++ rest)
      (a.bindOverload v config index l node nodeFile ordinals).1 := by
  rw [bindOverload_hover hchoice]
  have hspec : ∀ {p : Question} (pending : PendingOverload), pending.landing = l →
      p ∈ a.askedHovers v index l node nodeFile candidates → _ := fun pending hp hmem =>
    @askedHovers_spec v index server a _ l node nodeFile candidates hholder pending hp hmem
  have hnew : ∀ p ∈ a.askedHovers v index l node nodeFile candidates, p.waitsFor a.pending.length := by
    intro p hp
    obtain ⟨hover, hask, _⟩ := hspec ⟨l, candidates, none, 0⟩ rfl hp
    exact waitsFor_iff.mpr ⟨hover, l.file, hask⟩
  have hold : ∀ p ∈ rest, ∀ i, p.waitsFor i → i < a.pending.length := by
    intro p hp i hwaits
    obtain ⟨hover, f, hask⟩ := waitsFor_iff.mp hwaits
    obtain ⟨pending, hpending, _⟩ := h.hover p (mem_cons_of_mem q hp) i hover f hask
    exact (List.getElem?_eq_some_iff.mp hpending).1
  refine ⟨?_, ?_, ?_⟩
  · intro n o text htext
    simp only at htext
    split at htext
    next hk =>
      obtain ⟨rfl, ho⟩ := hk
      obtain ⟨_, hplace⟩ := mem_nowhereHovered.mp ho
      rw [← some.inj htext, candidateHover, hholder, bind_some, hplace]
      rfl
    next => exact h.hovers n o text htext
  · intro p hp i hover f hask
    rcases mem_append.mp hp with hp | hp
    · obtain ⟨hover', hask', htext⟩ :=
        hspec ⟨l, candidates, none, (a.askedHovers v index l node nodeFile candidates).length⟩ rfl hp
      obtain ⟨rfl, rfl, -⟩ := Ask.overloadHover.inj (hask.symm.trans hask')
      exact ⟨_, by simp, htext⟩
    · obtain ⟨pending, hpending, htext⟩ := h.hover p (mem_cons_of_mem q hp) i hover f hask
      refine ⟨pending, ?_, htext⟩
      rw [List.getElem?_append_left (List.getElem?_eq_some_iff.mp hpending).1]
      exact hpending
  · intro i p hp
    by_cases hi : i < a.pending.length
    · rw [getElem?_append_left hi] at hp
      refine (h.pending i p hp).congr ?_ ?_ ?_
      · have hnone : (a.askedHovers v index l node nodeFile candidates).countP (waitsFor i) = 0 := by
          refine countP_eq_zero.mpr fun p hp hwaits => ?_
          obtain ⟨hover, hask, _⟩ := hspec ⟨l, candidates, none, 0⟩ rfl hp
          obtain ⟨hover', f, hask'⟩ := waitsFor_iff.mp hwaits
          have hsame := (Ask.overloadHover.inj (hask.symm.trans hask')).1
          omega
        rw [countP_append, hnone, Nat.zero_add, countP_waitsFor_cons (hq i)]
      · intro p hp hwaits
        rcases mem_cons.mp hp with rfl | hp
        · rw [hq i] at hwaits
          exact absurd hwaits Bool.false_ne_true
        · exact mem_append_right _ hp
      · intro k hk
        simp only
        split
        · rfl
        · exact hk
    · have hlen : i = a.pending.length := by
        have hlt := (List.getElem?_eq_some_iff.mp hp).1
        simp only [length_append, length_singleton] at hlt
        omega
      subst hlen
      rw [getElem?_append_right (Nat.le_refl _), Nat.sub_self] at hp
      cases (some.inj hp)
      refine ⟨?_, by simp [askedHovers], .inr ⟨_, mem_append_left _ mem_cons_self, l.file, rfl⟩, ?_⟩
      · have hrest : rest.countP (waitsFor a.pending.length) = 0 :=
          countP_eq_zero.mpr fun p hp hwaits => absurd (hold p hp _ hwaits) (Nat.lt_irrefl _)
        rw [countP_append, hrest, countP_eq_length.mpr hnew]
        rfl
      · intro o ho
        rw [hl]
        cases hhovers : a.hovers (node.id, o) with
        | some text =>
          refine .inl ?_
          simp only [hhovers]
          split <;> rfl
        | none =>
          have hlacks : o ∈ candidates ∧ (a.hovers (node.id, o)).isNone := ⟨ho, by simp [hhovers]⟩
          cases hplace : hoverPlace v index nodeFile node o with
          | none =>
            refine .inl ?_
            simp only [mem_nowhereHovered.mpr ⟨hlacks, hplace⟩, and_self, if_true, isSome_some]
          | some position =>
            refine .inr ⟨⟨nodeFile, position, .overloadHover a.pending.length (.candidate node.id o) l.file⟩, ?_, l.file, rfl⟩
            refine mem_append_left _ (mem_cons_of_mem _ (mem_filterMap.mpr ?_))
            exact ⟨(o, _), mem_candidateHovers.mpr ⟨hlacks, rfl⟩, by simp [hplace]⟩

def heardCall (p : PendingOverload) (hover : Hovered) (text : List Char) : PendingOverload where
  landing := p.landing
  candidates := p.candidates
  call := match hover with
    | .call => some text
    | .candidate _ _ => p.call
  waiting := p.waiting - 1

def heardHovers (a : Answers) (hover : Hovered) (text : List Char) : String × Int → Option (List Char) :=
  match hover with
  | .call => a.hovers
  | .candidate node ordinal => Function.update a.hovers (node, ordinal) (some text)

section

variable {i : Nat} {p : PendingOverload} (hp : a.pending[i]? = some (some p))

include hp

theorem hovered_eq (hover : Hovered) (text : Option (List Char)) :
    a.hovered v i hover text =
      if 0 < p.waiting - 1 then
        { a with
          hovers := a.heardHovers hover (text.getD [])
          pending := a.pending.set i (some (heardCall p hover (text.getD []))) }
      else
        ({ a with hovers := a.heardHovers hover (text.getD []), pending := a.pending.set i none }).applyOps v
          (concludeOps p.landing
            (({ a with hovers := a.heardHovers hover (text.getD []) }).matching v (heardCall p hover (text.getD [])))) := by
  unfold hovered
  rw [hp]
  cases hover with
  | call =>
    simp only [conclude_eq]
    rfl
  | candidate node ordinal =>
    simp only [conclude_eq]
    rfl

theorem hoverOps_eq (hover : Hovered) (text : Option (List Char)) :
    a.hoverOps v i hover text =
      if 0 < p.waiting - 1 then []
      else concludeOps p.landing
        (({ a with hovers := a.heardHovers hover (text.getD []) }).matching v (heardCall p hover (text.getD []))) := by
  unfold hoverOps
  rw [hp]
  cases hover with
  | call => rfl
  | candidate node ordinal => rfl

end

variable {i : Nat} {p : PendingOverload} {hover : Hovered} {f : String} {text : List Char}

/-- A heard hover is one text less to wait for. -/
theorem Waits.heard (h : Waits server (q :: rest) a i p) (hask : q.ask = .overloadHover i hover f)
    (htext : text = hoverText v index server p hover) :
    (heardCall p hover text).waiting = rest.countP (waitsFor i) ∧
    ((heardCall p hover text).call = some (server.callHover p.landing) ∨
      ∃ q ∈ rest, ∃ f, q.ask = .overloadHover i .call f) ∧
    ∀ o ∈ p.candidates, (a.heardHovers hover text (p.landing.nodeId, o)).isSome ∨
      ∃ q ∈ rest, ∃ f, q.ask = .overloadHover i (.candidate p.landing.nodeId o) f := by
  have hwaits : q.waitsFor i := waitsFor_iff.mpr ⟨hover, f, hask⟩
  have hcount := h.waiting
  rw [countP_cons_of_pos hwaits] at hcount
  have hone : (heardCall p hover text).waiting = p.waiting - 1 := rfl
  refine ⟨by omega, ?_, ?_⟩
  · cases hover with
    | call => exact .inl (by rw [heardCall, htext]; rfl)
    | candidate node ordinal =>
      refine h.call.imp_right fun ⟨p', hp', f', hask'⟩ => ⟨p', ?_, f', hask'⟩
      rcases mem_cons.mp hp' with rfl | hp'
      · cases hask.symm.trans hask'
      · exact hp'
  · intro o ho
    rcases h.candidates o ho with hsome | ⟨p', hp', f', hask'⟩
    · refine .inl ?_
      cases hover with
      | call => exact hsome
      | candidate node ordinal =>
        simp only [heardHovers, Function.update_apply]
        split
        · rfl
        · exact hsome
    · rcases mem_cons.mp hp' with rfl | hp'
      · cases hask.symm.trans hask'
        exact .inl (by simp [heardHovers])
      · exact .inr ⟨p', hp', f', hask'⟩

variable (h : Awaits v index server (q :: rest) a) (htext : text = hoverText v index server p hover)

include h htext

theorem Awaits.heardHovers (node : String) (ordinal : Int) (shown : List Char)
    (hshown : a.heardHovers hover text (node, ordinal) = some shown) : shown = server.candidateHover v index node ordinal := by
  cases hover with
  | call => exact h.hovers node ordinal shown hshown
  | candidate node' ordinal' =>
    simp only [Answers.heardHovers, Function.update_apply] at hshown
    split at hshown
    next hk =>
      obtain ⟨rfl, rfl⟩ := Prod.mk.inj hk
      rw [← some.inj hshown, htext]
      rfl
    next => exact h.hovers node ordinal shown hshown

variable (hask : q.ask = .overloadHover i hover f) (hp : a.pending[i]? = some (some p))

include hask hp

/-- After a hover the open ones are again those that the pending calls wait for. -/
theorem Awaits.hear {left : Option PendingOverload}
    (hleft : left = some (heardCall p hover text) ∧ 0 < p.waiting - 1 ∨ left = none ∧ ¬0 < p.waiting - 1)
    (hb : b.hovers = a.heardHovers hover text ∧ b.pending = a.pending.set i left) : Awaits v index server rest b := by
  have hlt := (List.getElem?_eq_some_iff.mp hp).1
  obtain ⟨hwaiting, hcall, hcandidates⟩ := (h.pending i p hp).heard hask htext
  have hkeeps : ∀ k, (a.hovers k).isSome → (b.hovers k).isSome := by
    intro k hk
    rw [hb.1]
    cases hover with
    | call => exact hk
    | candidate node ordinal =>
      simp only [Answers.heardHovers, Function.update_apply]
      split
      · rfl
      · exact hk
  refine ⟨fun node ordinal shown => hb.1 ▸ h.heardHovers htext node ordinal shown, ?_, ?_⟩
  · intro q' hq' j hover' f' hask'
    obtain ⟨p', hp', htext'⟩ := h.hover q' (mem_cons_of_mem q hq') j hover' f' hask'
    rw [hb.2]
    by_cases hj : i = j
    · subst hj
      obtain rfl := some.inj (some.inj (hp.symm.trans hp'))
      rcases hleft with ⟨rfl, _⟩ | ⟨_, hlast⟩
      · refine ⟨_, by rw [getElem?_set_self hlt], htext'.trans ?_⟩
        cases hover' <;> rfl
      · have hpositive : 0 < rest.countP (waitsFor i) :=
          countP_pos_iff.mpr ⟨q', hq', waitsFor_iff.mpr ⟨hover', f', hask'⟩⟩
        rw [← hwaiting] at hpositive
        exact absurd hpositive hlast
    · exact ⟨p', by rw [getElem?_set_ne hj]; exact hp', htext'⟩
  · intro j p' hp'
    rw [hb.2] at hp'
    by_cases hj : i = j
    · subst hj
      rw [getElem?_set_self hlt] at hp'
      rcases hleft with ⟨rfl, hmore⟩ | ⟨rfl, _⟩
      · cases (some.inj hp')
        exact ⟨hwaiting, hmore, hcall, by rw [hb.1]; exact hcandidates⟩
      · cases hp'
    · rw [getElem?_set_ne hj] at hp'
      have hother : q.waitsFor j = false := by
        refine Bool.eq_false_iff.mpr fun hwaits => ?_
        obtain ⟨hover', f', hask'⟩ := waitsFor_iff.mp hwaits
        exact hj (Ask.overloadHover.inj (hask.symm.trans hask')).1
      refine (h.pending j p' hp').congr (countP_waitsFor_cons hother).symm ?_ hkeeps
      intro q' hq' hwaits
      rcases mem_cons.mp hq' with rfl | hq'
      · rw [hother] at hwaits
        exact absurd hwaits Bool.false_ne_true
      · exact hq'

/-- The last hover of a call singles out what the server's texts single out. -/
theorem Awaits.matching (hlast : ¬0 < p.waiting - 1) :
    ({ a with hovers := a.heardHovers hover text } : Answers).matching v (heardCall p hover text) =
      server.singledOut v index p.landing p.candidates := by
  obtain ⟨hwaiting, hcall, hcandidates⟩ := (h.pending i p hp).heard hask htext
  have hnone : ∀ q' ∈ rest, ∀ hover' f', q'.ask ≠ .overloadHover i hover' f' := by
    intro q' hq' hover' f' hask'
    have hpositive : 0 < rest.countP (waitsFor i) :=
      countP_pos_iff.mpr ⟨q', hq', waitsFor_iff.mpr ⟨hover', f', hask'⟩⟩
    rw [← hwaiting] at hpositive
    exact hlast hpositive
  have hcall' : (heardCall p hover text).call = some (server.callHover p.landing) :=
    hcall.resolve_right fun ⟨q', hq', f', hask'⟩ => hnone q' hq' _ f' hask'
  have hshown : ∀ o ∈ p.candidates, a.heardHovers hover text (p.landing.nodeId, o) =
      some (server.candidateHover v index p.landing.nodeId o) := by
    intro o ho
    obtain ⟨shown, hsome⟩ := isSome_iff_exists.mp
      ((hcandidates o ho).resolve_right fun ⟨q', hq', f', hask'⟩ => hnone q' hq' _ f' hask')
    rw [hsome, h.heardHovers htext _ _ shown hsome]
  have hfilter : (heardCall p hover text).candidates.filter (fun ordinal =>
      (a.heardHovers hover text ((heardCall p hover text).landing.nodeId, ordinal)).any fun declared =>
        hoverMatches v.alphanumeric declared ((heardCall p hover text).call.getD [])) =
      p.candidates.filter fun ordinal => hoverMatches v.alphanumeric
        (server.candidateHover v index p.landing.nodeId ordinal) (server.callHover p.landing) := by
    refine filter_congr fun o ho => ?_
    rw [hcall', show (heardCall p hover text).landing = p.landing from rfl, hshown o ho]
    rfl
  exact congrArg onlyOne hfilter

end Answers

end GMesh
