import GMesh.PassBooks

namespace GMesh

open List

namespace PassState

variable {v : ServerView} {config : SemanticConfig} {index : SdkIndex} {budgets : Budgets} {s : PassState} {t : Turn}
  {q p : Question} {file : String}

/-- What the steps keep that hand nothing on. -/
structure Passes (s s' : PassState) : Prop where
  answers : s'.answers = s.answers
  questions : ∀ p ∈ s'.openQuestions, p ∈ s.openQuestions
  touched : ∀ f ∈ s'.touchedFiles, f ∈ s.touchedFiles ∨ ∃ p ∈ s.openQuestions, p.accountedTo = f

theorem Passes.refl (s : PassState) : s.Passes s := ⟨rfl, fun _ hp => hp, fun _ hf => .inl hf⟩

theorem Passes.trans {a b c : PassState} (h : a.Passes b) (h' : b.Passes c) : a.Passes c where
  answers := h'.answers.trans h.answers
  questions p hp := h.questions p (h'.questions p hp)
  touched f hf := by
    rcases h'.touched f hf with hf | ⟨p, hp, rfl⟩
    · exact h.touched f hf
    · exact .inr ⟨p, h.questions p hp, rfl⟩

theorem passes_requeue (quiet : Bool) : s.Passes (s.requeue quiet) where
  answers := by unfold requeue; split <;> rfl
  questions p hp := (openQuestions_requeue quiet).mem_iff.mpr hp
  touched f hf := by
    unfold requeue at hf
    split at hf <;> exact .inl hf

section

variable {rest : List Question} (hq : s.queue = q :: rest)

include hq

theorem passes_ask : s.Passes (s.ask q rest) where
  answers := rfl
  questions p hp := (openQuestions_ask hq).mem_iff.mpr hp
  touched f hf := by
    rcases mem_cons.mp hf with rfl | hf
    · exact .inr ⟨q, by simp [openQuestions, hq], rfl⟩
    · exact .inl hf

theorem passes_breakOff {exits : Bool} : s.Passes (s.breakOff q exits) where
  answers := rfl
  questions p hp := by
    exact mem_append_right _ hp
  touched f hf := by
    rcases mem_cons.mp hf with rfl | hf
    · exact .inr ⟨q, by simp [openQuestions, hq], rfl⟩
    · exact .inl hf

end

theorem passes_fill {exits : Bool} {room : Nat} {broken : Option Nat} : s.Passes (s.fill exits room broken) := by
  induction room generalizing s broken with
  | zero => exact .refl s
  | succ room ih =>
    rw [PassState.fill]
    split
    next => exact .refl s
    next q rest hq =>
      split
      next => exact passes_breakOff hq
      next => exact (passes_ask hq).trans ih
      next => exact (passes_ask hq).trans ih

theorem passes_of_subset {s' : PassState} (ha : s'.answers = s.answers) (ht : s'.touchedFiles = s.touchedFiles)
    (ho : ∀ p ∈ s'.openQuestions, p ∈ s.openQuestions) : s.Passes s' :=
  ⟨ha, ho, fun _ hf => .inl (ht ▸ hf)⟩

theorem passes_defer {id : Nat} (hq : s.asked? id = some q) : s.Passes ((s.land id).defer q) := by
  refine passes_of_subset rfl rfl fun p hp => (openQuestions_land hq).mem_iff.mpr ?_
  simp only [openQuestions, defer, land, mem_append, mem_cons, not_mem_nil, or_false] at hp ⊢
  tauto

/-- A wait that brings no answer to hand on changes no book. -/
theorem passes_receive (hnone : s.polled t = none) : s.Passes (s.receive v config index t.poll t.quietAfter) := by
  unfold polled at hnone
  unfold receive
  split
  next id answer hp =>
    rw [hp] at hnone
    split
    next => exact .refl s
    next q hq =>
      split
      next => exact passes_defer hq
      next hd => simp [hq, Option.filter_some, hd] at hnone
  next id contentModified =>
    split
    next => exact .refl s
    next q hq =>
      split
      next => exact passes_defer hq
      next =>
        refine passes_of_subset rfl rfl fun p hp => (openQuestions_land hq).mem_iff.mpr ?_
        exact mem_cons_of_mem q hp
  next => exact .refl s
  next expired _ =>
    simp only [retire]
    split
    next => exact .refl s
    next => exact passes_of_subset rfl rfl fun p hp =>
      (openQuestions_split s expired).mem_iff.mpr (mem_append_left _ hp)
  next =>
    refine passes_of_subset rfl rfl fun p hp => ?_
    simp only [openQuestions, close, stop, fail, failFiles, map_nil, nil_append, append_nil] at hp
    exact mem_append_right _ (mem_append_left _ hp)

/-- A round hands one open question on and adds what that returns, or hands nothing on. -/
theorem round_does (v : ServerView) (config : SemanticConfig) (index : SdkIndex) (budgets : Budgets) (s : PassState)
    (t : Turn) :
    (handedIn budgets s t = none ∧ s.Passes (s.round v config index budgets t)) ∨
    ∃ q answer, handedIn budgets s t = some (q, answer) ∧ q ∈ s.openQuestions ∧
      (s.round v config index budgets t).answers = (recordAnswer v config index s.answers q answer).1 ∧
      (∀ p ∈ (s.round v config index budgets t).openQuestions,
        p ∈ s.openQuestions ∨ p ∈ (recordAnswer v config index s.answers q answer).2) ∧
      ∀ f ∈ (s.round v config index budgets t).touchedFiles,
        f ∈ s.touchedFiles ∨ ∃ p ∈ s.openQuestions, p.accountedTo = f := by
  have hfill : s.Passes (s.filled budgets t) := (passes_requeue t.quiet).trans passes_fill
  unfold round handedIn
  cases hrun : s.running with
  | false => exact .inl ⟨by simp, by simpa using Passes.refl s⟩
  | true =>
    simp only [if_true, true_and]
    unfold settleRound
    by_cases hempty : (s.filled budgets t).inFlight = []
    · refine .inl ⟨by simp [polled_none hempty], hfill.trans ?_⟩
      split
      next => exact passes_of_subset rfl rfl fun p hp => hp
      next =>
        split
        next => exact passes_of_subset rfl rfl fun p hp => by simp [openQuestions, giveUp, stop, fail, failFiles] at hp
        next =>
          split
          next =>
            refine passes_of_subset rfl rfl fun p hp => ?_
            simp only [openQuestions, closeDeferred, stop, fail, failFiles, mem_append, not_mem_nil, false_or] at hp ⊢
            tauto
          next => exact .refl _
    · simp only [hempty, false_and, if_false]
      cases hd : t.pastDeadline with
      | true =>
        refine .inl ⟨by simp, hfill.trans ?_⟩
        exact passes_of_subset rfl rfl fun p hp => by simp [openQuestions, giveUp, stop, fail, failFiles] at hp
      | false =>
        cases hpoll : (s.filled budgets t).polled t with
        | none => exact .inl ⟨by simp, by simpa using hfill.trans (passes_receive hpoll)⟩
        | some h =>
          obtain ⟨q, answer⟩ := h
          refine .inr ⟨q, answer, by simp, ?_⟩
          unfold polled at hpoll
          split at hpoll
          next id given hp =>
            obtain ⟨q', hq', heq⟩ := Option.map_eq_some_iff.mp hpoll
            cases heq
            obtain ⟨hasked, hnot⟩ := Option.filter_eq_some_iff.mp hq'
            have hnotd : (s.filled budgets t).isDeferred q answer t.quietAfter = false := by simpa using hnot
            have hrec : (s.filled budgets t).receive v config index t.poll t.quietAfter =
                ((s.filled budgets t).land id).hand v config index q answer := by
              simp only [receive, hp, hasked, hnotd, Bool.false_eq_true, if_false]
            have hans : ((s.filled budgets t).land id).answers = s.answers := hfill.answers
            simp only [Bool.false_eq_true, if_false, hrec]
            refine ⟨hfill.questions q ((openQuestions_land hasked).mem_iff.mpr mem_cons_self), ?_, ?_, ?_⟩
            · simp only [hand, hans]
            · intro p hp
              rcases mem_append.mp ((openQuestions_hand q answer).mem_iff.mp hp) with hp | hp
              · exact .inr (hans ▸ hp)
              · exact .inl (hfill.questions p ((openQuestions_land hasked).mem_iff.mpr (mem_cons_of_mem q hp)))
            · exact fun f hf => hfill.touched f hf
          next => simp at hpoll

end PassState

open Option

/-- Whether a location is the anchor or a type, and so needs no second hop. -/
def ServerView.namesImplementor (v : ServerView) (index : SdkIndex) (anchor : String) (l : ServerLocation) : Bool :=
  (index.node anchor).any fun a => (v.nodeAt index l).any fun landing =>
    decide (landing.node.id = a.id ∨ landing.node.kind = .type)

def HopSpares (v : ServerView) (index : SdkIndex) (file : String) (q : Question) (answer : ServerAnswer) : Prop :=
  ∀ anchor, q.ask = .implementation anchor → ∀ l ∈ answer.locations, v.fileAt index l = some file →
    v.namesImplementor index anchor l = true

/-- A question that is not of a file nor remembered for it, and whose site names only the given edges. -/
structure Question.Clear (file : String) (named : List String) (q : Question) : Prop where
  accounted : q.accountedTo ≠ file
  remembered : q.rememberedFor ≠ file
  replaces : ∀ site, q.ask = .definition site → ∀ x ∈ site.replaces, x ∈ named

/-- Answers that remember nothing for a file and retract only the given edges. -/
structure Answers.Clear (file : String) (named : List String) (a : Answers) : Prop where
  byFile : ∀ e ∈ a.byFile, e.1 ≠ file
  pending : ∀ p, some p ∈ a.pending → p.landing.file ≠ file
  retract : ∀ x ∈ a.retract, x ∈ named

namespace Answers

variable {v : ServerView} {config : SemanticConfig} {index : SdkIndex} {a : Answers} {file forFile : String}
  {named : List String} {q : Question} {l : OverloadLanding}

theorem Clear.record (v : ServerView) (inFile fromId : String) (kind : EdgeKind) (name : String) (range : TextRange)
    (target : PlaceholderTargetRecord) (declaration : String) (toDeclaration : Option Int) (h : a.Clear file named)
    (hf : forFile ≠ file) :
    (a.record v forFile inFile fromId kind name range target declaration toDeclaration).1.Clear file named := by
  unfold Answers.record
  simp only
  split
  · exact ⟨h.byFile, h.pending, h.retract⟩
  · refine ⟨?_, h.pending, h.retract⟩
    intro e he
    rcases mem_append.mp he with he | he
    · exact h.byFile e he
    · rw [mem_singleton.mp he]
      exact hf

theorem Clear.conclude {ordinal : Option Int} (h : a.Clear file named) (hl : l.file ≠ file) :
    (a.conclude v l ordinal).Clear file named := by
  unfold Answers.conclude
  split
  · exact h
  · have hr := h.record v l.file l.site.fromId l.site.edgeKind l.nodeName l.range l.address l.nodeId ordinal hl
    simp only
    split
    · exact ⟨hr.byFile, hr.pending, hr.retract⟩
    · exact hr

theorem Clear.bindOverload {node : DeclaredRecord} {nodeFile : String} {ordinals : List Int}
    (h : a.Clear file named) (hl : l.file ≠ file) :
    (a.bindOverload v config index l node nodeFile ordinals).1.Clear file named ∧
      ∀ p ∈ (a.bindOverload v config index l node nodeFile ordinals).2, p.Clear file named := by
  unfold Answers.bindOverload
  split
  · exact ⟨h.conclude hl, by simp⟩
  · exact ⟨h.conclude hl, by simp⟩
  · refine ⟨⟨h.byFile, ?_, h.retract⟩, ?_⟩
    · intro p hp
      rcases mem_append.mp hp with hp | hp
      · exact h.pending p hp
      · cases (mem_singleton.mp hp)
        exact hl
    · intro p hp
      rcases mem_cons.mp hp with rfl | hp
      · exact ⟨hl, hl, by simp⟩
      · obtain ⟨⟨ordinal, o⟩, hmem, ho⟩ := mem_filterMap.mp hp
        obtain ⟨_, _, heq⟩ := mem_map.mp hmem
        obtain ⟨_, hsome⟩ := Prod.mk.inj heq
        rw [show o = some p from ho] at hsome
        obtain ⟨position, _, rfl⟩ := map_eq_some_iff.mp hsome
        exact ⟨hl, hl, by simp⟩

theorem Clear.hovered {pending : Nat} {hover : Hovered} {text : Option (List Char)} (h : a.Clear file named) :
    (a.hovered v pending hover text).Clear file named := by
  unfold Answers.hovered
  split
  next p hp =>
    have hmem : some p ∈ a.pending := mem_of_getElem? hp
    have hfile := h.pending p hmem
    have hset : ∀ (o : Option PendingOverload) x, some x ∈ a.pending.set pending o → some x ∈ a.pending ∨ o = some x := by
      intro o x hx
      rcases mem_or_eq_of_mem_set hx with hx | hx
      · exact .inl hx
      · exact .inr hx.symm
    cases hover with
    | call | candidate =>
      simp only
      split
      · refine ⟨h.byFile, fun x hx => ?_, h.retract⟩
        rcases hset _ x hx with hx | hx
        · exact h.pending x hx
        · rw [← some.inj hx]
          exact hfile
      · refine .conclude ⟨h.byFile, fun x hx => ?_, h.retract⟩ hfile
        rcases hset _ x hx with hx | hx
        · exact h.pending x hx
        · simp at hx
  next => exact h

variable {anchor : String}

theorem Clear.recordImplementor {l : ServerLocation} {b : Answers} (h : a.Clear file named) (hf : forFile ≠ file)
    (hb : a.recordImplementor v index anchor forFile l = some b) : b.Clear file named := by
  obtain ⟨anchorNode, _, hb⟩ := bind_eq_some_iff.mp hb
  obtain ⟨landing, _, hb⟩ := bind_eq_some_iff.mp hb
  split at hb
  · exact some.inj hb ▸ h
  · split at hb
    · simp at hb
    · split at hb
      · exact some.inj hb ▸ h
      · exact some.inj hb ▸ h.record v _ _ _ _ _ _ _ _ hf

theorem recordImplementor_none {l : ServerLocation} (h : a.recordImplementor v index anchor forFile l = none) :
    v.namesImplementor index anchor l = false := by
  rw [← Bool.not_eq_true]
  intro hn
  obtain ⟨anchorNode, hanchor, hn⟩ := (any_eq_true _ _).mp hn
  obtain ⟨landing, hlanding, hn⟩ := (any_eq_true _ _).mp hn
  rw [decide_eq_true_iff] at hn
  simp only [recordImplementor, hanchor, hlanding, bind_some] at h
  split at h
  · simp at h
  · next hne =>
    rw [if_neg (by simp [hn.resolve_left hne])] at h
    split at h <;> simp at h

variable {found : List ServerLocation}

theorem Clear.recordImplementors (h : a.Clear file named) (hf : forFile ≠ file)
    (hop : ∀ l ∈ found, v.fileAt index l = some file → v.namesImplementor index anchor l) :
    (recordImplementors v index anchor forFile found a).1.Clear file named ∧
      ∀ p ∈ (recordImplementors v index anchor forFile found a).2, p.Clear file named := by
  induction found generalizing a with
  | nil => exact ⟨h, by simp [Answers.recordImplementors]⟩
  | cons l rest ih =>
    have hrest : ∀ l ∈ rest, v.fileAt index l = some file → v.namesImplementor index anchor l :=
      fun l hl => hop l (mem_cons_of_mem _ hl)
    rw [Answers.recordImplementors]
    split
    next b hb => exact ih (h.recordImplementor hf hb) hrest
    next hnone =>
      obtain ⟨hclear, hagain⟩ := ih h hrest
      simp only
      split
      next => exact ⟨hclear, hagain⟩
      next path hpath =>
        refine ⟨hclear, ?_⟩
        intro p hp
        rcases mem_cons.mp hp with rfl | hp
        · have hne : path ≠ file := by
            rintro rfl
            have hyes := hop l mem_cons_self hpath
            rw [recordImplementor_none hnone] at hyes
            simp at hyes
          exact ⟨hne, hf, by simp⟩
        · exact hagain p hp

theorem Clear.recordDefinition {site : OpenSite} {inFile : String} (h : a.Clear file named) (hf : inFile ≠ file)
    (hsite : ∀ x ∈ site.replaces, x ∈ named) : (a.recordDefinition v index inFile site found).Clear file named := by
  have hcount : (if v.untypedCallAnswered index site found (v.definitionTarget index site found).isSome then
      { a with untypedAnswered := (site.fromId, site.name) :: a.untypedAnswered } else a).Clear file named := by
    split
    · exact ⟨h.byFile, h.pending, h.retract⟩
    · exact h
  unfold Answers.recordDefinition
  simp only
  split
  · exact ⟨hcount.byFile, hcount.pending, hcount.retract⟩
  · split
    · exact ⟨hcount.byFile, hcount.pending, hcount.retract⟩
    · next l _ _ =>
      have hr := hcount.record v inFile site.fromId site.edgeKind l.node.name
        (siteRange (index.source inFile) site.position site.name) (addressOf l.node site.fromContainer) l.node.id none hf
      refine ⟨hr.byFile, hr.pending, ?_⟩
      intro x hx
      rcases mem_append.mp hx with hx | hx
      · exact hsite x (by simpa using hx)
      · exact hr.retract x hx

/-- An answer without a hop into the file keeps the books and the new questions clear of it. -/
theorem Clear.recordAnswer (config : SemanticConfig) {answer : ServerAnswer} (h : a.Clear file named)
    (hq : q.Clear file named) (hop : HopSpares v index file q answer) :
    (recordAnswer v config index a q answer).1.Clear file named ∧
      ∀ p ∈ (recordAnswer v config index a q answer).2, p.Clear file named := by
  have hrem := hq.remembered
  unfold GMesh.recordAnswer
  unfold Question.rememberedFor at hrem
  cases hask : q.ask with
  | definition site =>
    simp only [hask] at hrem
    simp only
    split
    next =>
      refine Clear.bindOverload ⟨h.byFile, h.pending, h.retract⟩ ?_
      exact hrem
    next => exact ⟨h.recordDefinition hrem (hq.replaces site hask), by simp⟩
  | implementation anchor =>
    simp only [hask] at hrem
    exact h.recordImplementors hrem (hop anchor hask)
  | implementor anchor forFile =>
    simp only [hask] at hrem
    refine ⟨?_, by simp⟩
    simp only
    generalize answer.locations = found
    induction found generalizing a with
    | nil => exact h
    | cons l _ ih =>
      rw [foldl_cons]
      refine ih ?_
      cases hb : a.recordImplementor v index anchor forFile l with
      | none => exact h
      | some b => exact h.recordImplementor hrem hb
  | overload site =>
    simp only [hask] at hrem
    simp only
    split
    next => exact h.bindOverload hrem
    next => exact ⟨h, by simp⟩
  | overloadHover => exact ⟨h.hovered, by simp⟩

end Answers

end GMesh
