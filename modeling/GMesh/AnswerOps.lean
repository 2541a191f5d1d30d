import GMesh.BridgeAnswers

namespace GMesh

open Answers

/-- One edge that an answer records, and what a bound overload call books with it. -/
structure RecordOp where
  forFile : String
  inFile : String
  fromId : String
  kind : EdgeKind
  name : String
  range : TextRange
  target : PlaceholderTargetRecord
  declaration : String
  toDeclaration : Option Int := none
  boundAt : Option (String × TextPosition) := none
  deriving DecidableEq, Repr

inductive AnswerOp
  | record (r : RecordOp)
  | uphold (edge : String) (agreed : Option Confirmed)
  | contradict (edge : String)
  | untyped (call : String × String)
  deriving DecidableEq, Repr

namespace Answers

variable (v : ServerView) (index : SdkIndex)

def applyRecord (a : Answers) (r : RecordOp) : Answers :=
  let (b, id) := a.record v r.forFile r.inFile r.fromId r.kind r.name r.range r.target r.declaration r.toDeclaration
  match r.boundAt with
  | some (replaced, position) => { b with overloadBound := b.overloadBound.put ⟨replaced, position, id⟩ }
  | none => b

def applyOp (a : Answers) : AnswerOp → Answers
  | .record r => a.applyRecord v r
  | .uphold edge agreed => { a with upheld := edge :: a.upheld, confirmed := a.confirmed ++ agreed.toList }
  | .contradict edge => { a with contradicted := edge :: a.contradicted, retract := edge :: a.retract }
  | .untyped call => { a with untypedAnswered := call :: a.untypedAnswered }

def applyOps (ops : List AnswerOp) (a : Answers) : Answers := ops.foldl (applyOp v) a

/-- The books without the hovers that are still awaited. -/
def ledger (a : Answers) : Answers := { a with pending := [], hovers := fun _ => none }

def concludeOps (l : OverloadLanding) (ordinal : Option Int) : List AnswerOp :=
  if l.site.kind = .overloadCall ∧ ordinal = none then []
  else
    [.record
      { forFile := l.file, inFile := l.file, fromId := l.site.fromId, kind := l.site.edgeKind, name := l.nodeName,
        range := l.range, target := l.address, declaration := l.nodeId, toDeclaration := ordinal,
        boundAt := if l.site.kind = .overloadCall then l.site.replaces.map fun r => (r, l.site.position) else none }]

def bindOps (config : SemanticConfig) (l : OverloadLanding) (node : DeclaredRecord) (ordinals : List Int) :
    List AnswerOp :=
  match chooseOverload node ordinals config.overloadDisambiguation with
  | .bound ordinal => concludeOps l (some ordinal)
  | .unbound => concludeOps l none
  | .hover _ => []

def implementorOps (anchor forFile : String) (l : ServerLocation) : Option (List AnswerOp) :=
  (index.node anchor).bind fun anchorNode => (v.nodeAt index l).bind fun landing =>
    if landing.node.id = anchorNode.id then some []
    else if landing.node.kind ≠ .type then none
    else if supertypeReaches index landing.path landing.node.id anchorNode then some []
    else some [.record
      { forFile, inFile := landing.path, fromId := landing.node.id, kind := .supertypeOf, name := anchorNode.name,
        range := siteRange none landing.node.range.start anchorNode.name,
        target := addressOf anchorNode landing.node.container, declaration := anchorNode.id }]

def hopTo (anchor forFile : String) (l : ServerLocation) : Option Question :=
  if (implementorOps v index anchor forFile l).isSome then none
  else (v.fileAt index l).map fun path => ⟨path, v.wirePosition index path l, .implementor anchor forFile⟩

def definitionOps (file : String) (site : OpenSite) (found : List ServerLocation) : List AnswerOp :=
  (if v.untypedCallAnswered index site found (v.definitionTarget index site found).isSome then
    [.untyped (site.fromId, site.name)] else []) ++
  match v.definitionLanding index file site found with
  | none => site.replaces.toList.map (.uphold · none)
  | some l =>
    if site.replaces.any (agreesWith v index file site l.node) then
      site.replaces.toList.map fun r => .uphold r (some ⟨r, site.fromId, site.edgeKind, l.node.id⟩)
    else
      .record
        { forFile := file, inFile := file, fromId := site.fromId, kind := site.edgeKind, name := l.node.name,
          range := siteRange (index.source file) site.position site.name,
          target := addressOf l.node site.fromContainer, declaration := l.node.id } ::
        site.replaces.toList.map .contradict

/-- What a hover answer does: nothing, unless its overload call waits for it alone. -/
def hoverOps (a : Answers) (pending : Nat) (hover : Hovered) (text : Option (List Char)) : List AnswerOp :=
  match a.pending[pending]? with
  | some (some p) =>
    let p := match hover with
      | .call => { p with call := some (text.getD []) }
      | .candidate _ _ => p
    let a := match hover with
      | .call => a
      | .candidate node ordinal => { a with hovers := Function.update a.hovers (node, ordinal) (some (text.getD [])) }
    if 0 < p.waiting - 1 then [] else concludeOps p.landing (a.matching v p)
  | _ => []

end Answers

/-- The untyped receiver call of a definition answer that lands on an overload set. -/
def ServerView.overloadedCall (v : ServerView) (index : SdkIndex) (site : OpenSite) (found : List ServerLocation) :
    Option (Landing × List Int) :=
  (v.overloadLanding index found).filter fun l =>
    decide (site.kind = .receiverCall) && site.replaces.isNone && !l.1.node.declarations.isEmpty

/-- Where an overload answer lands that agrees with the edge its site refines. -/
def ServerView.refinedCall (v : ServerView) (index : SdkIndex) (file : String) (site : OpenSite)
    (found : List ServerLocation) : Option (Landing × List Int) :=
  (v.overloadLanding index found).filter fun l =>
    site.replaces.any fun replaced => v.refines index file site replaced l.1.node

def answerOps (v : ServerView) (config : SemanticConfig) (index : SdkIndex) (a : Answers) (q : Question)
    (answer : ServerAnswer) : List AnswerOp :=
  match q.ask with
  | .definition site =>
    match v.overloadedCall index site answer.locations with
    | some (l, ordinals) => .untyped (site.fromId, site.name) ::
        bindOps config (overloadLandingOf index q.file site l.node) l.node ordinals
    | none => definitionOps v index q.file site answer.locations
  | .implementation anchor =>
    answer.locations.flatMap fun l => (implementorOps v index anchor q.file l).getD []
  | .implementor anchor forFile =>
    answer.locations.flatMap fun l => (implementorOps v index anchor forFile l).getD []
  | .overload site =>
    match v.refinedCall index q.file site answer.locations with
    | some (l, ordinals) => bindOps config (overloadLandingOf index q.file site l.node) l.node ordinals
    | none => []
  | .overloadHover pending hover _ => a.hoverOps v pending hover answer.hover

namespace Answers

variable {v : ServerView} {config : SemanticConfig} {index : SdkIndex} {a : Answers} (ops : List AnswerOp)
  (l : OverloadLanding)

@[simp] theorem applyOps_nil : a.applyOps v [] = a := rfl

@[simp] theorem applyOps_cons (op : AnswerOp) (ops : List AnswerOp) :
    a.applyOps v (op :: ops) = (a.applyOp v op).applyOps v ops := rfl

theorem applyOps_append (ops' : List AnswerOp) : a.applyOps v (ops ++ ops') = (a.applyOps v ops).applyOps v ops' :=
  List.foldl_append

theorem record_ledger (v : ServerView) (a : Answers) (forFile inFile fromId : String) (kind : EdgeKind) (name : String)
    (range : TextRange) (target : PlaceholderTargetRecord) (declaration : String) (toDeclaration : Option Int) :
    a.ledger.record v forFile inFile fromId kind name range target declaration toDeclaration =
      ((a.record v forFile inFile fromId kind name range target declaration toDeclaration).1.ledger,
        (a.record v forFile inFile fromId kind name range target declaration toDeclaration).2) := by
  unfold record
  by_cases hseen : edgeId v.digest fromId kind (a.holdPlaceholder v inFile name range target).2 toDeclaration ∈ a.seen
  · rw [if_pos hseen]
    exact if_pos hseen
  · rw [if_neg hseen]
    exact if_neg hseen

theorem applyOp_ledger (op : AnswerOp) : (a.applyOp v op).ledger = a.ledger.applyOp v op := by
  cases op with
  | record r =>
    simp only [applyOp, applyRecord, record_ledger]
    split <;> rfl
  | uphold | contradict | untyped => rfl

theorem applyOps_ledger : (a.applyOps v ops).ledger = a.ledger.applyOps v ops := by
  induction ops generalizing a with
  | nil => rfl
  | cons _ _ ih => rw [applyOps_cons, ih, applyOp_ledger, applyOps_cons]

theorem conclude_eq (ordinal : Option Int) : a.conclude v l ordinal = a.applyOps v (concludeOps l ordinal) := by
  unfold conclude concludeOps
  by_cases hopen : l.site.kind = .overloadCall ∧ ordinal = none
  · rw [if_pos hopen, if_pos hopen]
    rfl
  · rw [if_neg hopen, if_neg hopen]
    cases hkind : l.site.kind <;> cases hreplaces : l.site.replaces <;> rfl

theorem bindOverload_ledger (node : DeclaredRecord) (nodeFile : String) (ordinals : List Int) :
    (a.bindOverload v config index l node nodeFile ordinals).1.ledger =
      a.ledger.applyOps v (bindOps config l node ordinals) := by
  unfold bindOverload bindOps
  cases chooseOverload node ordinals config.overloadDisambiguation with
  | bound ordinal => simp only [conclude_eq, applyOps_ledger]
  | unbound => simp only [conclude_eq, applyOps_ledger]
  | hover candidates => rfl

theorem hovered_ledger (pending : Nat) (hover : Hovered) (text : Option (List Char)) :
    (a.hovered v pending hover text).ledger = a.ledger.applyOps v (a.hoverOps v pending hover text) := by
  unfold hovered hoverOps
  cases hp : a.pending[pending]? with
  | none => rfl
  | some o =>
    cases o with
    | none => rfl
    | some p =>
      cases hover with
      | call | candidate =>
        simp only
        split
        · rfl
        · rw [conclude_eq, applyOps_ledger]
          rfl

theorem recordImplementor_eq (anchor forFile : String) (l : ServerLocation) :
    a.recordImplementor v index anchor forFile l =
      (implementorOps v index anchor forFile l).map fun ops => a.applyOps v ops := by
  unfold recordImplementor implementorOps
  cases index.node anchor with
  | none => rfl
  | some anchorNode =>
    cases v.nodeAt index l with
    | none => rfl
    | some landing =>
      simp only [Option.bind_some]
      split
      · rfl
      · split
        · rfl
        · split <;> rfl

theorem recordImplementors_eq (anchor file : String) (found : List ServerLocation) :
    recordImplementors v index anchor file found a =
      (a.applyOps v (found.flatMap fun l => (implementorOps v index anchor file l).getD []),
        found.filterMap (hopTo v index anchor file)) := by
  induction found generalizing a with
  | nil => rfl
  | cons l _ ih =>
    rw [recordImplementors, recordImplementor_eq, List.flatMap_cons, applyOps_append, List.filterMap_cons]
    unfold hopTo
    cases hops : implementorOps v index anchor file l with
    | some ops =>
      simp only [Option.map_some, ih]
      rfl
    | none =>
      simp only [Option.map_none, ih]
      cases v.fileAt index l <;> rfl

theorem recordDefinition_eq (file : String) (site : OpenSite) (found : List ServerLocation) :
    a.recordDefinition v index file site found = a.applyOps v (definitionOps v index file site found) := by
  unfold recordDefinition definitionOps
  rw [applyOps_append]
  have huntyped : (if v.untypedCallAnswered index site found (v.definitionTarget index site found).isSome then
      { a with untypedAnswered := (site.fromId, site.name) :: a.untypedAnswered } else a) =
      a.applyOps v (if v.untypedCallAnswered index site found (v.definitionTarget index site found).isSome then
        [.untyped (site.fromId, site.name)] else []) := by
    split <;> rfl
  simp only [huntyped]
  cases v.definitionLanding index file site found with
  | none => cases hr : site.replaces <;> simp [applyOp]
  | some l =>
    simp only
    split
    · cases hr : site.replaces <;> simp [applyOp]
    · cases hr : site.replaces <;> simp [applyOp, applyRecord]

variable {q : Question} {site : OpenSite} {anchor : String}

theorem recordAnswer_definition (hask : q.ask = .definition site) (a : Answers)
    (answer : ServerAnswer) :
    recordAnswer v config index a q answer =
      match v.overloadedCall index site answer.locations with
      | some (l, ordinals) =>
        { a with untypedAnswered := (site.fromId, site.name) :: a.untypedAnswered }.bindOverload v config index
          (overloadLandingOf index q.file site l.node) l.node l.path ordinals
      | none => (a.recordDefinition v index q.file site answer.locations, []) := by
  unfold recordAnswer
  rw [hask]
  rfl

theorem recordAnswer_overload (hask : q.ask = .overload site) (a : Answers)
    (answer : ServerAnswer) :
    recordAnswer v config index a q answer =
      match v.refinedCall index q.file site answer.locations with
      | some (l, ordinals) =>
        a.bindOverload v config index (overloadLandingOf index q.file site l.node) l.node l.path ordinals
      | none => (a, []) := by
  unfold recordAnswer
  rw [hask]
  rfl

theorem recordAnswer_implementor {forFile : String} (hask : q.ask = .implementor anchor forFile)
    (a : Answers) (answer : ServerAnswer) :
    recordAnswer v config index a q answer =
      (a.applyOps v (answer.locations.flatMap fun l => (implementorOps v index anchor forFile l).getD []), []) := by
  have hfold : ∀ (found : List ServerLocation) (b : Answers),
      found.foldl (fun a l => (a.recordImplementor v index anchor forFile l).getD a) b =
        b.applyOps v (found.flatMap fun l => (implementorOps v index anchor forFile l).getD []) := by
    intro found
    induction found with
    | nil => exact fun b => rfl
    | cons l _ ih =>
      intro b
      rw [List.foldl_cons, ih, List.flatMap_cons, applyOps_append, recordImplementor_eq]
      cases implementorOps v index anchor forFile l <;> rfl
  unfold recordAnswer
  rw [hask]
  simp only [hfold]

theorem recordAnswer_implementation (hask : q.ask = .implementation anchor) (a : Answers)
    (answer : ServerAnswer) :
    recordAnswer v config index a q answer = recordImplementors v index anchor q.file answer.locations a := by
  simp only [recordAnswer, hask]

/-- What an answer does to the books is what its operations do, the awaited hovers apart. -/
theorem recordAnswer_ledger (a : Answers) (q : Question) (answer : ServerAnswer) :
    (recordAnswer v config index a q answer).1.ledger = a.ledger.applyOps v (answerOps v config index a q answer) := by
  unfold answerOps
  cases hask : q.ask with
  | definition site =>
    rw [recordAnswer_definition hask]
    dsimp only
    cases v.overloadedCall index site answer.locations with
    | some l => exact bindOverload_ledger _ _ _ _
    | none =>
      rw [recordDefinition_eq, applyOps_ledger]
  | implementation anchor =>
    rw [recordAnswer_implementation hask, recordImplementors_eq, applyOps_ledger]
  | implementor anchor forFile => rw [recordAnswer_implementor hask, applyOps_ledger]
  | overload site =>
    rw [recordAnswer_overload hask]
    dsimp only
    cases v.refinedCall index q.file site answer.locations with
    | some l => exact bindOverload_ledger _ _ _ _
    | none => rfl
  | overloadHover pending hover =>
    have hrecord : recordAnswer v config index a q answer = (a.hovered v pending hover answer.hover, []) := by
      unfold recordAnswer
      rw [hask]
    rw [hrecord, hovered_ledger]

end Answers

end GMesh
