import GMesh.BridgePass

namespace GMesh

/-- What a bridge keeps between passes: the edge ids it emitted for each file, and the nodes it sent with a shortened
list. -/
structure LspBridge where
  emitted : String → List String := fun _ => []
  trimmed : String → List String := fun _ => []

/-- Whether a pass finds a server that is ready, and what the world then does. -/
inductive Outcome
  | notReady (reason : String)
  | asked (warmedUp : Bool) (nextId : Nat) (turns : List Turn)
  deriving DecidableEq, Repr

inductive Shortfall
  | noSiteAdmitted
  | sitesLeftUnasked
  | notReady (reason : String)
  | pass (failure : PassFailure)
  deriving DecidableEq, Repr

structure SemanticAnswer where
  diff : IndexDiff := {}
  shortfall : Option Shortfall := none
  unfinished : List String := []
  deriving DecidableEq, Repr

structure PassRequest where
  files : List String
  index : SdkIndex
  budgets : Budgets
  outcome : Outcome

namespace PassRequest

/-- The whole project for an empty list, else the indexed ones of the files. -/
def scope (r : PassRequest) : List String :=
  if r.files = [] then r.index.paths
  else ((r.files.filter fun path => (r.index.entry path).isSome).dedup).insertionSort (· ≤ ·)

def plan (config : SemanticConfig) (r : PassRequest) : Questions := questions r.index r.scope config r.budgets

def askedAbout (config : SemanticConfig) (r : PassRequest) : List String :=
  (((r.plan config).asking.map Question.file).dedup).insertionSort (· ≤ ·)

end PassRequest

namespace LspBridge

variable (v : ServerView) (config : SemanticConfig) (b : LspBridge) (r : PassRequest)

def answerNothingAsked : LspBridge × SemanticAnswer :=
  let answers := ({} : Answers).retractStale b.emitted r.scope (fun _ => [])
  let trim := trimUntypedCalls r.index r.scope [] b.trimmed
  ({ emitted := fun file => if file ∈ r.scope then [] else b.emitted file, trimmed := trim.2 },
    { diff := { answers.finish config with upsertNodes := (answers.finish config).upsertNodes ++ trim.1 } })

def finished (s : PassState) : List String := s.covered.filter fun file => decide (file ∈ r.askedAbout config)

def answerRun (s : PassState) : LspBridge × SemanticAnswer :=
  let plan := r.plan config
  let finished := finished config r s
  let settled := s.answers.settle r.index finished
  let answers := settled.retractStale b.emitted s.covered settled.emittedFor
  let trim := trimUntypedCalls r.index finished answers.untypedAnswered b.trimmed
  ({ emitted := fun file =>
      if file ∈ s.covered then settled.emittedFor file
      else b.emitted file ++ ((settled.emittedFor file).filter fun id => decide (id ∉ b.emitted file))
     trimmed := trim.2 },
    { diff := { answers.finish config with upsertNodes := (answers.finish config).upsertNodes ++ trim.1 }
      shortfall := (s.failure.map Shortfall.pass).or (if plan.truncated then some .sitesLeftUnasked else none)
      unfinished := ((r.askedAbout config).filter fun file => decide (file ∉ finished)) ++
        if plan.truncated then r.scope.filter fun file => decide (file ∉ r.askedAbout config) else [] })

def answer : Option (LspBridge × SemanticAnswer) :=
  if r.scope = [] then some (b, {})
  else if (r.plan config).asking = [] then
    if (r.plan config).truncated then
      some (b, { shortfall := some .noSiteAdmitted, unfinished := r.scope })
    else some (b.answerNothingAsked config r)
  else
    match r.outcome with
    | .notReady reason =>
      some (b, { shortfall := some (.notReady reason), unfinished := r.askedAbout config })
    | .asked warmedUp nextId turns =>
      let s := (startPass (r.plan config).asking warmedUp nextId).run v config r.index r.budgets turns
      if s.running then none else some (b.answerRun config r s)

def after : List PassRequest → LspBridge
  | [] => {}
  | r :: before => ((answer v config (after before) r).map Prod.fst).getD (after before)

end LspBridge

end GMesh
