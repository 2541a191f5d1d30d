import GMesh.BridgeSettle

namespace GMesh

inductive Poll
  | answered (id : Nat) (answer : ServerAnswer)
  | failed (id : Nat) (contentModified : Bool)
  | noise
  | idle (expired : List Nat)
  | closed
  deriving DecidableEq, Repr

/-- What the world does in one round of the pass's loop. -/
structure Turn where
  quiet : Bool := true
  brokenWrite : Option Nat := none
  exits : Bool := false
  pastDeadline : Bool := false
  poll : Poll
  quietAfter : Bool := true
  deriving DecidableEq, Repr

inductive PassFailure
  | exited
  | couldNotAsk
  | outOfBudget (outstanding unasked : Nat)
  | refused (file : String)
  | unanswered (file : String)
  deriving DecidableEq, Repr

abbrev ReaskKey := String × TextPosition × Method

def Question.reaskKey (q : Question) : ReaskKey := (q.file, q.position, q.method)

structure PassState where
  answers : Answers := {}
  queue : List Question
  deferred : List Question := []
  reAsked : List ReaskKey := []
  inFlight : List (Nat × Question) := []
  nextId : Nat := 0
  warmedUp : Bool := false
  failedFiles : List String := []
  touchedFiles : List String := []
  failure : Option PassFailure := none
  running : Bool := true

variable (s : PassState) (budgets : Budgets)

namespace PassState

def fail (reason : PassFailure) : PassState := { s with failure := some (s.failure.getD reason) }

def failFiles (qs : List Question) : PassState :=
  { s with failedFiles := qs.map Question.accountedTo ++ s.failedFiles }

def stop : PassState := { s with running := false }

def requeue (quiet : Bool) : PassState :=
  if quiet then { s with queue := s.deferred.reverse ++ s.queue, deferred := [] } else s

variable (q : Question)

def ask (rest : List Question) : PassState :=
  { s with
    queue := rest
    touchedFiles := q.accountedTo :: s.touchedFiles
    inFlight := s.inFlight ++ [(s.nextId, q)]
    nextId := s.nextId + 1 }

/-- The write of a question fails: the rest of the queue is dropped. -/
def breakOff (exits : Bool) : PassState :=
  (({ s with queue := [], touchedFiles := q.accountedTo :: s.touchedFiles, nextId := s.nextId + 1 }).failFiles [q]).fail
    (if exits then .exited else .couldNotAsk)

/-- Asks as many questions as there is room for, until a write fails. -/
def fill (exits : Bool) : Nat → Option Nat → PassState → PassState
  | 0, _, s => s
  | room + 1, broken, s =>
    match s.queue with
    | [] => s
    | q :: rest =>
      match broken with
      | some 0 => s.breakOff q exits
      | some (k + 1) => fill exits room (some k) (s.ask q rest)
      | none => fill exits room none (s.ask q rest)

def width (s : PassState) : Nat :=
  if budgets.warmUp && !s.warmedUp then 1 else max budgets.concurrency 1

def filled (s : PassState) (t : Turn) : PassState :=
  let r := s.requeue t.quiet
  r.fill t.exits (r.width budgets - r.inFlight.length) t.brokenWrite

def giveUp : PassState :=
  (({ s with inFlight := [], queue := [], deferred := [] }.failFiles
    (s.inFlight.map Prod.snd ++ (s.queue ++ s.deferred))).fail
      (.outOfBudget s.inFlight.length (s.queue.length + s.deferred.length))).stop

def closeDeferred : PassState :=
  (({ s with deferred := [] }.failFiles s.deferred).fail .exited).stop

def close : PassState :=
  (({ s with inFlight := [], queue := [] }.failFiles (s.inFlight.map Prod.snd ++ s.queue)).fail .exited).stop

def asked? (id : Nat) : Option Question := (s.inFlight.find? fun e => e.1 == id).map Prod.snd

def land (id : Nat) : PassState :=
  { s with inFlight := s.inFlight.eraseP fun e => e.1 == id, warmedUp := true }

def defer : PassState :=
  { s with deferred := s.deferred ++ [q], reAsked := q.reaskKey :: s.reAsked }

/-- An empty answer of a server that is not quiet is asked again once. -/
def isDeferred (answer : ServerAnswer) (quiet : Bool) : Bool :=
  q.isEmptyAnswer answer && !quiet && decide (q.reaskKey ∉ s.reAsked)

def retire (expired : List Nat) : PassState :=
  let gone := s.inFlight.filter fun e => decide (e.1 ∈ expired)
  if gone = [] then s
  else
    (({ s with inFlight := s.inFlight.filter (fun e => decide (e.1 ∉ expired)), warmedUp := true }.failFiles
      (gone.map Prod.snd)).fail (.unanswered ((gone.map fun e : Nat × Question => e.2.file).headD "")))

variable (v : ServerView) (config : SemanticConfig) (index : SdkIndex)

/-- The answer is handed to `recordAnswer`, whose questions are asked next. -/
def hand (s : PassState) (q : Question) (answer : ServerAnswer) : PassState :=
  let recorded := recordAnswer v config index s.answers q answer
  { s with answers := recorded.1, queue := recorded.2.reverse ++ s.queue }

def receive (s : PassState) (poll : Poll) (quiet : Bool) : PassState :=
  match poll with
  | .answered id answer =>
    match s.asked? id with
    | none => s
    | some q => if s.isDeferred q answer quiet then (s.land id).defer q else (s.land id).hand v config index q answer
  | .failed id contentModified =>
    match s.asked? id with
    | none => s
    | some q =>
      if contentModified && decide (q.reaskKey ∉ s.reAsked) then (s.land id).defer q
      else ((s.land id).failFiles [q]).fail (.refused q.file)
  | .noise => s
  | .idle expired => s.retire expired
  | .closed => s.close

def settleRound (s : PassState) (t : Turn) : PassState :=
  if s.inFlight = [] ∧ s.deferred = [] then s.stop
  else if t.pastDeadline then s.giveUp
  else if s.inFlight = [] then (if t.poll = .closed then s.closeDeferred else s)
  else s.receive v config index t.poll t.quietAfter

def round (budgets : Budgets) (s : PassState) (t : Turn) : PassState :=
  if s.running then (s.filled budgets t).settleRound v config index t else s

def run (budgets : Budgets) : List Turn → PassState → PassState
  | [], s => s
  | t :: rest, s => run budgets rest (s.round v config index budgets t)

def covered : List String :=
  ((s.touchedFiles.filter fun file => decide (file ∉ s.failedFiles)).dedup).insertionSort (· ≤ ·)

end PassState

def startPass (asking : List Question) (warmedUp : Bool) (nextId : Nat) : PassState where
  queue := asking
  warmedUp := warmedUp
  nextId := nextId

theorem PassState.mem_covered {s : PassState} {file : String} :
    file ∈ s.covered ↔ file ∈ s.touchedFiles ∧ file ∉ s.failedFiles := by
  simp [covered, List.mem_insertionSort]

end GMesh
