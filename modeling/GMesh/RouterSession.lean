import GMesh.TableWrites

namespace GMesh

structure Upstream (P : Type) where
  id : Nat
  root : P
  deriving DecidableEq, Repr

/-- The front's or a pooled sub-project's place in the session. -/
inductive Slot (P : Type)
  | live (upstream : Upstream P)
  | lost (root : P)
  deriving DecidableEq, Repr

namespace Slot

variable {P : Type}

def live? : Slot P → Option (Upstream P)
  | .live u => some u
  | .lost _ => none

def root : Slot P → P
  | .live u => u.root
  | .lost r => r

def lose (id : Nat) : Slot P → Slot P
  | .live u => if u.id = id then .lost u.root else .live u
  | .lost r => .lost r

theorem lose_root (id : Nat) (slot : Slot P) : (slot.lose id).root = slot.root := by
  cases slot with
  | live u =>
    show (if u.id = id then Slot.lost u.root else .live u).root = u.root
    split <;> rfl
  | lost r => rfl

end Slot

inductive Which (P : Type)
  | front
  | current
  | project (root : P)
  deriving DecidableEq, Repr

structure ClientMessage (W : Type) where
  id : Option (Option W) := none
  method : Option String := none
  toolName : Option String := none
  project : Option (Option String) := none
  requestId : Option (Option W) := none
  deriving DecidableEq, Repr

structure UpstreamFrame (W P : Type) where
  id : Option (Option W) := none
  hasMethod : Bool := false
  switchRoot : Option P := none
  hasContent : Bool := false
  deriving DecidableEq, Repr

structure InFlight (W : Type) where
  request : W
  upstream : Nat
  method : String
  deriving DecidableEq, Repr

inductive Stamp (P : Type)
  | answeredFrom (root : P)
  | restarted (root : P)
  | guidance (root : P) (text : String)
  deriving DecidableEq, Repr

inductive Why (P : Type)
  | pong
  | methodNotFound
  | projectNotString
  | notThisProject (name : String)
  | notAProject (name reason : String)
  | contested (selections : List P)
  | unreachable (root : P) (error : String)
  | frontEnded
  | ended (upstream : Nat) (root : P) (evicted : Bool)
  deriving DecidableEq, Repr

/-- What is handed to the thread that writes to the client. -/
inductive Event (W P : Type)
  | relayed (upstream : Nat) (frame : UpstreamFrame W P) (stamps : List (Stamp P))
  | switched (upstream : Nat) (id : Option W) (result : Except String P)
  | own (id : Option W) (method : String) (why : Why P)
  | done
  deriving DecidableEq

structure Router (W P : Type) where
  root : P
  front : Slot P
  subs : KeyedTable (Slot.root (P := P)) := ∅
  lru : List P := []
  selected : Option P := none
  selections : List P := []
  guidance : P → Option String := fun _ => none
  guided : List P := []
  folder : Option Bool := none
  retired : List (Upstream P) := []
  pending : KeyedTable (InFlight.request (W := W)) := ∅
  initFrame : Option (ClientMessage W) := none
  initializedFrame : Option (ClientMessage W) := none
  selectIds : List (Option W) := []
  restarted : List Nat := []
  clientDone : Bool := false
  replaySeq : Nat := 0
  nextUpstream : Nat := 1

/-- The router under its lock, with what was sent, started and half-closed so far. -/
structure Held (W P : Type) where
  router : Router W P
  sent : List (Event W P) := []
  spawned : List (Nat × Bool) := []
  halfClosed : List Nat := []

/-- What a lock holder learns of files and daemons. A project's name is resolved below the root. -/
structure Surroundings {P : Type} (root : P) where
  isFolder : Bool := true
  namesRoot : String → Bool := fun _ => false
  resolve : String → Except String P := fun _ => .error "not found"
  canonicalize : P → Option P := some
  below : P → Bool := fun _ => true
  connect : P → Option String := fun _ => none
  handshake : P → Except String String := fun _ => .ok ""
  resolve_ne_root : ∀ name p, resolve name = .ok p → p ≠ root := by simp

def poolCap : Nat := 4

section

variable {W P : Type} [DecidableEq W] [DecidableEq P]

namespace UpstreamFrame

def responseId (f : UpstreamFrame W P) : Option W := if f.hasMethod then none else f.id.join

end UpstreamFrame

variable (r : Router W P)

namespace Router

def rootOf : Which P → P
  | .front => r.root
  | .current => r.selected.getD r.root
  | .project root => root

def slot : Which P → Option (Slot P)
  | .front => some r.front
  | .current =>
    match r.selected with
    | none => some r.front
    | some root => r.subs.find? root
  | .project root => r.subs.find? root

def liveSlot (which : Which P) : Option (Upstream P) := (r.slot which).bind Slot.live?

def contested : Bool := decide (1 < r.selections.length)

def openUpstreams : List (Upstream P) :=
  r.front.live?.toList ++ r.subs.rows.filterMap Slot.live? ++ r.retired

def upstream (id : Nat) : Option (Upstream P) :=
  r.openUpstreams.find? (fun u => decide (u.id = id))

def touch (root : P) : Router W P :=
  if root = r.root then r else { r with lru := r.lru.filter (fun used => decide (used ≠ root)) ++ [root] }

def owes (id : Nat) : Bool := r.pending.rows.any (fun f => decide (f.upstream = id))

end Router

namespace Held

def emit (h : Held W P) (e : Event W P) : Held W P := { h with sent := h.sent ++ [e] }

/-- Half-closes a retired upstream that owes no answers. -/
def releaseIfDrained (h : Held W P) (id : Nat) : Held W P :=
  if h.router.owes id then h
  else if h.router.retired.any (fun u => decide (u.id = id)) then { h with halfClosed := h.halfClosed ++ [id] }
  else h

def retire (h : Held W P) (u : Upstream P) : Held W P :=
  releaseIfDrained { h with router := { h.router with retired := h.router.retired ++ [u] } } u.id

/-- Retires an upstream taken out of the pool. A lost one is only dropped. -/
def retireSlot (h : Held W P) : Option (Slot P) → Held W P
  | some (.live u) => h.retire u
  | some (.lost _) => h
  | none => h

/-- Retires the least recently used pool connections above the cap. -/
def evict (h : Held W P) : List P → Held W P
  | [] => { h with router := { h.router with lru := [] } }
  | oldest :: used =>
    if poolCap < (oldest :: used).length then
      let taken := h.router.subs.find? oldest
      evict (retireSlot { h with router := { h.router with subs := h.router.subs.erase oldest } } taken) used
    else { h with router := { h.router with lru := oldest :: used } }

def admitUpstream (h : Held W P) (u : Upstream P) : Held W P :=
  let previous := h.router.subs.find? u.root
  let placed := retireSlot { h with router := { h.router with subs := h.router.subs.put (.live u) } } previous
  let touched := placed.router.touch u.root
  evict { placed with router := touched } touched.lru

end Held

end

variable {W P : Type} [DecidableEq W] [DecidableEq P] {root : P}

inductive ClientFrame (W : Type)
  | initRequest
  | initialized
  | selectProject (id : Option W)
  | call (project : Option (Option String))
  | toolsList
  | cancelled (id : Option W)
  | other
  deriving DecidableEq, Repr

variable (m : ClientMessage W)

namespace ClientMessage

def request : Option (W × String) :=
  match m.id, m.method with
  | some (some id), some method => some (id, method)
  | _, _ => none

def kind : ClientFrame W :=
  match m.method with
  | some "initialize" => .initRequest
  | some "notifications/initialized" => .initialized
  | some "tools/list" => .toolsList
  | some "notifications/cancelled" =>
    match m.requestId with
    | some id => .cancelled id
    | none => .other
  | some "tools/call" =>
    match m.toolName, m.id with
    | some "select_project", some id => .selectProject id
    | _, _ => .call m.project
  | _ => .other

def withoutProject : ClientMessage W := { m with project := none }

end ClientMessage

/-- The routing class of a frame, with its id and method when it is a request. -/
def classify : Option (ClientMessage W) → ClientFrame W × Option (W × String)
  | none => (.other, none)
  | some m => (m.kind, m.request)

variable (env : Surroundings root)

namespace Held

/-- Replays the recorded `initialize` and returns the daemon's instructions. -/
def handshake (env : Surroundings root) (h : Held W P) (target : P) : Held W P × Except String String :=
  match h.router.initFrame with
  | none => (h, .error "the client never sent initialize")
  | some _ =>
    ({ h with router := { h.router with replaySeq := h.router.replaySeq + 1 } }, env.handshake target)

def number (h : Held W P) (isFront : Bool) : Held W P :=
  { h with
    router := { h.router with nextUpstream := h.router.nextUpstream + 1 }
    spawned := h.spawned ++ [(h.router.nextUpstream, isFront)] }

def placeFront (h : Held W P) (u : Upstream P) : Held W P :=
  { h with router := { h.router with front := .live u } }

def markRestarted (h : Held W P) (restart : Bool) (id : Nat) : Held W P :=
  if restart then { h with router := { h.router with restarted := h.router.restarted ++ [id] } } else h

def install (h : Held W P) (target : P) (restart : Bool) : Held W P × Upstream P :=
  let u : Upstream P := ⟨h.router.nextUpstream, target⟩
  if target = h.router.root then (((h.number true).placeFront u).markRestarted restart u.id, u)
  else (((h.number false).admitUpstream u).markRestarted restart u.id, u)

def recordGuidance (h : Held W P) (target : P) (text : String) : Held W P :=
  if target = h.router.root then h
  else { h with router := { h.router with
    guidance := fun p => if p = target then some text else h.router.guidance p } }

def connect (env : Surroundings root) (h : Held W P) (which : Which P) (replay restart : Bool) :
    Held W P × Except String (Upstream P) :=
  let target := h.router.rootOf which
  match env.connect target with
  | some error => (h, .error error)
  | none =>
    if replay then
      match h.handshake env target with
      | (shaken, .error error) => (shaken, .error error)
      | (shaken, .ok text) =>
        let (installed, u) := (shaken.recordGuidance target text).install target restart
        (installed, .ok u)
    else
      let (installed, u) := h.install target restart
      (installed, .ok u)

def refuse (h : Held W P) (request : Option (W × String)) (why : Why P) : Held W P × Option (Upstream P) :=
  match request with
  | some (id, method) => (h.emit (.own (some id) method why), none)
  | none => (h, none)

/-- The upstream in a slot, connected first for a request when it is not live. -/
def reach (h : Held W P) (which : Which P) (replay : Bool)
    (request : Option (W × String)) : Held W P × Option (Upstream P) :=
  match h.router.liveSlot which with
  | some u => ({ h with router := h.router.touch u.root }, some u)
  | none =>
    match request with
    | none => (h, none)
    | some (id, method) =>
      match h.connect env which replay (h.router.slot which).isSome with
      | (connected, .ok u) => (connected, some u)
      | (failed, .error error) =>
        (failed.emit (.own (some id) method (.unreachable (failed.router.rootOf which) error)), none)

def reachForToolsList (h : Held W P) (request : Option (W × String)) :
    Held W P × Option (Upstream P) :=
  match h.router.front.live? with
  | some u => (h, some u)
  | none =>
    match h.connect env .front true true with
    | (connected, .ok u) => (connected, some u)
    | (failed, .error error) =>
      match (failed.router.selected.bind failed.router.subs.find?).bind Slot.live? with
      | some sub => (failed, some sub)
      | none => failed.refuse request (.unreachable failed.router.root error)

def route (h : Held W P) (project : Option String) :
    Held W P × Except (Why P) (Which P) :=
  match project with
  | none => (h, .error .projectNotString)
  | some name =>
    let folder := h.router.folder.getD (!h.router.selections.isEmpty || env.isFolder)
    let asked := { h with router := { h.router with folder := some folder } }
    if folder = false then
      if env.namesRoot name then (asked, .ok .current) else (asked, .error (.notThisProject name))
    else
      match env.resolve name with
      | .ok p => (asked, .ok (.project p))
      | .error reason => (asked, .error (.notAProject name reason))

/-- Takes a cancelled request off the books, with where the cancel goes. -/
def cancel (h : Held W P) (id : Option W) : Held W P × Option (Upstream P) × Option Nat :=
  match id.bind h.router.pending.find? with
  | some f =>
    ({ h with router := { h.router with pending := h.router.pending.erase f.request } },
      h.router.upstream f.upstream, some f.upstream)
  | none => (h, h.router.liveSlot .current, none)

def record (h : Held W P) (target : Option (Upstream P)) (request : Option (W × String)) : Held W P :=
  match target, request with
  | some u, some (id, method) =>
    { h with router := { h.router with pending := h.router.pending.put ⟨id, u.id, method⟩ } }
  | _, _ => h

structure Outgoing (W P : Type) where
  target : Option (Upstream P)
  message : Option (ClientMessage W)
  cancelledOn : Option Nat := none

/-- Whether a frame must not reach a daemon yet, and what the shim answers it with. -/
def answeredBeforeSession (h : Held W P) (kind : ClientFrame W) (request : Option (W × String)) :
    Option (Held W P) :=
  if h.router.initializedFrame.isSome ∨ kind = .initRequest then none
  else
    match request with
    | some (id, method) =>
      if method = "ping" then some (h.emit (.own (some id) method .pong))
      else if h.router.initFrame.isSome then none
      else some (h.emit (.own (some id) method .methodNotFound))
    | none => if h.router.initFrame.isSome then none else some h

def chooseTarget (h : Held W P) (frame : Option (ClientMessage W))
    (kind : ClientFrame W) (request : Option (W × String)) : Held W P × Outgoing W P :=
  match kind with
  | .initRequest =>
    let (h, target) := reach env { h with router := { h.router with initFrame := frame } } .current false request
    (h, { target, message := frame })
  | .initialized =>
    let (h, target) := reach env { h with router := { h.router with initializedFrame := frame } } .current true
      request
    (h, { target, message := frame })
  | .selectProject id =>
    let (h, target) := h.reach env .front true request
    let marked := if target.isSome then
      { h with router := { h.router with selectIds := h.router.selectIds.insert id } } else h
    (marked, { target, message := frame })
  | .toolsList =>
    let (h, target) := h.reachForToolsList env request
    (h, { target, message := frame })
  | .cancelled id =>
    let (h, target, cancelledOn) := h.cancel id
    (h, { target, message := frame, cancelledOn })
  | .call (some project) =>
    match h.route env project with
    | (h, .ok which) =>
      let (h, target) := h.reach env which true request
      (h, { target, message := frame.map ClientMessage.withoutProject })
    | (h, .error why) =>
      let (h, target) := h.refuse request why
      (h, { target, message := frame })
  | .call none =>
    if h.router.contested then
      let (h, target) := h.refuse request (.contested h.router.selections)
      (h, { target, message := frame })
    else
      let (h, target) := h.reach env .current true request
      (h, { target, message := frame })
  | .other =>
    let (h, target) := h.reach env .current true request
    (h, { target, message := frame })

def onClientFrame (h : Held W P) (frame : Option (ClientMessage W)) :
    Held W P × Option (Outgoing W P) :=
  let (kind, request) := classify frame
  match h.answeredBeforeSession kind request with
  | some answered => (answered, none)
  | none =>
    let (chosen, out) := h.chooseTarget env frame kind request
    (chosen.record out.target request, some out)

/-- The text items before an answer of a sub-project or of a restarted daemon. -/
def stamps (h : Held W P) (upstream : Nat) (served : P) : Held W P × List (Stamp P) :=
  let r := h.router
  let foreign := decide (served ≠ r.root)
  let named := if foreign then [Stamp.answeredFrom served] else []
  let again := if upstream ∈ r.restarted then [Stamp.restarted served] else []
  let fresh := foreign && decide (served ∉ r.guided)
  let guide := if fresh then (r.guidance served).toList.map (Stamp.guidance served) else []
  ({ h with router := { r with
      restarted := r.restarted.filter (fun id => decide (id ≠ upstream))
      guided := if fresh then served :: r.guided else r.guided } }, named ++ again ++ guide)

def settle (h : Held W P) (upstream : Nat) (id : W) : Held W P × List (Stamp P) :=
  match h.router.pending.find? id with
  | none => (h, [])
  | some f =>
    if f.upstream ≠ upstream then (h, [])
    else
      let settled := releaseIfDrained { h with router := { h.router with pending := h.router.pending.erase id } }
        upstream
      match settled.router.upstream upstream with
      | none => (settled, [])
      | some served => if f.method ≠ "tools/call" then (settled, []) else settled.stamps upstream served.root

def switch (h : Held W P) (target : P) : Held W P × Except String P :=
  match env.canonicalize target with
  | none => (h, .error "cannot resolve the project")
  | some t =>
    if t = h.router.root ∨ env.below t = false then (h, .error "not a project below the root")
    else
      match h.connect env (.project t) true false with
      | (failed, .error error) => (failed, .error error)
      | (connected, .ok _) =>
        let r := connected.router
        ({ connected with router := { r with
            selected := some t
            selections := if t ∈ r.selections then r.selections else r.selections ++ [t]
            guided := t :: r.guided } }, .ok t)

/-- Passes a front frame on, or takes it to answer a `select_project` call itself. -/
def onFrontFrame (h : Held W P) (upstream : Nat) (f : UpstreamFrame W P) :
    Held W P × Bool :=
  match f.id with
  | none => (h, true)
  | some id =>
    if f.hasMethod = false ∧ id ∈ h.router.selectIds then
      let taken := { h with router := { h.router with selectIds := h.router.selectIds.erase id } }
      match f.switchRoot with
      | none => (taken, true)
      | some target =>
        let (switched, result) := taken.switch env target
        (switched.emit (.switched upstream id result), false)
    else (h, true)

/-- The front is gone: nobody answers the `select_project` calls it was sent. -/
def loseFront (h : Held W P) : Held W P :=
  h.router.selectIds.foldl (fun h id =>
      emit { h with router := { h.router with
        pending := h.router.pending.filter (fun f => decide (some f.request ≠ id)) } } (.own id "tools/call" .frontEnded))
    { h with router := { h.router with front := .lost h.router.root, selectIds := [] } }

def dropUpstream (h : Held W P) (id : Nat) : Held W P :=
  { h with router := { h.router with
      subs := h.router.subs.update (Slot.lose id) (Slot.lose_root id)
      restarted := h.router.restarted.filter (fun u => decide (u ≠ id))
      retired := h.router.retired.eraseP (fun u => decide (u.id = id)) } }

def answerOwed (h : Held W P) (id : Nat) (served : P) (evicted : Bool) : Held W P :=
  let owed := h.router.pending.rows.filter (fun f => decide (f.upstream = id))
  owed.foldl (fun h f =>
      emit { h with router := { h.router with pending := h.router.pending.erase f.request } }
        (.own (some f.request) f.method (.ended id served evicted))) h

def endIfDone (h : Held W P) : Held W P :=
  if h.router.clientDone ∧ h.router.openUpstreams = [] then h.emit .done else h

def upstreamEnded (h : Held W P) (id : Nat) : Held W P :=
  let served := ((h.router.upstream id).map Upstream.root).getD h.router.root
  let evicted := h.router.retired.any (fun u => decide (u.id = id))
  let fronted := if h.router.front.live?.map Upstream.id = some id then h.loseFront else h
  ((fronted.dropUpstream id).answerOwed id served evicted).endIfDone

/-- The client's input ended: every open upstream may still flush what it owes. -/
def clientEof (h : Held W P) : Held W P :=
  endIfDone { h with
    router := { h.router with clientDone := true }
    halfClosed := h.halfClosed ++ h.router.openUpstreams.map Upstream.id }

end Held

def UpstreamFrame.stamped (f : UpstreamFrame W P) (lines : List (Stamp P)) : List (Stamp P) :=
  if f.hasContent then lines else []

inductive Phase (W P : Type)
  | reading
  | settled (frame : UpstreamFrame W P) (stamps : List (Stamp P))
  | passing (frame : UpstreamFrame W P) (stamps : List (Stamp P))

structure Reader (W P : Type) where
  id : Nat
  isFront : Bool
  phase : Phase W P := .reading

/-- Where the client thread is: a frame is sent and a drained upstream released outside the router's lock. -/
inductive ClientPhase (W P : Type)
  | idle
  | sending (target : Upstream P) (message : Option (ClientMessage W)) (cancelledOn : Option Nat)
  | releasing (upstream : Nat)
  | finished
  deriving DecidableEq

/-- A routed session with its threads, and the record of what the client asked and where it went. -/
structure Session (W P : Type) where
  router : Router W P
  readers : KeyedTable (Reader.id (W := W) (P := P))
  client : ClientPhase W P := .idle
  out : List (Event W P) := []
  halfClosed : List Nat := []
  requested : List W := []
  cancelled : List W := []
  forwarded : List (W × Nat) := []
  delivered : List (W × Nat) := []
  answered : List (W × Nat) := []

/-- One atomic step of one of the threads, with what its surroundings answer. -/
inductive Action (W : Type) {P : Type} (root : P)
  | clientFrame (env : Surroundings root) (frame : Option (ClientMessage W))
  | clientSend (ok : Bool)
  | clientRelease
  | clientEof
  | daemonFrame (upstream : Nat) (frame : UpstreamFrame W P)
  | frontFrame (env : Surroundings root) (upstream : Nat)
  | forward (upstream : Nat)
  | upstreamEnd (upstream : Nat)

def ClientPhase.after (out : Option (Held.Outgoing W P)) : ClientPhase W P :=
  match out with
  | none => .idle
  | some o =>
    match o.target, o.cancelledOn with
    | some u, on => .sending u o.message on
    | none, some id => .releasing id
    | none, none => .idle

variable (s : Session W P)

namespace Session

def start (root : P) : Session W P where
  router := { root, front := .live ⟨0, root⟩ }
  readers := (∅ : KeyedTable Reader.id).put { id := 0, isFront := true }

def commit (h : Held W P) : Session W P :=
  { s with
    router := h.router
    out := s.out ++ h.sent
    halfClosed := s.halfClosed ++ h.halfClosed
    readers := h.spawned.foldl (fun t r => t.put { id := r.1, isFront := r.2 }) s.readers }

def held : Held W P := { router := s.router }

def setPhase (r : Reader W P) (phase : Phase W P) : Session W P :=
  { s with readers := s.readers.put { r with phase } }

def logFrame (frame : Option (ClientMessage W)) (out : Option (Held.Outgoing W P)) :
    Session W P :=
  let request := (classify frame).2.map Prod.fst
  let cancelled := match (classify frame).1 with
    | .cancelled (some id) => [id]
    | _ => []
  let forwarded := match request, out.bind Held.Outgoing.target with
    | some id, some u => [(id, u.id)]
    | _, _ => []
  { s with
    requested := s.requested ++ request.toList
    cancelled := s.cancelled ++ cancelled
    forwarded := s.forwarded ++ forwarded }

/-- The step of an action where it is possible. A client sends no id twice, and a daemon answers what was delivered,
once. -/
def step : Action W root → Option (Session W P)
  | .clientFrame env frame =>
    match s.client, (classify frame).2 with
    | .idle, request =>
      if request.any (fun q => decide (q.1 ∈ s.requested)) then none
      else
        let (h, out) := s.held.onClientFrame env frame
        some { (s.commit h).logFrame frame out with client := ClientPhase.after out }
    | _, _ => none
  | .clientSend ok =>
    match s.client with
    | .sending u message on =>
      let request := (classify message).2.map Prod.fst
      let delivered := if ok then request.toList.map (fun id => (id, u.id)) else []
      some { s with
        delivered := s.delivered ++ delivered
        client := match on with
          | some id => .releasing id
          | none => .idle }
    | _ => none
  | .clientRelease =>
    match s.client with
    | .releasing id => some { s.commit (s.held.releaseIfDrained id) with client := .idle }
    | _ => none
  | .clientEof =>
    match s.client with
    | .idle => some { s.commit s.held.clientEof with client := .finished }
    | _ => none
  | .daemonFrame u frame =>
    match s.readers.find? u with
    | some r =>
      match r.phase, frame.responseId with
      | .reading, none =>
        some (s.setPhase r (if r.isFront then .settled frame [] else .passing frame []))
      | .reading, some id =>
        if (id, u) ∈ s.delivered ∧ (id, u) ∉ s.answered then
          let (h, stamps) := s.held.settle u id
          some { (s.commit h).setPhase r (if r.isFront then .settled frame stamps else .passing frame stamps) with
            answered := s.answered ++ [(id, u)] }
        else none
      | _, _ => none
    | none => none
  | .frontFrame env u =>
    match s.readers.find? u with
    | some r =>
      match r.phase with
      | .settled frame stamps =>
        let (h, pass) := s.held.onFrontFrame env u frame
        some ((s.commit h).setPhase r (if pass then .passing frame stamps else .reading))
      | _ => none
    | none => none
  | .forward u =>
    match s.readers.find? u with
    | some r =>
      match r.phase with
      | .passing frame stamps => some { s.setPhase r .reading with out := s.out ++ [.relayed u frame stamps] }
      | _ => none
    | none => none
  | .upstreamEnd u =>
    match s.readers.find? u with
    | some r =>
      match r.phase with
      | .reading => some { s.commit (s.held.upstreamEnded u) with readers := s.readers.erase u }
      | _ => none
    | none => none

def run (s : Session W P) : List (Action W root) → Option (Session W P)
  | [] => some s
  | a :: as => (s.step a).bind fun t => run t as

end Session

end GMesh
