import Mathlib.Data.List.Nodup

namespace GMesh

open List

structure DirtyQueue where
  order : List String := []
  seen : List String := []
  same : ∀ path, path ∈ seen ↔ path ∈ order := by simp
  nodup : order.Nodup := by simp

namespace DirtyQueue

def push (q : DirtyQueue) (path : String) : DirtyQueue :=
  if h : path ∈ q.seen then q
  else
    { order := q.order ++ [path]
      seen := path :: q.seen
      same := by
        intro p
        rw [mem_cons, q.same, mem_append, mem_singleton, or_comm]
      nodup := by
        have hnew : path ∉ q.order := fun hp => h ((q.same path).mpr hp)
        rw [nodup_append]
        refine ⟨q.nodup, by simp, ?_⟩
        intro a ha b hb hab
        rw [mem_singleton.mp hb] at hab
        exact hnew (hab ▸ ha) }

theorem push_order (q : DirtyQueue) (path : String) :
    (q.push path).order = if path ∈ q.order then q.order else q.order ++ [path] := by
  unfold push
  simp only [q.same]
  split <;> rfl

theorem mem_push {q : DirtyQueue} {path p : String} : p ∈ (q.push path).order ↔ p ∈ q.order ∨ p = path := by
  rw [push_order]
  split
  next h =>
    refine ⟨Or.inl, ?_⟩
    rintro (hp | rfl)
    · exact hp
    · exact h
  next => simp

end DirtyQueue

/-- One language's plugin. An awake process has a queue of changes it has not applied. -/
structure PluginSupervisor where
  process : Option (List String) := some []
  dirty : DirtyQueue := {}
  pending : Bool := false
  suspended : Bool := false
  memoryLimit : Option Nat := none

inductive FreshCheck
  | fresh | unchanged | reindexed | timedOut
  deriving DecidableEq, Repr

inductive SupervisorCall
  | fileChanged (path : String) (answered : Bool)
  | replayPending (spawns : Bool) (answers : String → Bool)
  | ensureFresh (path : String) (stale spawns : Bool) (check : FreshCheck)
  | sleepIfIdle (idle : Bool)
  | sleepNow
  | checkMemoryLimit (first second : Option Nat)

namespace PluginSupervisor

variable (s : PluginSupervisor)

def hasPending : Bool := s.pending

/-- A change handed to the process. One that times out stays in the process's queue. -/
def applyFileChange (own : List String) (path : String) (answered : Bool) : List String :=
  let queued := if path ∈ own then own else own ++ [path]
  if answered then queued.filter (· ≠ path) else queued

def queue (path : String) : PluginSupervisor :=
  { s with dirty := s.dirty.push path, pending := true }

def fileChanged (path : String) (answered : Bool) : PluginSupervisor :=
  match s.process with
  | none => s.queue path
  | some own =>
    let sent := { s with process := some (applyFileChange own path answered) }
    if answered then sent else sent.queue path

variable (spawns : Bool)

/-- The process of an awake plugin, or a new one if it can be spawned. -/
def wake : Option (List String) :=
  match s.process with
  | some own => some own
  | none => if spawns then some [] else none

def replayPending (answers : String → Bool) : PluginSupervisor :=
  if s.dirty.order = [] then { s with pending := false }
  else
    match s.wake spawns with
    | none => s
    | some own =>
      { s with
        process := some (s.dirty.order.foldl (fun own path => applyFileChange own path (answers path)) own)
        dirty := {}
        pending := false }

/-- A query-time check queues nothing: a timeout is the caller's error. -/
def ensureFresh (stale spawns : Bool) : PluginSupervisor :=
  if stale then
    match s.wake spawns with
    | none => s
    | some own => { s with process := some own }
  else s

def sleepNow : PluginSupervisor := { s with process := none }

def sleepIfIdle (idle : Bool) : PluginSupervisor := if idle then s.sleepNow else s

def isOver (limit : Nat) (sample : Option Nat) : Bool := sample.any (limit < ·)

/-- Suspends the language when two samples in a row are over the limit. -/
def checkMemoryLimit (first second : Option Nat) : PluginSupervisor :=
  if s.process.isSome && s.memoryLimit.any (fun limit => isOver limit first && isOver limit second) then
    { s with process := none, suspended := true }
  else s

def step : SupervisorCall → PluginSupervisor
  | .fileChanged path answered => s.fileChanged path answered
  | .replayPending spawns answers => s.replayPending spawns answers
  | .ensureFresh _ stale spawns _ => s.ensureFresh stale spawns
  | .sleepIfIdle idle => s.sleepIfIdle idle
  | .sleepNow => s.sleepNow
  | .checkMemoryLimit first second => s.checkMemoryLimit first second

def sends : List String :=
  if (s.wake spawns).isSome then s.dirty.order else []

def applied : SupervisorCall → List String
  | .fileChanged path answered => if s.process.isSome && answered then [path] else []
  | .replayPending spawns answers => (s.sends spawns).filter answers
  | .ensureFresh path stale spawns check =>
    if stale && (s.wake spawns).isSome && check == .reindexed then [path] else []
  | _ => []

end PluginSupervisor

abbrev SupervisorRun := List SupervisorCall

namespace SupervisorRun

variable (limit : Option Nat)

def state : SupervisorRun → PluginSupervisor
  | [] => { memoryLimit := limit }
  | call :: before => (state before).step call

def reports (call : SupervisorCall) (path : String) : Bool :=
  match call with
  | .fileChanged p _ => p == path
  | _ => false

def owes (path : String) : SupervisorRun → Bool
  | [] => false
  | call :: before =>
    !((state limit before).applied call).contains path && (reports call path || owes path before)

def unapplied : SupervisorRun → List String
  | [] => []
  | .fileChanged path answered :: before =>
    if (state limit before).process.isSome && answered then unapplied before else unapplied before ++ [path]
  | .replayPending spawns _ :: before =>
    if ((state limit before).wake spawns).isSome then [] else unapplied before
  | _ :: before => unapplied before

structure Kept (run : SupervisorRun) : Prop where
  held : ∀ path, run.owes limit path = true →
    path ∈ (run.state limit).dirty.order ∧ (run.state limit).hasPending = true
  nodup : (run.state limit).dirty.order.Nodup
  ordered : (run.state limit).dirty.order.Pairwise fun a b =>
    (run.unapplied limit).idxOf a < (run.unapplied limit).idxOf b
  flagged : (run.state limit).dirty.order ≠ [] → (run.state limit).hasPending = true

def EveryState (P : SupervisorRun → Prop) : SupervisorRun → Prop
  | [] => P []
  | call :: before => EveryState P before ∧ P (call :: before)

/-- No replay times out on a file that still owes its change. -/
def ReplaysLand : SupervisorRun → Prop
  | [] => True
  | .replayPending spawns answers :: before =>
    ReplaysLand before ∧
      ∀ path ∈ (state limit before).sends spawns, owes limit path before = true → answers path = true
  | _ :: before => ReplaysLand before

variable {limit : Option Nat} {run before : SupervisorRun} {path : String}

structure Follows (s : PluginSupervisor) (reports : List String) : Prop where
  ordered : s.dirty.order.Pairwise fun a b => reports.idxOf a < reports.idxOf b
  mem : ∀ path, path ∈ s.dirty.order ↔ path ∈ reports
  flagged : s.dirty.order ≠ [] → s.hasPending = true

namespace Follows

variable {s : PluginSupervisor} {reports : List String} (hs : Follows s reports)

include hs

theorem of_same {t : PluginSupervisor} (hdirty : t.dirty = s.dirty) (hpending : t.pending = s.pending) :
    Follows t reports where
  ordered := hdirty ▸ hs.ordered
  mem := hdirty ▸ hs.mem
  flagged := by
    rw [hdirty, PluginSupervisor.hasPending, hpending]
    exact hs.flagged

theorem queue (path : String) : Follows (s.queue path) (reports ++ [path]) where
  ordered := by
    have hold : s.dirty.order.Pairwise fun a b => (reports ++ [path]).idxOf a < (reports ++ [path]).idxOf b := by
      refine hs.ordered.imp_of_mem ?_
      intro a b ha hb hab
      rw [idxOf_append_of_mem ((hs.mem a).mp ha), idxOf_append_of_mem ((hs.mem b).mp hb)]
      exact hab
    show (s.dirty.push path).order.Pairwise _
    rw [DirtyQueue.push_order]
    split
    next => exact hold
    next hnew =>
      refine pairwise_append.mpr ⟨hold, by simp, ?_⟩
      intro a ha b hb
      rw [mem_singleton.mp hb]
      have hreported := (hs.mem a).mp ha
      have hpath : path ∉ reports := fun hp => hnew ((hs.mem path).mpr hp)
      rw [idxOf_append_of_mem hreported, idxOf_append_of_notMem hpath]
      have hlt := idxOf_lt_length_of_mem hreported
      omega
  mem := by
    intro p
    show p ∈ (s.dirty.push path).order ↔ _
    rw [DirtyQueue.mem_push, hs.mem, mem_append, mem_singleton]
  flagged := fun _ => rfl

theorem fileChanged (path : String) (answered : Bool) :
    Follows (s.fileChanged path answered) (if s.process.isSome && answered then reports else reports ++ [path]) := by
  unfold PluginSupervisor.fileChanged
  cases hp : s.process with
  | none => exact hs.queue path
  | some own =>
    cases answered with
    | true => exact hs.of_same rfl rfl
    | false =>
      have hsent : Follows { s with process := some (PluginSupervisor.applyFileChange own path false) } reports :=
        hs.of_same rfl rfl
      exact hsent.queue path

theorem replayPending (spawns : Bool) (answers : String → Bool) :
    Follows (s.replayPending spawns answers) (if (s.wake spawns).isSome then [] else reports) := by
  unfold PluginSupervisor.replayPending
  split
  next hempty =>
    have hnone : reports = [] := by
      rw [eq_nil_iff_forall_not_mem]
      intro p hp
      simpa [hempty] using (hs.mem p).mpr hp
    rw [hnone, ite_self]
    exact ⟨by simp [hempty], by simp [hempty], by simp [hempty]⟩
  next =>
    cases hw : s.wake spawns with
    | none => exact hs
    | some own => exact ⟨by simp, by simp, by simp⟩

end Follows

theorem ensureFresh_same (s : PluginSupervisor) (stale spawns : Bool) :
    (s.ensureFresh stale spawns).dirty = s.dirty ∧ (s.ensureFresh stale spawns).pending = s.pending := by
  unfold PluginSupervisor.ensureFresh
  split
  next => split <;> exact ⟨rfl, rfl⟩
  next => exact ⟨rfl, rfl⟩

theorem sleepIfIdle_same (s : PluginSupervisor) (idle : Bool) :
    (s.sleepIfIdle idle).dirty = s.dirty ∧ (s.sleepIfIdle idle).pending = s.pending := by
  unfold PluginSupervisor.sleepIfIdle
  split <;> exact ⟨rfl, rfl⟩

theorem checkMemoryLimit_same (s : PluginSupervisor) (first second : Option Nat) :
    (s.checkMemoryLimit first second).dirty = s.dirty ∧ (s.checkMemoryLimit first second).pending = s.pending := by
  unfold PluginSupervisor.checkMemoryLimit
  split <;> exact ⟨rfl, rfl⟩

/-- After every run the queue holds the unapplied changes, in their order. -/
theorem follows_run (run : SupervisorRun) : Follows (run.state limit) (run.unapplied limit) := by
  induction run with
  | nil => exact ⟨by simp [state], by simp [state, unapplied], by simp [state]⟩
  | cons call before ih =>
    cases call with
    | fileChanged path answered => exact ih.fileChanged path answered
    | replayPending spawns answers => exact ih.replayPending spawns answers
    | ensureFresh _ stale spawns =>
      have hsame := ensureFresh_same (state limit before) stale spawns
      exact ih.of_same hsame.1 hsame.2
    | sleepIfIdle idle =>
      have hsame := sleepIfIdle_same (state limit before) idle
      exact ih.of_same hsame.1 hsame.2
    | sleepNow => exact ih.of_same rfl rfl
    | checkMemoryLimit first second =>
      have hsame := checkMemoryLimit_same (state limit before) first second
      exact ih.of_same hsame.1 hsame.2

/-- Every change that is owed is in the queue, and the flag says so. -/
def Held (limit : Option Nat) (run : SupervisorRun) : Prop :=
  ∀ path, run.owes limit path = true → path ∈ (run.state limit).dirty.order ∧ (run.state limit).hasPending = true

theorem held_iff (run : SupervisorRun) :
    Held limit run ↔ ∀ path, run.owes limit path → path ∈ (run.state limit).dirty.order := by
  refine ⟨fun h path hp => (h path hp).1, fun h path hp => ⟨h path hp, ?_⟩⟩
  exact (follows_run run).flagged (ne_nil_of_mem (h path hp))

section

variable (hs : Held limit before)

include hs

theorem Held.of_same {call : SupervisorCall}
    (hdirty : (state limit (call :: before)).dirty = (state limit before).dirty)
    (hreports : ∀ path, reports call path = false) : Held limit (call :: before) := by
  rw [held_iff] at hs ⊢
  intro path hp
  rw [hdirty]
  apply hs
  simp only [owes, hreports, Bool.false_or, Bool.and_eq_true] at hp
  exact hp.2

theorem Held.fileChanged (path : String) (answered : Bool) : Held limit (.fileChanged path answered :: before) := by
  rw [held_iff] at hs ⊢
  intro p hp
  have hdirty : (state limit (.fileChanged path answered :: before)).dirty =
      if (state limit before).process.isSome && answered then (state limit before).dirty
      else (state limit before).dirty.push path := by
    simp only [state, PluginSupervisor.step, PluginSupervisor.fileChanged]
    cases (state limit before).process with
    | none => rfl
    | some own => cases answered <;> rfl
  simp only [owes, PluginSupervisor.applied, reports] at hp
  rw [hdirty]
  by_cases happlied : ((state limit before).process.isSome && answered)
  · rw [if_pos happlied] at hp ⊢
    have hne : ¬path = p := by
      rintro rfl
      simp at hp
    apply hs
    simpa [hne, Ne.symm hne] using hp
  · rw [if_neg happlied] at hp
    rw [if_neg happlied, DirtyQueue.mem_push]
    by_cases hpath : path = p
    · exact .inr hpath.symm
    · refine .inl (hs p ?_)
      simpa [hpath] using hp

/-- A replay keeps what is owed exactly when each owed file that it sends answers. -/
theorem held_replayPending_iff (spawns : Bool) (answers : String → Bool) :
    Held limit (.replayPending spawns answers :: before) ↔
      ∀ path ∈ (state limit before).sends spawns, owes limit path before → answers path := by
  rw [held_iff] at hs ⊢
  have howes : ∀ path, owes limit path (.replayPending spawns answers :: before) ↔
      owes limit path before ∧ ¬(path ∈ (state limit before).sends spawns ∧ answers path) := by
    intro path
    simp only [owes, reports, PluginSupervisor.applied, Bool.false_or, Bool.and_eq_true, Bool.not_eq_true',
      contains_eq_mem, decide_eq_false_iff_not, List.mem_filter]
    exact and_comm
  simp only [howes]
  cases hw : (state limit before).wake spawns with
  | none =>
    have hdirty : (state limit (.replayPending spawns answers :: before)).dirty = (state limit before).dirty := by
      simp only [state, PluginSupervisor.step, PluginSupervisor.replayPending, hw]
      split <;> rfl
    rw [hdirty]
    simp only [PluginSupervisor.sends, hw]
    exact ⟨fun _ path hpath => by simp at hpath, fun _ path hpath => hs path hpath.1⟩
  | some own =>
    have hdirty : (state limit (.replayPending spawns answers :: before)).dirty.order = [] := by
      simp only [state, PluginSupervisor.step, PluginSupervisor.replayPending, hw]
      split
      next hempty => exact hempty
      next => rfl
    rw [hdirty]
    simp only [PluginSupervisor.sends, hw]
    constructor
    · intro h path hpath howed
      by_contra hno
      simpa using h path ⟨howed, fun hyes => hno hyes.2⟩
    · intro h path hpath
      have hqueued := hs path hpath.1
      exact absurd ⟨hqueued, h path hqueued hpath.1⟩ hpath.2

end

theorem kept_iff_held (run : SupervisorRun) : Kept limit run ↔ Held limit run := by
  refine ⟨Kept.held, fun h => ⟨h, (run.state limit).dirty.nodup, ?_, ?_⟩⟩
  · exact (follows_run run).ordered
  · exact (follows_run run).flagged

theorem held_everyState_iff (run : SupervisorRun) : run.EveryState (Held limit) ↔ run.ReplaysLand limit := by
  induction run with
  | nil => exact ⟨fun _ => trivial, fun _ path hp => by simp [owes] at hp⟩
  | cons call before ih =>
    have hlast : EveryState (Held limit) before → Held limit before := by
      cases before with
      | nil => exact id
      | cons => exact And.right
    cases call with
    | replayPending spawns answers =>
      refine ⟨fun h => ⟨ih.mp h.1, ?_⟩, fun h => ⟨ih.mpr h.1, ?_⟩⟩
      · exact (held_replayPending_iff (hlast h.1) spawns answers).mp h.2
      · exact (held_replayPending_iff (hlast (ih.mpr h.1)) spawns answers).mpr h.2
    | fileChanged path answered =>
      exact ⟨fun h => ih.mp h.1, fun h => ⟨ih.mpr h, (hlast (ih.mpr h)).fileChanged path answered⟩⟩
    | ensureFresh _ stale spawns =>
      refine ⟨fun h => ih.mp h.1, fun h => ⟨ih.mpr h, (hlast (ih.mpr h)).of_same ?_ fun _ => rfl⟩⟩
      exact (ensureFresh_same _ stale spawns).1
    | sleepIfIdle idle =>
      refine ⟨fun h => ih.mp h.1, fun h => ⟨ih.mpr h, (hlast (ih.mpr h)).of_same ?_ fun _ => rfl⟩⟩
      exact (sleepIfIdle_same _ idle).1
    | sleepNow => exact ⟨fun h => ih.mp h.1, fun h => ⟨ih.mpr h, (hlast (ih.mpr h)).of_same rfl fun _ => rfl⟩⟩
    | checkMemoryLimit first second =>
      refine ⟨fun h => ih.mp h.1, fun h => ⟨ih.mpr h, (hlast (ih.mpr h)).of_same ?_ fun _ => rfl⟩⟩
      exact (checkMemoryLimit_same _ first second).1

theorem everyState_congr {P Q : SupervisorRun → Prop} (h : ∀ run, P run ↔ Q run) (run : SupervisorRun) :
    run.EveryState P ↔ run.EveryState Q := by
  induction run with
  | nil => exact h []
  | cons call before ih => exact and_congr ih (h (call :: before))

end SupervisorRun

/-- No file change is lost, exactly when no replay times out on one that is owed. -/
theorem file_changes_are_kept (limit : Option Nat) (run : SupervisorRun) :
    run.EveryState (SupervisorRun.Kept limit) ↔ run.ReplaysLand limit :=
  (SupervisorRun.everyState_congr SupervisorRun.kept_iff_held run).trans (SupervisorRun.held_everyState_iff run)

def timedOutReplay : SupervisorRun :=
  [.replayPending true fun _ => false, .fileChanged "a.ts" true, .sleepNow]

theorem file_changes_timedOutReplay :
    timedOutReplay.owes none "a.ts" = true ∧ (timedOutReplay.state none).dirty.order = [] ∧
      (timedOutReplay.state none).hasPending = false := by
  decide +kernel

end GMesh
