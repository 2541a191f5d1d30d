import Mathlib.Data.List.Basic
import Mathlib.Algebra.Order.Ring.Int

namespace GMesh

structure FileBaseline (η : Type) where
  mtime : Int
  hash : η
  deriving DecidableEq, Repr

inductive FileActivity (η : Type)
  | idle
  | statted (reindexes : Bool) (mtime : Int)
  | unchanged (b : FileBaseline η)
  | deciding (b : FileBaseline η)
  | answered (b : FileBaseline η)
  | walking (started : Int)
  | walked (started : Int)
  | walkStatted (mtime : Int)
  | walkHashed (b : FileBaseline η)
  | walkChecked (b : FileBaseline η)
  deriving DecidableEq, Repr

/-- In milliseconds. -/
def walkBaselineMtimeMargin : Int := 2000

/-- One file: its bytes, those its rows were extracted from, and its baseline. A write is stamped at most the margin
before it happens. -/
structure WatchedFile (α η : Type) where
  disk : α
  mtime : Int
  wroteAt : Int
  clock : Int
  indexed : Option α := none
  recorded : Option (FileBaseline η) := none
  activity : FileActivity η := .idle
  honest : wroteAt - walkBaselineMtimeMargin ≤ mtime
  past : wroteAt ≤ clock

/-- What happens to the file. A check is a stat, a read, and a write. -/
inductive FileStep (α : Type)
  | tick (later : Nat)
  | write (bytes : α) (mtime : Int)
  | reparse
  | stat (reindexes : Bool)
  | read
  | refresh
  | reindex (succeeds : Bool)
  | record
  | startWalk
  | walkFile
  | statWalked
  | hashWalked
  | restatWalked
  | recordWalked
  deriving DecidableEq, Repr

namespace WatchedFile

variable {α η : Type} (hash : α → η)

def extracted (s : WatchedFile α η) : WatchedFile α η := { s with indexed := some s.disk }

def goTo (s : WatchedFile α η) (activity : FileActivity η) : WatchedFile α η := { s with activity }

def recordedAs (s : WatchedFile α η) (b : FileBaseline η) : WatchedFile α η :=
  { s with recorded := some b, activity := .idle }

def written (s : WatchedFile α η) (bytes : α) (mtime : Int) : WatchedFile α η :=
  if h : s.mtime < mtime ∧ s.clock - walkBaselineMtimeMargin ≤ mtime then
    { s with disk := bytes, mtime, wroteAt := s.clock, honest := h.2, past := le_refl _ }
  else s

def ticked (s : WatchedFile α η) (later : Nat) : WatchedFile α η :=
  { s with clock := s.clock + later, past := by have := s.past; omega }

section Steps

variable [DecidableEq η]

def readFile (s : WatchedFile α η) (reindexes : Bool) (mtime : Int) : WatchedFile α η :=
  if s.recorded.any (·.hash = hash s.disk) then s.goTo (.unchanged ⟨mtime, hash s.disk⟩)
  else if reindexes then s.goTo (.deciding ⟨mtime, hash s.disk⟩) else s.goTo .idle

def step (s : WatchedFile α η) : FileStep α → WatchedFile α η
  | .tick later => s.ticked later
  | .write bytes mtime => s.written bytes mtime
  | .reparse => s.extracted
  | .stat reindexes =>
    match s.activity with
    | .idle => if s.recorded.any (·.mtime = s.mtime) then s else s.goTo (.statted reindexes s.mtime)
    | _ => s
  | .read =>
    match s.activity with
    | .statted reindexes mtime => s.readFile hash reindexes mtime
    | _ => s
  | .refresh =>
    match s.activity with
    | .unchanged b => s.recordedAs b
    | _ => s
  | .reindex succeeds =>
    match s.activity with
    | .deciding b => if succeeds then s.extracted.goTo (.answered b) else s.goTo .idle
    | _ => s
  | .record =>
    match s.activity with
    | .answered b => s.recordedAs b
    | _ => s
  | .startWalk =>
    match s.activity with
    | .idle => s.goTo (.walking s.clock)
    | _ => s
  | .walkFile =>
    match s.activity with
    | .walking started => s.extracted.goTo (.walked started)
    | _ => s
  | .statWalked =>
    match s.activity with
    | .walked started =>
      if 0 ≤ started - walkBaselineMtimeMargin ∧ s.mtime < started - walkBaselineMtimeMargin then
        s.goTo (.walkStatted s.mtime)
      else s.goTo .idle
    | _ => s
  | .hashWalked =>
    match s.activity with
    | .walkStatted mtime => s.goTo (.walkHashed ⟨mtime, hash s.disk⟩)
    | _ => s
  | .restatWalked =>
    match s.activity with
    | .walkHashed b => if s.mtime = b.mtime then s.goTo (.walkChecked b) else s.goTo .idle
    | _ => s
  | .recordWalked =>
    match s.activity with
    | .walkChecked b => s.recordedAs b
    | _ => s

def judgesFresh (s : WatchedFile α η) : FileStep α → Bool
  | .stat _ =>
    match s.activity with
    | .idle => s.recorded.any (·.mtime = s.mtime)
    | _ => false
  | .read =>
    match s.activity with
    | .statted _ _ => s.recorded.any (·.hash = hash s.disk)
    | _ => false
  | _ => false

end Steps

def armed (s : WatchedFile α η) : List (FileBaseline η) :=
  s.recorded.toList ++
    match s.activity with
    | .unchanged b | .answered b | .walkChecked b => [b]
    | _ => []

/-- No write brings back a baseline's bytes while the rows come from others. -/
def SparesBaselines (s : WatchedFile α η) : FileStep α → Prop
  | .write bytes _ => ∀ b ∈ s.armed, b.hash = hash bytes → s.indexed = some bytes
  | _ => True

/-- Where the baseline's hash or time is the file's, the rows come from its bytes. -/
def Vouches (s : WatchedFile α η) (b : FileBaseline η) : Prop :=
  b.mtime ≤ s.mtime ∧ (b.hash = hash s.disk ∨ b.mtime = s.mtime → s.indexed = some s.disk)

def Knows (s : WatchedFile α η) : FileActivity η → Prop
  | .idle => True
  | .statted _ mtime => mtime ≤ s.mtime
  | .deciding b => b.mtime ≤ s.mtime
  | .unchanged b | .answered b | .walkChecked b => s.Vouches hash b
  | .walking started => started ≤ s.clock
  | .walked started => started ≤ s.clock ∧ (s.wroteAt < started → s.indexed = some s.disk)
  | .walkStatted mtime => mtime ≤ s.mtime ∧ (mtime = s.mtime → s.indexed = some s.disk)
  | .walkHashed b => b.mtime ≤ s.mtime ∧ (b.mtime = s.mtime → s.indexed = some s.disk)

structure Sound (s : WatchedFile α η) : Prop where
  recorded : ∀ b, s.recorded = some b → s.Vouches hash b
  activity : s.Knows hash s.activity

variable {s : WatchedFile α η} {b : FileBaseline η}

theorem Vouches.of_current (hb : b.mtime ≤ s.mtime) (hcurrent : s.indexed = some s.disk) : s.Vouches hash b :=
  ⟨hb, fun _ => hcurrent⟩

theorem Vouches.extracted (hb : s.Vouches hash b) : s.extracted.Vouches hash b :=
  .of_current hash hb.1 rfl

variable {activity : FileActivity η}

theorem Knows.extracted (hs : s.Knows hash activity) : s.extracted.Knows hash activity := by
  cases activity with
  | idle | statted | deciding | walking => exact hs
  | unchanged b | answered b | walkChecked b => exact .extracted hash hs
  | walked started | walkStatted mtime | walkHashed b => exact ⟨hs.1, fun _ => rfl⟩

theorem Sound.goTo (hs : s.Sound hash) (hactivity : s.Knows hash activity) : (s.goTo activity).Sound hash :=
  ⟨hs.recorded, by cases activity <;> exact hactivity⟩

theorem Sound.extracted (hs : s.Sound hash) : s.extracted.Sound hash :=
  ⟨fun b hb => (hs.recorded b hb).extracted, .extracted hash hs.activity⟩

theorem Sound.recordedAs (hb : s.Vouches hash b) : (s.recordedAs b).Sound hash := by
  refine ⟨fun b' hb' => ?_, trivial⟩
  cases hb'
  exact hb

theorem Sound.ticked (hs : s.Sound hash) (later : Nat) : (s.ticked later).Sound hash := by
  refine ⟨hs.recorded, ?_⟩
  have hactivity := hs.activity
  revert hactivity
  change s.Knows hash s.activity → (s.ticked later).Knows hash s.activity
  cases s.activity with
  | walking started =>
    intro hstarted
    have : started ≤ s.clock := hstarted
    change started ≤ s.clock + later
    omega
  | walked started =>
    rintro ⟨hstarted, hindexed⟩
    refine ⟨?_, hindexed⟩
    change started ≤ s.clock + later
    omega
  | _ => exact id

variable {bytes : α} {mtime : Int}

theorem Vouches.written (hb : s.Vouches hash b) (hspares : b.hash = hash bytes → s.indexed = some bytes) :
    (s.written bytes mtime).Vouches hash b := by
  unfold WatchedFile.written
  split
  next hlater =>
    have holder : b.mtime < mtime := by have := hb.1; omega
    refine ⟨holder.le, ?_⟩
    rintro (hhash | hsame)
    · exact hspares hhash
    · exact absurd hsame holder.ne
  next => exact hb

theorem written_activity (s : WatchedFile α η) (bytes : α) (mtime : Int) :
    (s.written bytes mtime).activity = s.activity := by
  unfold WatchedFile.written
  split <;> rfl

theorem written_recorded (s : WatchedFile α η) (bytes : α) (mtime : Int) :
    (s.written bytes mtime).recorded = s.recorded := by
  unfold WatchedFile.written
  split <;> rfl

theorem Knows.written (hs : s.Knows hash activity)
    (hspares : ∀ b, activity = .unchanged b ∨ activity = .answered b ∨ activity = .walkChecked b →
      b.hash = hash bytes → s.indexed = some bytes) : (s.written bytes mtime).Knows hash activity := by
  cases activity with
  | idle => exact hs
  | unchanged b => exact .written hash hs (hspares b (.inl rfl))
  | answered b => exact .written hash hs (hspares b (.inr (.inl rfl)))
  | walkChecked b => exact .written hash hs (hspares b (.inr (.inr rfl)))
  | statted | deciding | walking | walked | walkStatted | walkHashed =>
    unfold WatchedFile.written
    split
    next hlater =>
      simp only [Knows] at hs ⊢
      omega
    next => exact hs

theorem mem_armed_of_recorded (hb : s.recorded = some b) : b ∈ s.armed := by
  simp [armed, hb]

theorem mem_armed_of_activity
    (hb : s.activity = .unchanged b ∨ s.activity = .answered b ∨ s.activity = .walkChecked b) : b ∈ s.armed := by
  rcases hb with hb | hb | hb <;> simp [armed, hb]

section

variable (hs : s.Sound hash)

include hs

theorem Sound.written (hspares : ∀ b ∈ s.armed, b.hash = hash bytes → s.indexed = some bytes) :
    (s.written bytes mtime).Sound hash := by
  constructor
  · intro b hb
    rw [written_recorded] at hb
    exact (hs.recorded b hb).written hash (hspares b (mem_armed_of_recorded hb))
  · rw [written_activity]
    exact .written hash hs.activity fun b hb => hspares b (mem_armed_of_activity hb)

theorem Sound.current_of_any {agrees : FileBaseline η → Bool}
    (hagrees : ∀ b, agrees b → b.hash = hash s.disk ∨ b.mtime = s.mtime)
    (hany : s.recorded.any agrees) : s.indexed = some s.disk := by
  cases hb : s.recorded with
  | none => simp [hb] at hany
  | some b =>
    rw [hb, Option.any_some] at hany
    exact (hs.recorded b hb).2 (hagrees b hany)

theorem Sound.statWalked {started : Int} (hwalked : s.Knows hash (.walked started))
    (holder : s.mtime < started - walkBaselineMtimeMargin) : (s.goTo (.walkStatted s.mtime)).Sound hash := by
  have hbefore : s.wroteAt < started := by have := s.honest; omega
  exact hs.goTo hash ⟨le_refl _, fun _ => hwalked.2 hbefore⟩

end

section Checks

variable [DecidableEq η] {s : WatchedFile α η} {a : FileStep α}

section

variable (hs : s.Sound hash)

include hs

theorem Sound.current_of_hash (hany : s.recorded.any (·.hash = hash s.disk)) : s.indexed = some s.disk :=
  hs.current_of_any hash (fun _ hb => .inl (of_decide_eq_true hb)) hany

theorem Sound.readFile (reindexes : Bool) {mtime : Int} (hmtime : mtime ≤ s.mtime) :
    (s.readFile hash reindexes mtime).Sound hash := by
  unfold WatchedFile.readFile
  split
  next hsame => exact hs.goTo hash (.of_current hash hmtime (hs.current_of_hash hash hsame))
  next =>
    split
    · exact hs.goTo hash hmtime
    · exact hs.goTo hash trivial

/-- Every step that brings no baseline's bytes back keeps the baselines right. -/
theorem Sound.step (ha : s.SparesBaselines hash a) : (s.step hash a).Sound hash := by
  have hknows := hs.activity
  cases a with
  | tick later => exact hs.ticked hash later
  | write bytes mtime => exact hs.written hash ha
  | reparse => exact hs.extracted hash
  | stat reindexes =>
    simp only [WatchedFile.step]
    split
    · split
      · exact hs
      · exact hs.goTo hash (le_refl _)
    · exact hs
  | read =>
    simp only [WatchedFile.step]
    split
    next hactivity =>
      rw [hactivity] at hknows
      exact hs.readFile hash _ hknows
    next => exact hs
  | refresh | record | recordWalked =>
    simp only [WatchedFile.step]
    split
    next hactivity =>
      rw [hactivity] at hknows
      exact .recordedAs hash hknows
    next => exact hs
  | reindex succeeds =>
    simp only [WatchedFile.step]
    split
    next hactivity =>
      rw [hactivity] at hknows
      split
      · exact (hs.extracted hash).goTo hash (.of_current hash hknows rfl)
      · exact hs.goTo hash trivial
    next => exact hs
  | startWalk =>
    simp only [WatchedFile.step]
    split
    · exact hs.goTo hash (le_refl s.clock)
    · exact hs
  | walkFile =>
    simp only [WatchedFile.step]
    split
    next hactivity =>
      rw [hactivity] at hknows
      exact (hs.extracted hash).goTo hash ⟨hknows, fun _ => rfl⟩
    next => exact hs
  | statWalked =>
    simp only [WatchedFile.step]
    split
    next hactivity =>
      rw [hactivity] at hknows
      split
      next holder => exact hs.statWalked hash hknows holder.2
      next => exact hs.goTo hash trivial
    next => exact hs
  | hashWalked =>
    simp only [WatchedFile.step]
    split
    next hactivity =>
      rw [hactivity] at hknows
      exact hs.goTo hash hknows
    next => exact hs
  | restatWalked =>
    simp only [WatchedFile.step]
    split
    next hactivity =>
      rw [hactivity] at hknows
      split
      next hsame => exact hs.goTo hash (.of_current hash hknows.1 (hknows.2 hsame.symm))
      next => exact hs.goTo hash trivial
    next => exact hs

theorem Sound.current_of_judgesFresh (hfresh : s.judgesFresh hash a) : s.indexed = some s.disk := by
  cases a with
  | stat reindexes =>
    simp only [judgesFresh] at hfresh
    split at hfresh
    · exact hs.current_of_any hash (fun _ hb => .inr (of_decide_eq_true hb)) hfresh
    · cases hfresh
  | read =>
    simp only [judgesFresh] at hfresh
    split at hfresh
    · exact hs.current_of_hash hash hfresh
    · cases hfresh
  | _ => cases hfresh

end

def after (opened : WatchedFile α η) : List (FileStep α) → WatchedFile α η
  | [] => opened
  | a :: before => (opened.after before).step hash a

def SparesThroughout (opened : WatchedFile α η) : List (FileStep α) → Prop
  | [] => True
  | a :: before => SparesThroughout opened before ∧ (opened.after hash before).SparesBaselines hash a

variable {opened : WatchedFile α η} {history : List (FileStep α)}

theorem Sound.after (hopened : opened.Sound hash) (hspares : opened.SparesThroughout hash history) :
    (opened.after hash history).Sound hash := by
  induction history with
  | nil => exact hopened
  | cons _ _ ih => exact (ih hspares.1).step hash hspares.2

theorem SparesThroughout.of_suffix {before : List (FileStep α)} (hsuffix : before <:+ history)
    (hspares : opened.SparesThroughout hash history) : opened.SparesThroughout hash before := by
  induction history with
  | nil =>
    obtain rfl := List.suffix_nil.mp hsuffix
    exact hspares
  | cons _ _ ih =>
    rcases List.suffix_cons_iff.mp hsuffix with rfl | hrest
    · exact hspares
    · exact ih hrest hspares.1

/-- As long as no write brings back a baseline's bytes while the rows come from others, a check judges the file fresh
only when its rows come from the bytes on disk. -/
theorem fresh_files_are_current {opened : WatchedFile α η} {history before : List (FileStep α)} {a : FileStep α}
    (hunrecorded : opened.recorded = none) (hidle : opened.activity = .idle)
    (hspares : opened.SparesThroughout hash history) (hsuffix : a :: before <:+ history)
    (hfresh : (opened.after hash before).judgesFresh hash a = true) :
    (opened.after hash before).indexed = some (opened.after hash before).disk := by
  have hopened : opened.Sound hash := by
    constructor
    · simp [hunrecorded]
    · rw [hidle]
      trivial
  have hbefore := (hspares.of_suffix hash hsuffix).1
  exact (hopened.after hash hbefore).current_of_judgesFresh hash hfresh

end Checks

/-- A file of the bytes `0`, last written long before the daemon starts. -/
def oldFile : WatchedFile Nat Nat :=
  { disk := 0, mtime := 0, wroteAt := 0, clock := 10000, honest := by decide, past := by decide }

def walkSteps : List (FileStep Nat) :=
  [.recordWalked, .restatWalked, .hashWalked, .statWalked, .walkFile, .startWalk]

/-- A touch after the walk is judged by the hash of the bytes. -/
theorem fresh_files_touchedFile :
    (oldFile.after id ([.stat false, .write 0 10001] ++ walkSteps)).judgesFresh id .read = true ∧
      (oldFile.after id ([.stat false, .write 0 10001] ++ walkSteps)).indexed = some 0 :=
  ⟨by decide, fresh_files_are_current id rfl rfl (by simp [SparesThroughout, SparesBaselines, walkSteps]; decide)
    (List.suffix_refl ([.read, .stat false, .write 0 10001] ++ walkSteps)) (by decide)⟩

/-- The watcher reparses an edit and misses the write that undoes it. -/
theorem fresh_files_undoneEdit :
    (oldFile.after id ([.stat false, .write 0 10002, .reparse, .write 1 10001] ++ walkSteps)).judgesFresh id .read
        = true ∧
      (oldFile.after id ([.stat false, .write 0 10002, .reparse, .write 1 10001] ++ walkSteps)).disk = 0 ∧
      (oldFile.after id ([.stat false, .write 0 10002, .reparse, .write 1 10001] ++ walkSteps)).indexed = some 1 := by
  decide

end WatchedFile

end GMesh
