import GMesh.GoLayout

namespace GMesh

open List

def maxDuration : Nat := (2 ^ 64 - 1) * 10 ^ 9 + 999999999

/-- The earliest start after a run with this end and duration. The product saturates. -/
def earliest (gapFactor : Nat) (r : Nat × Nat) : Nat := r.1 + min (r.2 * gapFactor) maxDuration

/-- The subtrees whose events were dropped, until a reconcile of them is due. Times are counted in nanoseconds. -/
structure RescanScheduler where
  settle : Nat
  maxDelay : Nat
  gapFactor : Nat
  pending : List WireText := []
  firstAt : Option Nat := none
  lastAt : Option Nat := none
  notBefore : Option Nat := none

namespace RescanScheduler

/-- Whether `relative` lies in one of the subtrees. The empty one is the whole project. -/
def underAny (relative : WireText) (subtrees : List WireText) : Bool :=
  subtrees.any fun subtree => subtree.isEmpty || subtree.isPrefixOf relative &&
    ((relative.drop subtree.length).isEmpty || (relative.drop subtree.length).head? == some '/')

variable {p : WireText} {subtrees : List WireText}

theorem underAny_iff : underAny p subtrees ↔ ∃ s ∈ subtrees, Under s p := by
  unfold underAny
  rw [any_eq_true]
  refine exists_congr fun s => and_congr_right fun _ => ?_
  rw [under_iff, Bool.or_eq_true, List.isEmpty_iff]
  refine or_congr_right ?_
  simp only [Bool.and_eq_true, isPrefixOf_iff_prefix, Bool.or_eq_true, List.isEmpty_iff, beq_iff_eq]
  constructor
  · rintro ⟨⟨rest, rfl⟩, hrest⟩
    rcases rest with _ | ⟨c, rest⟩
    · exact .inl (append_nil s)
    · obtain rfl : c = '/' := by simpa using hrest
      exact .inr ⟨rest, rfl⟩
  · rintro (rfl | ⟨rest, rfl⟩)
    · simp
    · simp

variable (s : RescanScheduler)

def recordAt (subtree : WireText) (now : Nat) : RescanScheduler :=
  { s with
    firstAt := if s.pending.isEmpty then some now else s.firstAt
    lastAt := some now
    pending := if underAny subtree s.pending then s.pending
      else s.pending.filter (fun held => !underAny held [subtree]) ++ [subtree] }

def dueAt (now : Nat) : Option (List WireText) × RescanScheduler :=
  match s.firstAt, s.lastAt with
  | some firstAt, some lastAt =>
    if s.pending.isEmpty then (none, s)
    else if s.notBefore.any fun notBefore => decide (now < notBefore) then (none, s)
    else if ¬s.settle ≤ now - lastAt ∧ ¬s.maxDelay ≤ now - firstAt then (none, s)
    else (some (s.pending.insertionSort (· ≤ ·)), { s with pending := [], firstAt := none, lastAt := none })
  | _, _ => (none, s)

def ranAt (ended took : Nat) : RescanScheduler := { s with notBefore := some (earliest s.gapFactor (ended, took)) }

theorem dueAt_eq (now : Nat) : s.dueAt now = (none, s) ∨ s.dueAt now =
    (some (s.pending.insertionSort (· ≤ ·)), { s with pending := [], firstAt := none, lastAt := none }) := by
  unfold dueAt
  repeat' split
  all_goals simp

/-- A reconcile is due when subtrees are pending, the gap is over, and events have settled or waited long. -/
theorem dueAt_isSome_iff (now : Nat) : (s.dueAt now).1.isSome ↔ s.pending ≠ [] ∧
    (∀ notBefore ∈ s.notBefore, notBefore ≤ now) ∧ ∃ firstAt lastAt, s.firstAt = some firstAt ∧
      s.lastAt = some lastAt ∧ (s.settle ≤ now - lastAt ∨ s.maxDelay ≤ now - firstAt) := by
  have hgap : s.notBefore.any (fun b => decide (now < b)) ↔ ¬∀ b ∈ s.notBefore, b ≤ now := by
    simp [Option.any_eq_true]
  unfold dueAt
  rcases s.firstAt with _ | firstAt <;> rcases s.lastAt with _ | lastAt
  · simp
  · simp
  · simp
  · simp only [hgap, List.isEmpty_iff, Option.some.injEq]
    split
    next hnil => simp [hnil]
    next hpending =>
      split
      next hearly => exact iff_of_false (by simp) fun hfires => hearly hfires.2.1
      next hlate =>
        split
        next hwait =>
          refine iff_of_false (by simp) ?_
          rintro ⟨-, -, _, _, rfl, rfl, hdue⟩
          omega
        next hdue =>
          exact iff_of_true rfl ⟨hpending, not_not.mp hlate, firstAt, lastAt, rfl, rfl, by omega⟩

inductive Call
  | record (subtree : WireText)
  | due
  | ran (took : Nat)

/-- A scheduler with what was recorded since `due_at` last fired and the run that ended last. -/
structure History where
  scheduler : RescanScheduler
  recorded : List (Nat × WireText) := []
  lastRun : Option (Nat × Nat) := none

namespace History

def call (h : History) (now : Nat) : Call → History
  | .record subtree => { h with
      scheduler := h.scheduler.recordAt subtree now, recorded := h.recorded ++ [(now, subtree)] }
  | .due => { h with
      scheduler := (h.scheduler.dueAt now).2
      recorded := if (h.scheduler.dueAt now).1.isSome then [] else h.recorded }
  | .ran took => { h with scheduler := h.scheduler.ranAt now took, lastRun := some (now, took) }

def run (h : History) (calls : List (Nat × Call)) : History :=
  calls.foldl (fun h c => h.call c.1 c.2) h

structure Keeps (settle maxDelay gapFactor : Nat) (h : History) : Prop where
  timings : h.scheduler.settle = settle ∧ h.scheduler.maxDelay = maxDelay ∧ h.scheduler.gapFactor = gapFactor
  apart : h.scheduler.pending.Pairwise fun a b => ¬Under a b ∧ ¬Under b a
  covers : ∀ p, (∃ s ∈ h.scheduler.pending, Under s p) ↔ ∃ r ∈ h.recorded, Under r.2 p
  firstAt : h.scheduler.firstAt = h.recorded.head?.map Prod.fst
  lastAt : h.scheduler.lastAt = h.recorded.getLast?.map Prod.fst
  notBefore : h.scheduler.notBefore = h.lastRun.map (earliest gapFactor)

variable {settle maxDelay gapFactor : Nat} {h : History} (k : Keeps settle maxDelay gapFactor h)

include k

theorem Keeps.pending_nil : h.scheduler.pending = [] ↔ h.recorded = [] := by
  constructor
  · intro hnil
    rw [eq_nil_iff_forall_not_mem]
    intro r hr
    obtain ⟨s, hs, -⟩ := (k.covers r.2).mpr ⟨r, hr, under_refl r.2⟩
    simp [hnil] at hs
  · intro hnil
    rw [eq_nil_iff_forall_not_mem]
    intro s hs
    obtain ⟨r, hr, -⟩ := (k.covers s).mp ⟨s, hs, under_refl s⟩
    simp [hnil] at hr

/-- A recorded subtree is covered, and the pending ones stay apart. -/
theorem Keeps.record (now : Nat) (subtree : WireText) :
    Keeps settle maxDelay gapFactor (h.call now (.record subtree)) := by
  refine { k with
    apart := ?_, covers := fun p => ?_, firstAt := ?_, lastAt := by simp [call, recordAt] }
  · simp only [call, recordAt]
    split
    next => exact k.apart
    next hnew =>
      rw [underAny_iff] at hnew
      refine pairwise_append.mpr ⟨k.apart.filter _, pairwise_singleton _ _, fun a ha b hb => ?_⟩
      obtain rfl := mem_singleton.mp hb
      obtain ⟨ha, hout⟩ := mem_filter.mp ha
      rw [Bool.not_eq_true', ← Bool.not_eq_true, underAny_iff] at hout
      exact ⟨fun hu => hnew ⟨a, ha, hu⟩, fun hu => hout ⟨b, hb, hu⟩⟩
  · have hcovers := k.covers p
    simp only [call, recordAt, mem_append, mem_singleton, or_and_right, exists_or, exists_eq_left, ← hcovers]
    split
    next hold =>
      obtain ⟨s, hs, hu⟩ := underAny_iff.mp hold
      exact ⟨.inl, fun hp => hp.elim id fun hp => ⟨s, hs, hu.trans hp⟩⟩
    next =>
      simp only [mem_append, mem_singleton, or_and_right, exists_or, exists_eq_left]
      refine ⟨.imp_left fun ⟨s, hs, hp⟩ => ⟨s, (mem_filter.mp hs).1, hp⟩, ?_⟩
      rintro (⟨s, hs, hp⟩ | hp)
      · by_cases hin : Under subtree s
        · exact .inr (hin.trans hp)
        · refine .inl ⟨s, mem_filter.mpr ⟨hs, ?_⟩, hp⟩
          rw [Bool.not_eq_true', ← Bool.not_eq_true, underAny_iff]
          simpa using hin
      · exact .inr hp
  · have hnil := k.pending_nil
    simp only [call, recordAt, List.isEmpty_iff]
    by_cases hrec : h.recorded = []
    · simp [hnil.mpr hrec, hrec]
    · rw [if_neg (mt hnil.mp hrec), k.firstAt, List.head?_append_of_ne_nil _ hrec]

theorem Keeps.call (now : Nat) (c : Call) : Keeps settle maxDelay gapFactor (h.call now c) := by
  cases c with
  | record subtree => exact k.record now subtree
  | due =>
    unfold History.call
    rcases h.scheduler.dueAt_eq now with hdue | hdue <;> rw [hdue]
    · exact k
    · exact ⟨k.timings, .nil, by simp, rfl, rfl, k.notBefore⟩
  | ran took => exact { k with notBefore := by simp [History.call, ranAt, k.timings] }

theorem Keeps.run (calls : List (Nat × Call)) : Keeps settle maxDelay gapFactor (h.run calls) := by
  induction calls generalizing h with
  | nil => exact k
  | cons c _ ih => exact ih (k.call c.1 c.2)

end History

/-- What a scheduler holds after any calls, and when `due_at` then fires. -/
theorem rescan_history (settle maxDelay gapFactor : Nat) (calls : List (Nat × Call)) (now : Nat) :
    let h := History.run { scheduler := { settle, maxDelay, gapFactor } } calls
    (h.scheduler.pending.Pairwise fun a b => underAny a [b] = false ∧ underAny b [a] = false) ∧
    (∀ p, underAny p h.scheduler.pending = underAny p (h.recorded.map Prod.snd)) ∧
    (∀ subtrees ∈ (h.scheduler.dueAt now).1, subtrees.Perm h.scheduler.pending ∧ subtrees.Pairwise (· ≤ ·) ∧
      (h.scheduler.dueAt now).2.pending = [] ∧
      ∀ r ∈ h.lastRun, earliest gapFactor r ≤ now) ∧
    (h.scheduler.pending ≠ [] → (∀ r ∈ h.lastRun, earliest gapFactor r ≤ now) →
      ∃ first last, h.recorded.head? = some first ∧ h.recorded.getLast? = some last ∧
        ((h.scheduler.dueAt now).1.isSome = true ↔ settle ≤ now - last.1 ∨ maxDelay ≤ now - first.1)) := by
  intro h
  have hstart : History.Keeps settle maxDelay gapFactor { scheduler := { settle, maxDelay, gapFactor } } :=
    ⟨⟨rfl, rfl, rfl⟩, .nil, by simp, rfl, rfl, rfl⟩
  have k : History.Keeps settle maxDelay gapFactor h := hstart.run calls
  have hfires := h.scheduler.dueAt_isSome_iff now
  simp only [k.firstAt, k.lastAt, k.notBefore, k.timings] at hfires
  refine ⟨k.apart.imp ?_, fun p => ?_, fun subtrees hsome => ?_, fun hpending hgap => ?_⟩
  · rintro a b ⟨hab, hba⟩
    simp only [← Bool.not_eq_true, underAny_iff, mem_singleton, exists_eq_left]
    exact ⟨hba, hab⟩
  · rw [Bool.eq_iff_iff, underAny_iff, underAny_iff, k.covers]
    simp only [mem_map, exists_exists_and_eq_and]
  · have hgap := (hfires.mp (Option.isSome_iff_exists.mpr ⟨subtrees, hsome⟩)).2.1
    rcases h.scheduler.dueAt_eq now with hdue | hdue <;> rw [hdue] at hsome ⊢
    · cases hsome
    · cases hsome
      refine ⟨perm_insertionSort _ _, pairwise_insertionSort _ _, rfl, fun r hr => hgap _ ?_⟩
      exact Option.mem_map_of_mem _ hr
  · have hrecorded := mt k.pending_nil.mpr hpending
    refine ⟨_, _, head?_eq_some_head hrecorded, getLast?_eq_some_getLast hrecorded, ?_⟩
    have hlate : ∀ b ∈ h.lastRun.map (earliest gapFactor), b ≤ now := by
      intro b hb
      obtain ⟨r, hr, rfl⟩ := Option.mem_map.mp hb
      exact hgap r hr
    rw [hfires, and_iff_right hpending, and_iff_right hlate, head?_eq_some_head hrecorded,
      getLast?_eq_some_getLast hrecorded]
    simp

end RescanScheduler

end GMesh
