import Mathlib.Algebra.Order.BigOperators.Group.List
import Mathlib.Algebra.Order.Ring.Nat
import Mathlib.Tactic.Ring

namespace GMesh

open List

/-- The rows of a recursive query without `ORDER BY`: a row read first in, first out joins the result and queues its
expansion, up to `limit` rows. -/
def fifo {α : Type} (step : α → List α) : Nat → List α → List α
  | 0, _ => []
  | _ + 1, [] => []
  | limit + 1, w :: queue => w :: fifo step limit (queue ++ step w)

variable {α : Type} {step : α → List α}

theorem fifo_length_le (limit : Nat) (queue : List α) : (fifo step limit queue).length ≤ limit := by
  fun_induction fifo step limit queue with
  | case1 | case2 => simp
  | case3 _ _ _ ih => simpa using ih

theorem fifo_take {n m : Nat} (h : n ≤ m) (queue : List α) : fifo step n queue = (fifo step m queue).take n := by
  induction n generalizing m queue with
  | zero => simp [fifo]
  | succ n ih =>
    obtain ⟨m, rfl⟩ := Nat.exists_eq_add_of_le' (show 1 ≤ m by omega)
    cases queue with
    | nil => simp [fifo]
    | cons w queue => simp [fifo, ih (show n ≤ m by omega)]

theorem fifo_queue_first (limit : Nat) (first rest : List α) :
    fifo step (first.length + limit) (first ++ rest) =
      first ++ fifo step limit (rest ++ first.flatMap step) := by
  induction first generalizing rest with
  | nil => simp
  | cons w first ih =>
    have hl : (w :: first).length + limit = (first.length + limit) + 1 := by simp; omega
    rw [hl, cons_append, fifo, append_assoc, ih]
    simp [append_assoc]

variable {queue : List α} {limit : Nat} {P : α → Prop}

theorem fifo_forall (hq : ∀ w ∈ queue, P w) (hstep : ∀ w, P w → ∀ x ∈ step w, P x) (limit : Nat) :
    ∀ w ∈ fifo step limit queue, P w := by
  fun_induction fifo step limit queue with
  | case1 | case2 => simp
  | case3 _ w _ ih =>
    intro x hx
    rcases mem_cons.mp hx with rfl | hx
    · exact hq x mem_cons_self
    · refine ih ?_ x hx
      intro y hy
      rcases mem_append.mp hy with hy | hy
      · exact hq y (mem_cons_of_mem _ hy)
      · exact hstep w (hq w mem_cons_self) y hy

theorem fifo_origin {x : α} (h : x ∈ fifo step limit queue) : x ∈ queue ∨ ∃ w ∈ fifo step limit queue, x ∈ step w := by
  fun_induction fifo step limit queue with
  | case1 | case2 => cases h
  | case3 _ w _ ih =>
    rcases mem_cons.mp h with rfl | h
    · exact .inl mem_cons_self
    · rcases ih h with hq | ⟨p, hp, hx⟩
      · rcases mem_append.mp hq with hq | hq
        · exact .inl (mem_cons_of_mem _ hq)
        · exact .inr ⟨w, mem_cons_self, hq⟩
      · exact .inr ⟨p, mem_cons_of_mem _ hp, hx⟩

theorem fifo_congr {step' : α → List α} (hq : ∀ w ∈ queue, P w)
    (hstep : ∀ w, P w → step w = step' w ∧ ∀ x ∈ step w, P x) (limit : Nat) :
    fifo step limit queue = fifo step' limit queue := by
  fun_induction fifo step limit queue with
  | case1 | case2 => rfl
  | case3 _ w _ ih =>
    obtain ⟨heq, hP⟩ := hstep w (hq w mem_cons_self)
    rw [fifo, ← heq, ih]
    intro x hx
    rcases mem_append.mp hx with hx | hx
    · exact hq x (mem_cons_of_mem _ hx)
    · exact hP x hx

theorem fifo_closed (h : (fifo step limit queue).length < limit) :
    (∀ w ∈ queue, w ∈ fifo step limit queue) ∧
      ∀ w ∈ fifo step limit queue, ∀ x ∈ step w, x ∈ fifo step limit queue := by
  fun_induction fifo step limit queue with
  | case1 => cases h
  | case2 => simp
  | case3 _ _ _ ih =>
    obtain ⟨hqueue, hclosed⟩ := ih (Nat.lt_of_succ_lt_succ h)
    constructor
    · intro x hx
      rcases mem_cons.mp hx with rfl | hx
      · exact mem_cons_self
      · exact mem_cons_of_mem _ (hqueue x (mem_append_left _ hx))
    · intro x hx y hy
      rcases mem_cons.mp hx with rfl | hx
      · exact mem_cons_of_mem _ (hqueue y (mem_append_right _ hy))
      · exact mem_cons_of_mem _ (hclosed x hx y hy)

section Whole

variable {queue rows : List α} (h : ∀ limit, fifo step limit queue = rows.take limit)

include h

theorem fifo_whole : fifo step (rows.length + 1) queue = rows := by
  rw [h, take_of_length_le (by omega)]

theorem fifo_whole_closed : (∀ w ∈ queue, w ∈ rows) ∧ ∀ w ∈ rows, ∀ x ∈ step w, x ∈ rows := by
  have hw := fifo_whole h
  have hlt : (fifo step (rows.length + 1) queue).length < rows.length + 1 := by
    rw [hw]
    omega
  have hc := fifo_closed hlt
  rwa [hw] at hc

theorem fifo_whole_head : rows.head? = queue.head? := by
  have h1 := h 1
  cases queue with
  | nil =>
    cases rows with
    | nil => rfl
    | cons r rows => simp [fifo] at h1
  | cons w queue =>
    cases rows with
    | nil => simp [fifo] at h1
    | cons r rows =>
      simp only [fifo, take_succ_cons, take_zero, List.cons.injEq, and_true] at h1
      simp [h1]

end Whole

section Depth

variable {depth : α → Nat}

/-- The queue is ordered by depth, with no row deeper than another's children. -/
structure LevelQueue (step : α → List α) (depth : α → Nat) (queue : List α) : Prop where
  sorted : queue.Pairwise (fun a b => depth a ≤ depth b)
  span : ∀ w ∈ queue, step w ≠ [] → ∀ x ∈ queue, depth x ≤ depth w + 1

theorem step_sorted {w : α} (hstep : ∀ x ∈ step w, depth x = depth w + 1) :
    (step w).Pairwise (fun a b => depth a ≤ depth b) := by
  refine pairwise_iff_forall_sublist.mpr ?_
  intro a b hab
  have hm := hab.subset
  rw [hstep a (hm (by simp)), hstep b (hm (by simp))]

variable {queue : List α}

theorem flatMap_step_sorted (hstep : ∀ w, ∀ x ∈ step w, depth x = depth w + 1)
    (h : queue.Pairwise (fun a b => depth a ≤ depth b)) :
    (queue.flatMap step).Pairwise (fun a b => depth a ≤ depth b) := by
  induction queue with
  | nil => simp
  | cons w _ ih =>
    have hs := pairwise_cons.mp h
    rw [flatMap_cons, pairwise_append]
    refine ⟨step_sorted (hstep w), ih hs.2, ?_⟩
    intro a ha b hb
    obtain ⟨u, hu, hb⟩ := mem_flatMap.mp hb
    rw [hstep w a ha, hstep u b hb]
    have := hs.1 u hu
    omega

theorem LevelQueue.next {w : α} (h : LevelQueue step depth (w :: queue))
    (hstep : ∀ x ∈ step w, depth x = depth w + 1) : LevelQueue step depth (queue ++ step w) := by
  have hs := pairwise_cons.mp h.sorted
  have hle : ∀ y ∈ queue ++ step w, depth w ≤ depth y := by
    intro y hy
    rcases mem_append.mp hy with hy | hy
    · exact hs.1 y hy
    · rw [hstep y hy]
      omega
  constructor
  · rw [pairwise_append]
    refine ⟨hs.2, step_sorted hstep, ?_⟩
    intro a ha b hb
    rw [hstep b hb]
    exact h.span w mem_cons_self (ne_nil_of_mem hb) a (mem_cons_of_mem _ ha)
  · intro u hu hne x hx
    rcases mem_append.mp hx with hx | hx
    · rcases mem_append.mp hu with hu | hu
      · exact h.span u (mem_cons_of_mem _ hu) hne x (mem_cons_of_mem _ hx)
      · have := h.span w mem_cons_self (ne_nil_of_mem hu) x (mem_cons_of_mem _ hx)
        have := hle u (mem_append_right _ hu)
        omega
    · have := hle u hu
      rw [hstep x hx]
      omega

theorem fifo_sorted (hstep : ∀ w, ∀ x ∈ step w, depth x = depth w + 1) (limit : Nat)
    (h : LevelQueue step depth queue) : (fifo step limit queue).Pairwise (fun a b => depth a ≤ depth b) := by
  fun_induction fifo step limit queue with
  | case1 | case2 => exact .nil
  | case3 limit w _ ih =>
    rw [pairwise_cons]
    refine ⟨?_, ih (h.next (hstep w))⟩
    refine fifo_forall ?_ ?_ limit
    · intro x hx
      rcases mem_append.mp hx with hx | hx
      · exact (pairwise_cons.mp h.sorted).1 x hx
      · rw [hstep w x hx]
        omega
    · intro x hx y hy
      rw [hstep x y hy]
      omega

def rowBudget (depth : α → Nat) (width maxDepth : Nat) (w : α) : Nat :=
  (width + 1) ^ (maxDepth - depth w)

variable {width maxDepth : Nat}

theorem rowBudget_step {w : α} (hstep : ∀ x ∈ step w, depth x = depth w + 1) (hwidth : (step w).length ≤ width)
    (hdeep : maxDepth ≤ depth w → step w = []) :
    ((step w).map (rowBudget depth width maxDepth)).sum < rowBudget depth width maxDepth w := by
  rcases Nat.lt_or_ge (depth w) maxDepth with hlt | hge
  · have hsum : ((step w).map (rowBudget depth width maxDepth)).sum ≤
        (step w).length * (width + 1) ^ (maxDepth - (depth w + 1)) := by
      have := sum_le_card_nsmul ((step w).map (rowBudget depth width maxDepth))
        ((width + 1) ^ (maxDepth - (depth w + 1))) ?_
      · simpa using this
      · intro n hn
        obtain ⟨x, hx, rfl⟩ := mem_map.mp hn
        rw [rowBudget, hstep x hx]
    have hpos : 0 < (width + 1) ^ (maxDepth - (depth w + 1)) := Nat.pow_pos (by omega)
    have hpow : (width + 1) ^ (maxDepth - depth w) =
        width * (width + 1) ^ (maxDepth - (depth w + 1)) + (width + 1) ^ (maxDepth - (depth w + 1)) := by
      rw [show maxDepth - depth w = (maxDepth - (depth w + 1)) + 1 by omega, pow_succ]
      ring
    have hmul := Nat.mul_le_mul_right ((width + 1) ^ (maxDepth - (depth w + 1))) hwidth
    rw [rowBudget, hpow]
    omega
  · rw [hdeep hge, rowBudget]
    exact Nat.pow_pos (by omega)

section

variable (hstep : ∀ w, ∀ x ∈ step w, depth x = depth w + 1) (hwidth : ∀ w, (step w).length ≤ width)
  (hdeep : ∀ w, maxDepth ≤ depth w → step w = [])

include hstep hwidth hdeep

theorem fifo_length_le_budget (limit : Nat) (queue : List α) :
    (fifo step limit queue).length ≤ (queue.map (rowBudget depth width maxDepth)).sum := by
  fun_induction fifo step limit queue with
  | case1 | case2 => simp
  | case3 _ w _ ih =>
    have hw := rowBudget_step (hstep w) (hwidth w) (hdeep w)
    simp only [map_append, sum_append] at ih
    simp only [length_cons, map_cons, sum_cons]
    omega

/-- The query has one list of rows, and a limit takes the first of them. -/
theorem fifo_ends (queue : List α) : ∃ rows : List α, ∀ limit, fifo step limit queue = rows.take limit := by
  have hb := fifo_length_le_budget hstep hwidth hdeep
  refine ⟨fifo step (queue.map (rowBudget depth width maxDepth)).sum queue, ?_⟩
  intro limit
  rcases Nat.le_total limit (queue.map (rowBudget depth width maxDepth)).sum with hle | hle
  · exact fifo_take hle queue
  · have hcut : fifo step _ queue = _ := fifo_take hle queue
    rw [take_of_length_le (hb limit queue)] at hcut
    rw [hcut, take_of_length_le (fifo_length_le limit queue)]

end

theorem mem_take_of_shallower {rows : List α} (hs : rows.Pairwise (fun a b => depth a ≤ depth b)) {a b : α}
    (hb : b ∈ rows.take limit) (ha : a ∈ rows) (hlt : depth a < depth b) :
    a ∈ rows.take limit := by
  obtain ⟨i, hi, rfl⟩ := getElem_of_mem ha
  obtain ⟨j, hj, rfl⟩ := mem_take_iff_getElem.mp hb
  have hij : i < j := by
    by_contra hle
    rcases Nat.lt_or_ge j i with hji | hji
    · have := pairwise_iff_getElem.mp hs j i (by omega) hi hji
      omega
    · have : i = j := by omega
      subst this
      omega
  exact mem_take_iff_getElem.mpr ⟨i, by omega, rfl⟩

end Depth

end GMesh
