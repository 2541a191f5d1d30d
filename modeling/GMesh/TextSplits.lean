import Mathlib.Data.List.Basic

namespace GMesh

open List

variable {α : Type} [DecidableEq α] {c : α} {t tail : List α}

/-- The part before the last occurrence of a character, and the part after it. -/
def rsplitOnce (c : α) : List α → Option (List α × List α)
  | [] => none
  | a :: t =>
    match rsplitOnce c t with
    | some (head, tail) => some (a :: head, tail)
    | none => if a = c then some ([], t) else none

theorem rsplitOnce_eq_none_iff : rsplitOnce c t = none ↔ c ∉ t := by
  induction t with
  | nil => simp [rsplitOnce]
  | cons _ t ih =>
    rw [rsplitOnce, mem_cons, not_or, ← ih]
    cases h : rsplitOnce c t with
    | none => simp [eq_comm]
    | some parts => simp

theorem rsplitOnce_append (hc : c ∉ tail) (head : List α) : rsplitOnce c (head ++ c :: tail) = some (head, tail) := by
  induction head with
  | nil => simp [rsplitOnce, rsplitOnce_eq_none_iff.mpr hc]
  | cons _ _ ih => simp [rsplitOnce, ih]

variable {parts : List α × List α}

theorem rsplitOnce_append_some (h : rsplitOnce c t = some parts) (head : List α) :
    rsplitOnce c (head ++ t) = some (head ++ parts.1, parts.2) := by
  induction head with
  | nil => exact h
  | cons _ _ ih => simp [rsplitOnce, ih]

theorem rsplitOnce_some (h : rsplitOnce c t = some parts) : t = parts.1 ++ c :: parts.2 := by
  induction t generalizing parts with
  | nil => cases h
  | cons _ _ ih =>
    rw [rsplitOnce] at h
    split at h
    next head tail hrest =>
      cases h
      rw [ih hrest]
      rfl
    next =>
      split at h
      next hc =>
        cases h
        rw [hc]
        rfl
      next => cases h

omit [DecidableEq α] in
theorem intercalate_append (sep : List α) {us vs : List (List α)} (hu : us ≠ []) (hv : vs ≠ []) :
    sep.intercalate (us ++ vs) = sep.intercalate us ++ sep ++ sep.intercalate vs := by
  induction us with
  | nil => exact absurd rfl hu
  | cons _ us ih =>
    cases us with
    | nil =>
      obtain ⟨v, vs, rfl⟩ := exists_cons_of_ne_nil hv
      simp
    | cons w us =>
      rw [cons_append, cons_append, intercalate_cons_cons, intercalate_cons_cons, ← cons_append, ih (cons_ne_nil w us)]
      simp [append_assoc]

theorem not_mem_of_mem_splitOn : ∀ s ∈ t.splitOn c, c ∉ s := by
  induction t with
  | nil => simp
  | cons _ t ih =>
    rw [splitOn_cons_eq_if_modifyHead]
    split
    next =>
      intro s hs
      rcases mem_cons.mp hs with rfl | hs
      · simp
      · exact ih s hs
    next ha =>
      cases hsplit : t.splitOn c with
      | nil => exact absurd hsplit (splitOn_ne_nil c t)
      | cons first rest =>
        rw [hsplit] at ih
        intro s hs
        rcases mem_cons.mp hs with rfl | hs
        · have hfirst := ih first (mem_cons_self ..)
          simp only [beq_iff_eq] at ha
          simp [hfirst, Ne.symm ha]
        · exact ih s (mem_cons_of_mem first hs)

end GMesh
