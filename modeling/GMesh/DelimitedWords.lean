import Mathlib.Data.List.Infix

namespace GMesh

open List

variable {α : Type} {d : α}

def delimit (d : α) (words : List (List α)) : List α :=
  d :: words.flatMap (fun w => w ++ [d])

theorem delimit_append (words : List (List α)) (w : List α) :
    delimit d (words ++ [w]) = delimit d words ++ w ++ [d] := by
  simp [delimit, flatMap_append]

theorem delimit_cons (w : List α) (words : List (List α)) : delimit d (w :: words) = d :: (w ++ delimit d words) := by
  simp [delimit]

variable {v rest : List α}

theorem eq_of_delimited_isPrefix {w : List α} (hv : d ∉ v) (hw : d ∉ w) (h : v ++ [d] <+: w ++ d :: rest) : v = w := by
  induction v generalizing w with
  | nil =>
    cases w with
    | nil => rfl
    | cons a w =>
      obtain ⟨_, h⟩ := h
      simp at h
      exact absurd h.1 (fun he => hw (he ▸ mem_cons_self))
  | cons _ _ ih =>
    cases w with
    | nil =>
      simp at h
      exact absurd h.1 (fun he => hv (he ▸ mem_cons_self))
    | cons a w =>
      rw [cons_append, cons_append, cons_prefix_cons] at h
      rw [h.1, ih (fun hm => hv (mem_cons_of_mem _ hm)) (fun hm => hw (mem_cons_of_mem _ hm)) h.2]

theorem infix_of_delimited_append {p w : List α} (hw : d ∉ w) (h : d :: p <:+: w ++ rest) : d :: p <:+: rest := by
  induction w with
  | nil => simpa using h
  | cons _ _ ih =>
    rw [cons_append, infix_cons_iff] at h
    rcases h with h | h
    · rw [cons_prefix_cons] at h
      exact absurd (h.1 ▸ mem_cons_self) hw
    · exact ih (fun hm => hw (mem_cons_of_mem _ hm)) h

variable {words : List (List α)}

theorem delimit_infix_of_mem (h : v ∈ words) : delimit d [v] <:+: delimit d words := by
  induction words with
  | nil => simp at h
  | cons w words ih =>
    rw [delimit_cons w words]
    rcases mem_cons.mp h with rfl | h
    · refine List.IsPrefix.isInfix ⟨words.flatMap (fun w => w ++ [d]), ?_⟩
      simp [delimit]
    · obtain ⟨s, t, hst⟩ := ih h
      exact ⟨d :: (w ++ s), t, by rw [← hst]; simp⟩

theorem delimit_infix_iff (hv : d ∉ v) (hw : ∀ w ∈ words, d ∉ w) : delimit d [v] <:+: delimit d words ↔ v ∈ words := by
  refine ⟨?_, delimit_infix_of_mem⟩
  induction words with
  | nil =>
    intro h
    have := h.length_le
    simp [delimit] at this
  | cons w _ ih =>
    intro h
    have hfree := hw w mem_cons_self
    have hv1 : delimit d [v] = d :: (v ++ [d]) := by simp [delimit]
    rw [hv1, delimit_cons, infix_cons_iff] at h
    rcases h with h | h
    · rw [cons_prefix_cons] at h
      exact mem_cons.mpr (.inl (eq_of_delimited_isPrefix hv hfree h.2))
    · have hrest := infix_of_delimited_append hfree h
      rw [← hv1] at hrest
      exact mem_cons_of_mem _ (ih (forall_mem_cons.mp hw).2 hrest)

end GMesh
