import Mathlib.Order.Nat

namespace GMesh

variable {τ ρ : Type} {call : Nat → Option τ → Except String ρ} {token : ρ → Option τ}

/-- The results of calls that hand every token back until none is returned. -/
inductive CallChain (call : Nat → Option τ → Except String ρ) (token : ρ → Option τ) :
    Nat → Option τ → List ρ → Prop
  | last {i : Nat} {t : Option τ} {r : ρ} :
    call i t = .ok r → token r = none → CallChain call token i t [r]
  | next {i : Nat} {t : Option τ} {r : ρ} {t' : τ} {rs : List ρ} :
    call i t = .ok r → token r = some t' → CallChain call token (i + 1) (some t') rs →
      CallChain call token i t (r :: rs)

/-- Calls that keep an invariant while a measure falls come to an end. -/
theorem callChain_ends (Inv : Option τ → Prop) (measure : Option τ → Nat)
    (h : ∀ i t, Inv t → ∃ r, call i t = .ok r ∧ ∀ t', token r = some t' → Inv (some t') ∧ measure (some t') < measure t)
    {t : Option τ} (ht : Inv t) (i : Nat) : ∃ rs, CallChain call token i t rs := by
  obtain ⟨n, hn⟩ : ∃ n, measure t ≤ n := ⟨_, le_rfl⟩
  induction n generalizing t i with
  | zero =>
    obtain ⟨r, hr, hnext⟩ := h i t ht
    cases htok : token r with
    | none => exact ⟨[r], .last hr htok⟩
    | some t' =>
      have := (hnext t' htok).2
      omega
  | succ n ih =>
    obtain ⟨r, hr, hnext⟩ := h i t ht
    cases htok : token r with
    | none => exact ⟨[r], .last hr htok⟩
    | some t' =>
      obtain ⟨hinv, hlt⟩ := hnext t' htok
      obtain ⟨rs, hrs⟩ := ih hinv (i + 1) (by omega)
      exact ⟨r :: rs, .next hr htok hrs⟩

def runCalls (call : Nat → Option τ → Except String ρ) (token : ρ → Option τ) :
    Nat → Nat → Option τ → Option (List ρ)
  | 0, _, _ => none
  | fuel + 1, i, t =>
    match call i t with
    | .error _ => none
    | .ok r =>
      match token r with
      | none => some [r]
      | some t' => (runCalls call token fuel (i + 1) (some t')).map (r :: ·)

theorem callChain_of_runCalls {fuel i : Nat} {t : Option τ} {rs : List ρ}
    (h : runCalls call token fuel i t = some rs) : CallChain call token i t rs := by
  induction fuel generalizing i t rs with
  | zero => simp [runCalls] at h
  | succ fuel ih =>
    rw [runCalls] at h
    split at h
    next => simp at h
    next r hr =>
      split at h
      next htok =>
        cases h
        exact .last hr htok
      next t' htok =>
        obtain ⟨rest, hrest, rfl⟩ := Option.map_eq_some_iff.mp h
        exact .next hr htok (ih hrest)

inductive CallMade (call : Nat → Option τ → Except String ρ) (token : ρ → Option τ) :
    Nat → Option τ → Prop
  | first : CallMade call token 0 none
  | next {i : Nat} {t : Option τ} {r : ρ} {t' : τ} : CallMade call token i t → call i t = .ok r →
      token r = some t' → CallMade call token (i + 1) (some t')

end GMesh
