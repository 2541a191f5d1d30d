import Mathlib.Data.List.Basic

namespace GMesh

variable {σ : Type}

/-- A unit of a write that rolls itself back: `none` when it fails. -/
abbrev Savepoint (σ : Type) := σ → Option σ

def Savepoint.failing (fails : Bool) (unit : Savepoint σ) : Savepoint σ := fun s => if fails then none else unit s

/-- The units in order, up to the first that fails. What was written stands. -/
def runUnits : List (Savepoint σ) → σ → σ × Bool
  | [], s => (s, true)
  | unit :: rest, s =>
    match unit s with
    | none => (s, false)
    | some t => runUnits rest t

def inOneCommit (begins commits : Bool) (units : List (Savepoint σ)) (s : σ) : σ × Bool :=
  if begins && commits then runUnits units s else (s, false)

theorem Savepoint.failing_isSome (fails : Bool) (unit : Savepoint σ) (s : σ) :
    (unit.failing fails s).isSome = (!fails && (unit s).isSome) := by
  cases fails with
  | true => simp [Savepoint.failing]
  | false => simp [Savepoint.failing]

theorem runUnits_ok_cons {unit : Savepoint σ} {rest : List (Savepoint σ)} {s : σ} :
    (runUnits (unit :: rest) s).2 ↔ ∃ t, unit s = some t ∧ (runUnits rest t).2 := by
  cases h : unit s with
  | none => simp [runUnits, h]
  | some t => simp [runUnits, h]

theorem runUnits_ok {units : List (Savepoint σ)} (h : ∀ unit ∈ units, ∀ s, (unit s).isSome) (s : σ) :
    (runUnits units s).2 := by
  induction units generalizing s with
  | nil => rfl
  | cons unit rest ih =>
    obtain ⟨t, ht⟩ := Option.isSome_iff_exists.mp (h unit List.mem_cons_self s)
    have hrest : (runUnits rest t).2 := ih (fun u hu => h u (List.mem_cons_of_mem unit hu)) t
    exact runUnits_ok_cons.mpr ⟨t, ht, hrest⟩

end GMesh
