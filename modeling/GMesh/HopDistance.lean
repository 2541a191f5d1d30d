import Mathlib.Order.Nat
import Mathlib.Data.Nat.Find

namespace GMesh

variable {ν : Type} {hop : ν → ν → Prop} {start : ν}

inductive ReachIn (hop : ν → ν → Prop) (start : ν) : Nat → ν → Prop
  | start : ReachIn hop start 0 start
  | step {k : Nat} {u v : ν} : ReachIn hop start k u → hop u v → ReachIn hop start (k + 1) v

/-- `k` is the least number of hops from `start` to `v`. -/
structure IsDist (hop : ν → ν → Prop) (start : ν) (k : Nat) (v : ν) : Prop where
  reach : ReachIn hop start k v
  least : ∀ j, ReachIn hop start j v → k ≤ j

variable {v : ν} {k : Nat}

theorem IsDist.unique {j : Nat} (hj : IsDist hop start j v) (hk : IsDist hop start k v) : j = k :=
  Nat.le_antisymm (hj.least k hk.reach) (hk.least j hj.reach)

theorem ReachIn.exists_isDist (h : ReachIn hop start k v) : ∃ j ≤ k, IsDist hop start j v := by
  classical
  have hex : ∃ j, ReachIn hop start j v := ⟨k, h⟩
  exact ⟨Nat.find hex, Nat.find_min' hex h, Nat.find_spec hex, fun j hj => Nat.find_min' hex hj⟩

theorem IsDist.eq_start (h : IsDist hop start 0 v) : v = start := by
  cases h.reach
  rfl

theorem IsDist.pred (h : IsDist hop start (k + 1) v) : ∃ u, IsDist hop start k u ∧ hop u v := by
  cases h.reach with
  | step hu huv =>
    refine ⟨_, ⟨hu, ?_⟩, huv⟩
    intro j hj
    have := h.least (j + 1) (.step hj huv)
    omega

end GMesh
