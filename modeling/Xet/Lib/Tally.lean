import Mathlib.Algebra.BigOperators.Group.Multiset.Basic

/-! What the threads of a system have together. A thread has a weight in its present state, and a step of one
thread changes the total by the change of its own weight. -/
namespace Tally
open Multiset

variable {τ : Type} (f g : τ → Nat) (ts : Multiset τ) (t : τ)

def tally : Nat := (ts.map f).sum

@[simp] theorem tally_zero : tally f 0 = 0 := rfl

@[simp] theorem tally_cons : tally f (t ::ₘ ts) = f t + tally f ts := by
  rw [tally, map_cons, sum_cons, tally]

variable {f g ts t}

theorem le_tally (member : t ∈ ts) : f t ≤ tally f ts := by
  obtain ⟨rest, rfl⟩ := exists_cons_of_mem member
  rw [tally_cons]
  exact Nat.le_add_right _ _

theorem tally_map {step : τ → τ} (same : ∀ t ∈ ts, f (step t) = f t) : tally f (ts.map step) = tally f ts := by
  rw [tally, map_map, tally]
  exact congrArg sum (map_congr rfl same)

theorem eq_zero_of_tally (none : tally f ts = 0) (member : t ∈ ts) : f t = 0 :=
  Nat.eq_zero_of_le_zero (none ▸ le_tally member)

theorem tally_eq_zero (none : ∀ t ∈ ts, f t = 0) : tally f ts = 0 := by
  induction ts using Multiset.induction with
  | empty => rfl
  | cons t ts ih =>
    rw [tally_cons, none t (mem_cons_self t ts), ih fun u member => none u (mem_cons_of_mem member)]

end Tally
