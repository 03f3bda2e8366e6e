import Mathlib.Algebra.Order.BigOperators.Group.Finset
import Mathlib.Tactic.Abel
/-!
# Sums over threads

A shared counter that every thread adds to and takes from is the sum of what
the threads hold. A step of one thread moves its own summand only.
-/

namespace Xv6.Sums

variable {T : Type} [Fintype T] [DecidableEq T]

/-- What changing one thread's share does to the sum. -/
theorem sum_move {M : Type} [AddCommMonoid M] {f g : T → M} (t : T) (h : ∀ u, u ≠ t → g u = f u) :
    ∑ u, g u + f t = ∑ u, f u + g t := by
  have hrest : ∑ u ∈ Finset.univ.erase t, g u = ∑ u ∈ Finset.univ.erase t, f u :=
    Finset.sum_congr rfl fun u hu => h u (Finset.ne_of_mem_erase hu)
  rw [← Finset.add_sum_erase _ f (Finset.mem_univ t), ← Finset.add_sum_erase _ g (Finset.mem_univ t), hrest]
  abel

end Xv6.Sums
