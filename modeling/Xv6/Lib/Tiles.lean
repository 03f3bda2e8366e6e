import Mathlib.Data.List.Infix
/-!
# Pieces that follow one another

A piece is a position and a length. `Tiles lo l hi` says that the pieces of `l`,
the latest first, fill the range from `lo` to `hi` one after another.
-/

namespace Xv6

variable {lo hi n : Nat} {l : List (Nat × Nat)}

def Tiles (lo : Nat) : List (Nat × Nat) → Nat → Prop
  | [], hi => hi = lo
  | p :: l, hi => hi = p.1 + p.2 ∧ Tiles lo l p.1

namespace Tiles

theorem push (h : Tiles lo l hi) (n : Nat) : Tiles lo ((hi, n) :: l) (hi + n) := ⟨rfl, h⟩

theorem bounds {p : Nat × Nat} (h : Tiles lo l hi) (hp : p ∈ l) : lo ≤ p.1 ∧ p.1 + p.2 ≤ hi := by
  induction l generalizing hi p with
  | nil => cases hp
  | cons q l ih =>
    obtain ⟨rfl, hq⟩ := h
    have hlo : lo ≤ q.1 := by
      cases l with
      | nil => exact hq.ge
      | cons r l => exact (ih hq List.mem_cons_self).1.trans ((Nat.le_add_right ..).trans hq.1.ge)
    rcases List.mem_cons.1 hp with rfl | hp
    · exact ⟨hlo, le_rfl⟩
    · exact ⟨(ih hq hp).1, (ih hq hp).2.trans (Nat.le_add_right ..)⟩

/-- A piece ends before the later ones begin. -/
theorem pairwise (h : Tiles lo l hi) : l.Pairwise fun p q => q.1 + q.2 ≤ p.1 := by
  induction l generalizing hi with
  | nil => exact .nil
  | cons q l ih =>
    obtain ⟨-, hq⟩ := h
    exact .cons (fun p hp => (hq.bounds hp).2) (ih hq)

end Tiles

end Xv6
