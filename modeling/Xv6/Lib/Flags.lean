import Mathlib.Data.BitVec
/-!
# A word of flags

A word read as the set of its bits. A read-modify-write loads the word, changes
one bit and stores the result; another store in between is undone by it, unless
the word loaded still agrees with the one in memory off the changed bit
(`Agree`). Then it does to the set what its operation says (`flags_apply`).
-/

namespace Xv6.Flags

variable {w : Nat} {i j : Fin w} {u v : BitVec w}

/-- The bits that are set. -/
def flags (v : BitVec w) : Set (Fin w) := { i | v.getLsbD i = true }

instance (v : BitVec w) (i : Fin w) : Decidable (i ∈ flags v) := inferInstanceAs (Decidable (_ = true))

theorem mem_flags : i ∈ flags v ↔ v.getLsbD i = true := Iff.rfl

theorem flags_zero : flags (0 : BitVec w) = ∅ := by
  ext i
  simp [mem_flags]

theorem getLsbD_one (i j : Fin w) : (1#w <<< i.val).getLsbD j = decide (j = i) := by
  rw [← BitVec.twoPow_eq, BitVec.getLsbD_twoPow]
  simp [Fin.ext_iff, eq_comm]

theorem and_one_ne_zero : v &&& 1#w <<< i.val ≠ 0 ↔ i ∈ flags v := by
  rw [mem_flags, ← BitVec.twoPow_eq, BitVec.and_twoPow]
  split
  · rename_i h
    have h1 : (BitVec.twoPow w i).getLsbD i ≠ (0 : BitVec w).getLsbD i := by simp
    exact ⟨fun _ => h, fun _ e => h1 (by rw [e])⟩
  · rename_i h
    exact ⟨fun e => absurd rfl e, fun e => absurd e h⟩

/-- The words have the same bits, bit `i` apart. -/
def Agree (i : Fin w) (u v : BitVec w) : Prop := ∀ j, j ≠ i → (j ∈ flags u ↔ j ∈ flags v)

instance : Decidable (Agree i u v) := inferInstanceAs (Decidable (∀ j, j ≠ i → (j ∈ flags u ↔ j ∈ flags v)))

inductive Op where
  | set | clear | flip
  deriving DecidableEq, Repr

/-- The word that is stored when `v` was loaded. -/
def Op.apply (i : Fin w) (v : BitVec w) : Op → BitVec w
  | .set => v ||| 1#w <<< i.val
  | .clear => v &&& ~~~(1#w <<< i.val)
  | .flip => v ^^^ 1#w <<< i.val

theorem mem_apply (op : Op) :
    j ∈ flags (op.apply i v) ↔ if j = i then op = .set ∨ (op = .flip ∧ i ∉ flags v) else j ∈ flags v := by
  have hj := j.isLt
  cases op <;> simp only [Op.apply, mem_flags, BitVec.getLsbD_or, BitVec.getLsbD_and, BitVec.getLsbD_xor,
    BitVec.getLsbD_not, getLsbD_one] <;> by_cases h : j = i <;> simp [h]

theorem mem_set : i ∈ flags (Op.set.apply i v) := (mem_apply _).2 (by simp)

/-- A read-modify-write that is not late, as an operation on the set: a flip
clears a bit that was loaded as set. -/
theorem flags_apply {op : Op} (ha : Agree i v u) (hf : op = .flip → i ∈ flags v) :
    flags (op.apply i v) = if op = .set then insert i (flags u) else flags u \ {i} := by
  ext j
  rw [mem_apply]
  by_cases h : j = i
  · cases op <;> simp_all
  · have := ha j h
    cases op <;> simp_all

end Xv6.Flags
