import Mathlib.Data.BitVec
/-!
# Ring buffers with free-running counters

A queue in an array of `N` cells, with two counters of `w` bits that only ever
go up: how many elements were put in and how many were taken out. Positions
are counted without wrapping; position `a` is in cell `a` modulo `N`. Where
`N` divides the range of the counters, the wrapped counters find the same
cells, and where it is below the range they still tell empty from full.
-/

namespace Xv6.Fifo

variable {α : Type} {N w : Nat} [NeZero N] {cells : Fin N → α} {a n : Nat} {v : α}

/-- The `n` elements from position `a` on. -/
def window (cells : Fin N → α) (a n : Nat) : List α := (List.range n).map fun j => cells (Fin.ofNat N (a + j))

@[simp] theorem length_window : (window cells a n).length = n := by simp [window]

theorem cell_inj {j k : Nat} (hj : j < N) (hk : k < N) (h : Fin.ofNat N (a + j) = Fin.ofNat N (a + k)) : j = k := by
  have hmod : a + j ≡ a + k [MOD N] := congrArg Fin.val h
  have := Nat.ModEq.add_left_cancel' a hmod
  rwa [Nat.ModEq, Nat.mod_eq_of_lt hj, Nat.mod_eq_of_lt hk] at this

/-- An element is put behind the others, in a cell that is free. -/
theorem window_push (hn : n < N) :
    window (Function.update cells (Fin.ofNat N (a + n)) v) a (n + 1) = window cells a n ++ [v] := by
  have hkeep : ∀ j ∈ List.range n, Function.update cells (Fin.ofNat N (a + n)) v (Fin.ofNat N (a + j)) =
      cells (Fin.ofNat N (a + j)) := by
    intro j hj
    have hlt := List.mem_range.1 hj
    apply Function.update_of_ne
    intro he
    have := cell_inj (by omega) hn he
    omega
  rw [window, List.range_succ, List.map_append, List.map_congr_left hkeep]
  simp [window]

theorem window_succ : window cells a (n + 1) = window cells a n ++ [cells (Fin.ofNat N (a + n))] := by
  rw [window, List.range_succ, List.map_append]
  rfl

theorem window_add {m : Nat} : window cells a (n + m) = window cells a n ++ window cells (a + n) m := by
  simp only [window, List.range_add, List.map_append, List.map_map]
  congr 1
  refine List.map_congr_left fun j _ => ?_
  simp only [Function.comp_apply, Nat.add_assoc]

theorem window_pop : window cells a (n + 1) = cells (Fin.ofNat N a) :: window cells (a + 1) n := by
  simp only [window, List.range_succ_eq_map, List.map_cons, List.map_map, Nat.add_zero]
  congr 1
  refine List.map_congr_left fun j _ => ?_
  simp only [Function.comp_apply, Nat.succ_eq_add_one]
  congr 2
  omega

/-! ## Counters -/

theorem cell_ofNat (hN : N ∣ 2 ^ w) : Fin.ofNat N (BitVec.ofNat w a).toNat = Fin.ofNat N a := by
  apply Fin.ext
  simp only [Fin.val_ofNat, BitVec.toNat_ofNat]
  exact Nat.mod_mod_of_dvd a hN

theorem window_ofNat (hN : N ∣ 2 ^ w) : window cells (BitVec.ofNat w a).toNat n = window cells a n := by
  refine List.map_congr_left fun j _ => congrArg cells (Fin.ext ?_)
  simp only [Fin.val_ofNat, BitVec.toNat_ofNat]
  rw [Nat.add_mod, Nat.mod_mod_of_dvd a hN, ← Nat.add_mod]

theorem counters_eq_iff {d e : Nat} (hd : d < 2 ^ w) (he : e < 2 ^ w) :
    BitVec.ofNat w (a + d) = BitVec.ofNat w (a + e) ↔ d = e := by
  refine ⟨fun h => ?_, fun h => by rw [h]⟩
  have hmod : a + d ≡ a + e [MOD 2 ^ w] := by
    have := congrArg BitVec.toNat h
    rwa [BitVec.toNat_ofNat, BitVec.toNat_ofNat] at this
  have := Nat.ModEq.add_left_cancel' a hmod
  rwa [Nat.ModEq, Nat.mod_eq_of_lt hd, Nat.mod_eq_of_lt he] at this

/-- How many elements there are, from the wrapped counters. -/
theorem counters_sub {d : Nat} (hd : d < 2 ^ w) : (BitVec.ofNat w (a + d) - BitVec.ofNat w a).toNat = d := by
  rw [BitVec.ofNat_add, BitVec.add_comm, BitVec.add_sub_cancel, BitVec.toNat_ofNat, Nat.mod_eq_of_lt hd]

theorem counter_succ : BitVec.ofNat w a + 1 = BitVec.ofNat w (a + 1) := by
  rw [BitVec.ofNat_add]
  rfl

theorem counter_pred : BitVec.ofNat w (a + 1) - 1 = BitVec.ofNat w a := by
  rw [← counter_succ, BitVec.add_sub_cancel]

end Xv6.Fifo
