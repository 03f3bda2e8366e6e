import Mathlib.Data.List.Range
/-!
# Copying cell by cell

Cells `s i` are copied to cells `d i` one at a time, in the order of a list of
indices. A cell is moved unharmed when its source is read before another copy
writes over it (`copyAll_moved`); in general a destination ends with what its
source held when it was read (`copyAll_reads`).
-/

namespace Xv6.Copying

variable {ι κ A V : Type} [DecidableEq A] {s d : ι → A} {m : A → V} {l l₁ l₂ : List ι} {i : ι} {x : A}

def copyAll (s d : ι → A) (m : A → V) (l : List ι) : A → V :=
  l.foldl (fun m i => Function.update m (d i) (m (s i))) m

@[simp] theorem copyAll_cons :
    copyAll s d m (i :: l) = copyAll s d (Function.update m (d i) (m (s i))) l := rfl

theorem copyAll_append : copyAll s d m (l₁ ++ l₂) = copyAll s d (copyAll s d m l₁) l₂ := List.foldl_append

theorem copyAll_map (f : κ → ι) (l : List κ) : copyAll s d m (l.map f) = copyAll (s ∘ f) (d ∘ f) m l :=
  List.foldl_map

theorem copyAll_of_not_mem (h : ∀ i ∈ l, d i ≠ x) : copyAll s d m l x = m x := by
  induction l generalizing m with
  | nil => rfl
  | cons i l ih =>
    rw [copyAll_cons, ih fun j hj => h j (List.mem_cons_of_mem _ hj)]
    exact Function.update_of_ne (h i List.mem_cons_self).symm _ _

theorem copyAll_reads (h : ∀ j ∈ l₂, d j ≠ d i) :
    copyAll s d m (l₁ ++ i :: l₂) (d i) = copyAll s d m l₁ (s i) := by
  rw [copyAll_append, copyAll_cons, copyAll_of_not_mem h, Function.update_self]

theorem copyAll_moved (hd : l.Pairwise fun i j => d j ≠ d i) (hs : l.Pairwise fun i j => d i ≠ s j) (hi : i ∈ l) :
    copyAll s d m l (d i) = m (s i) := by
  obtain ⟨l₁, l₂, rfl⟩ := List.append_of_mem hi
  obtain ⟨-, hd₂, -⟩ := List.pairwise_append.1 hd
  obtain ⟨-, -, hs₁⟩ := List.pairwise_append.1 hs
  have hafter : ∀ j ∈ l₂, d j ≠ d i := (List.pairwise_cons.1 hd₂).1
  rw [copyAll_reads hafter]
  exact copyAll_of_not_mem fun j hj => hs₁ j hj i List.mem_cons_self

/-! ## Upwards -/

section
variable {s d : Nat → A} {i n : Nat}

/-- Copying upwards, a cell gets what copying the ones before it left in its source. -/
theorem copyUp_reads (hd : ∀ i < n, ∀ j < n, d j = d i → j = i) (hi : i < n) :
    copyAll s d m (List.range n) (d i) = copyAll s d m (List.range i) (s i) := by
  obtain ⟨c, rfl⟩ : ∃ c, n = i + (c + 1) := ⟨n - i - 1, by omega⟩
  rw [List.range_add, List.range_succ_eq_map, List.map_cons, Nat.add_zero]
  refine copyAll_reads fun j hj => ?_
  simp only [List.map_map, List.mem_map, List.mem_range, Function.comp_apply] at hj
  obtain ⟨k, hk, rfl⟩ := hj
  intro heq
  have := hd i (by omega) _ (by omega) heq
  omega

end

end Xv6.Copying
