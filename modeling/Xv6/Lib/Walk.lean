import Mathlib.Data.List.Nodup
import Mathlib.Data.List.Perm.Basic
/-!
# Walks along a successor function

`Walk next x l z`: whoever starts at `x` and follows `next` visits the elements
of `l` in order and is then at `z`. A circular list is a walk from a node back
to it.
-/

namespace Xv6

variable {α : Type} {next next' : α → α} {x z a b : α} {l l₁ l₂ : List α}

def Walk (next : α → α) : α → List α → α → Prop
  | x, [], z => x = z
  | x, a :: l, z => x = a ∧ Walk next (next a) l z

theorem walk_append : Walk next x (l₁ ++ l₂) z ↔ ∃ y, Walk next x l₁ y ∧ Walk next y l₂ z := by
  induction l₁ generalizing x with
  | nil => simp [Walk]
  | cons a l ih => simp only [List.cons_append, Walk, ih, exists_and_left, and_assoc]

theorem Walk.append {y : α} (h₁ : Walk next x l₁ y) (h₂ : Walk next y l₂ z) : Walk next x (l₁ ++ l₂) z :=
  walk_append.2 ⟨y, h₁, h₂⟩

/-- A walk does not see changes away from the nodes it leaves. -/
theorem Walk.congr (h : Walk next x l z) (hsame : ∀ a ∈ l, next' a = next a) : Walk next' x l z := by
  induction l generalizing x with
  | nil => exact h
  | cons a l ih =>
    refine ⟨h.1, ?_⟩
    rw [hsame a List.mem_cons_self]
    exact ih h.2 fun b hb => hsame b (List.mem_cons_of_mem _ hb)

/-- Where a walk goes from one of its nodes. -/
theorem Walk.after (h : Walk next x (l₁ ++ a :: l₂) z) : Walk next (next a) l₂ z := by
  obtain ⟨y, -, h₂⟩ := walk_append.1 h
  exact h₂.2

/-- The first part of a walk ends where the rest begins. -/
theorem Walk.before (h : Walk next x (l₁ ++ a :: l₂) z) : Walk next x l₁ a := by
  obtain ⟨y, h₁, h₂⟩ := walk_append.1 h
  exact h₂.1 ▸ h₁

theorem Walk.map_next (h : Walk next x (a :: l) z) : (a :: l).map next = l ++ [z] := by
  induction l generalizing x a with
  | nil =>
    rw [List.map_singleton, show next a = z from h.2]
    rfl
  | cons b l ih =>
    rw [List.map_cons, ih h.2, h.2.1]
    rfl

/-- In a circular list a node has one predecessor. -/
theorem Walk.next_inj (h : Walk next x l x) (hl : l.Nodup) (ha : a ∈ l) (hb : b ∈ l) (hab : next a = next b) :
    a = b := by
  cases l with
  | nil => cases ha
  | cons c l =>
    have hmap : ((c :: l).map next).Nodup := by
      rw [h.map_next, h.1]
      exact (List.perm_append_singleton c l).nodup_iff.2 hl
    exact List.inj_on_of_nodup_map hmap ha hb hab

end Xv6
