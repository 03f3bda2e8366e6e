import Mathlib.Data.Fintype.Card
/-!
# Singly linked queues

The links of a queue are kept in cells: the cell `none` points to the first
element and the cell of an element to the next one. `Chain link a l` says that
following the links from the cell `a` gives the elements of `l` and then ends.
`lastCell` is the loop that looks for the last cell, `appendLink` puts an element
behind the others and `popLink` takes the first one off.
-/

namespace Xv6

variable {α : Type} {link link' : Option α → Option α} {a : Option α} {b : α} {l : List α}

def Chain (link : Option α → Option α) : Option α → List α → Prop
  | a, [] => link a = none
  | a, b :: l => link a = some b ∧ Chain link (some b) l

/-- `for(pp = a; *pp; pp = &(*pp)->next) ;` for at most so many rounds. -/
def lastCell (link : Option α → Option α) : Nat → Option α → Option (Option α)
  | 0, _ => none
  | n + 1, a =>
    match link a with
    | none => some a
    | some b => lastCell link n (some b)

/-- A chain does not see changes away from its cells. -/
theorem Chain.congr (h : Chain link a l) (hsame : ∀ x, x = a ∨ (∃ c ∈ l, x = some c) → link' x = link x) :
    Chain link' a l := by
  induction l generalizing a with
  | nil => exact (hsame a (.inl rfl)).trans h
  | cons b l ih =>
    refine ⟨(hsame a (.inl rfl)).trans h.1, ih h.2 ?_⟩
    rintro x (rfl | ⟨c, hc, rfl⟩)
    · exact hsame _ (.inr ⟨b, List.mem_cons_self, rfl⟩)
    · exact hsame _ (.inr ⟨c, List.mem_cons_of_mem _ hc, rfl⟩)

theorem Chain.head (h : Chain link a l) : link a = l.head? := by
  cases l with
  | nil => exact h
  | cons b l => exact h.1

theorem last_cons (b : α) (l : List α) (a : Option α) : (b :: l).getLast?.or a = l.getLast?.or (some b) := by
  rw [List.getLast?_cons, Option.some_or]
  cases l.getLast? <;> rfl

/-- The loop ends at the cell of the last element. -/
theorem Chain.lastCell (h : Chain link a l) {n : Nat} (hn : l.length < n) :
    lastCell link n a = some (l.getLast?.or a) := by
  induction l generalizing a n with
  | nil =>
    obtain ⟨n, rfl⟩ := Nat.exists_eq_add_one_of_ne_zero (Nat.ne_of_gt hn)
    rw [Xv6.lastCell, show link a = none from h]
    rfl
  | cons b l ih =>
    obtain ⟨n, rfl⟩ := Nat.exists_eq_add_one_of_ne_zero (Nat.ne_of_gt (Nat.lt_of_le_of_lt (Nat.zero_le _) hn))
    have hn' : l.length < n := Nat.lt_of_succ_lt_succ hn
    rw [Xv6.lastCell, h.1, last_cons]
    exact ih h.2 hn'

section
variable [DecidableEq α]

/-- `b->next = 0; *pp = b`, with `pp` the last cell. -/
def appendLink (link : Option α → Option α) (pp : Option α) (b : α) : Option α → Option α :=
  Function.update (Function.update link (some b) none) pp (some b)

/-- `head = b->next`. -/
def popLink (link : Option α → Option α) (b : α) : Option α → Option α :=
  Function.update link none (link (some b))

theorem Chain.append (h : Chain link a l) (hl : l.Nodup) (hb : b ∉ l) (ha : a ≠ some b) (hal : ∀ c ∈ l, a ≠ some c) :
    Chain (appendLink link (l.getLast?.or a) b) a (l ++ [b]) := by
  induction l generalizing a with
  | nil =>
    refine ⟨Function.update_self .., ?_⟩
    rw [Chain, List.getLast?_nil, Option.none_or, appendLink, Function.update_of_ne ha.symm, Function.update_self]
  | cons c l ih =>
    obtain ⟨hcl, hl⟩ := List.nodup_cons.1 hl
    have hbc : b ≠ c := fun he => hb (he ▸ List.mem_cons_self)
    have hne : a ≠ l.getLast?.or (some c) := by
      rw [← last_cons c l a, List.getLast?_eq_some_getLast (List.cons_ne_nil c l), Option.some_or]
      exact hal _ (List.getLast_mem _)
    rw [last_cons]
    refine ⟨?_, ih h.2 hl (fun hm => hb (List.mem_cons_of_mem _ hm)) ?_ ?_⟩
    · rw [appendLink, Function.update_of_ne hne, Function.update_of_ne ha, h.1]
    · exact fun he => hbc (Option.some.inj he).symm
    · rintro d hd he
      exact hcl (Option.some.inj he ▸ hd)

theorem Chain.pop (h : Chain link none (b :: l)) : Chain (popLink link b) none l := by
  cases l with
  | nil => exact (Function.update_self ..).trans h.2
  | cons c l =>
    refine ⟨(Function.update_self ..).trans h.2.1, h.2.2.congr ?_⟩
    rintro x (rfl | ⟨d, -, rfl⟩) <;> exact Function.update_of_ne (by simp) ..

end

/-- In a finite type the loop ends. -/
theorem Chain.lastCell_card [Fintype α] (h : Chain link a l) (hl : l.Nodup) :
    Xv6.lastCell link (Fintype.card α + 1) a = some (l.getLast?.or a) :=
  h.lastCell (Nat.lt_succ_of_le hl.length_le_card)

end Xv6
