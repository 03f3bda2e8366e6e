import Mathlib.Data.List.Nodup
/-!
# Circular doubly linked lists

The nodes are the elements of a type and one more, the head of the list, which
is `none`. `Ring r l` says that the links of `r` lead from the head through the
elements of `l` in order and back, and the same way round in the other
direction. `unlink` and `push` are the usual pointer assignments, in their
usual order, and `walk` is the loop that looks for an element.
-/

namespace Xv6

variable {α : Type}

structure Links (α : Type) where
  next : Option α → Option α
  prev : Option α → Option α

namespace Links

section
variable [DecidableEq α]

def setNext (r : Links α) (x y : Option α) : Links α := { r with next := Function.update r.next x y }

def setPrev (r : Links α) (x y : Option α) : Links α := { r with prev := Function.update r.prev x y }

/-- `b->next->prev = b->prev; b->prev->next = b->next` -/
def unlink (r : Links α) (b : α) : Links α :=
  let r := r.setPrev (r.next (some b)) (r.prev (some b))
  r.setNext (r.prev (some b)) (r.next (some b))

/-- `b->next = head.next; b->prev = &head; head.next->prev = b; head.next = b` -/
def push (r : Links α) (b : α) : Links α :=
  let r := r.setNext (some b) (r.next none)
  let r := r.setPrev (some b) none
  let r := r.setPrev (r.next none) (some b)
  r.setNext none (some b)

end

/-- The links lead from `a` through the elements of `l` to `z`, and back. -/
def Path (r : Links α) : Option α → List α → Option α → Prop
  | a, [], z => r.next a = z ∧ r.prev z = a
  | a, b :: l, z => r.next a = some b ∧ r.prev (some b) = a ∧ r.Path (some b) l z

def Ring (r : Links α) (l : List α) : Prop := r.Path none l none

variable {r r' : Links α} {a y z : Option α} {b : α} {l l₁ l₂ : List α}

theorem path_append : r.Path a (l₁ ++ b :: l₂) z ↔ r.Path a l₁ (some b) ∧ r.Path (some b) l₂ z := by
  induction l₁ generalizing a with
  | nil => simp only [List.nil_append, Path]; tauto
  | cons c l ih => simp only [List.cons_append, Path, ih]; tauto

/-- A path does not see changes away from its nodes. -/
theorem Path.congr (h : r.Path a l z) (hn : ∀ x, x = a ∨ (∃ c ∈ l, x = some c) → r'.next x = r.next x)
    (hp : ∀ x, x = z ∨ (∃ c ∈ l, x = some c) → r'.prev x = r.prev x) : r'.Path a l z := by
  induction l generalizing a with
  | nil => exact ⟨(hn a (.inl rfl)).trans h.1, (hp z (.inl rfl)).trans h.2⟩
  | cons c l ih =>
    obtain ⟨h1, h2, h3⟩ := h
    refine ⟨(hn a (.inl rfl)).trans h1, (hp _ (.inr ⟨c, by simp, rfl⟩)).trans h2, ih h3 ?_ ?_⟩
    · rintro x (rfl | ⟨d, hd, rfl⟩)
      · exact hn _ (.inr ⟨c, by simp, rfl⟩)
      · exact hn _ (.inr ⟨d, by simp [hd], rfl⟩)
    · rintro x (rfl | ⟨d, hd, rfl⟩)
      · exact hp _ (.inl rfl)
      · exact hp _ (.inr ⟨d, by simp [hd], rfl⟩)

theorem Path.prev_end (h : r.Path a l z) : r.prev z = a ∨ ∃ c ∈ l, r.prev z = some c := by
  induction l generalizing a with
  | nil => exact .inl h.2
  | cons c l ih =>
    rcases ih h.2.2 with h' | ⟨d, hd, h'⟩
    · exact .inr ⟨c, by simp, h'⟩
    · exact .inr ⟨d, by simp [hd], h'⟩

section
variable [DecidableEq α]

/-- The last node of a path can be made to lead elsewhere. -/
theorem Path.retarget (h : r.Path a l z) (ha : ∀ c ∈ l, a ≠ some c) (hl : l.Nodup) (hy : ∀ c ∈ l, y ≠ some c) :
    Path ⟨Function.update r.next (r.prev z) y, Function.update r.prev y (r.prev z)⟩ a l y := by
  induction l generalizing a with
  | nil =>
    obtain ⟨-, h2⟩ := h
    subst h2
    simp [Path]
  | cons c l ih =>
    obtain ⟨h1, h2, h3⟩ := h
    have hc : c ∉ l := (List.nodup_cons.1 hl).1
    have hlast : r.prev z ≠ a := by
      rcases h3.prev_end with h' | ⟨d, hd, h'⟩ <;> rw [h']
      · exact (ha c (by simp)).symm
      · exact (ha d (by simp [hd])).symm
    refine ⟨?_, ?_, ih h3 ?_ (List.nodup_cons.1 hl).2 fun d hd => hy d (by simp [hd])⟩
    · simp only [Function.update_of_ne hlast.symm, h1]
    · simp only [Function.update_of_ne (hy c (by simp)).symm, h2]
    · rintro d hd heq
      exact hc (Option.some.inj heq ▸ hd)

theorem ring_unlink (h : r.Ring (l₁ ++ b :: l₂)) (hl : (l₁ ++ b :: l₂).Nodup) : (r.unlink b).Ring (l₁ ++ l₂) := by
  obtain ⟨h₁, h₂⟩ := path_append.1 h
  obtain ⟨hl₁, hl₂, hd⟩ := List.nodup_append'.1 hl
  have hb : b ∉ l₂ := (List.nodup_cons.1 hl₂).1
  have hb₁ : b ∉ l₁ := fun hm => hd hm (by simp)
  have hne : r.next (some b) ≠ some b := by
    cases l₂ with
    | nil => rw [h₂.1]; simp
    | cons c l₂ =>
      rw [h₂.1]
      rintro heq
      exact hb (by rw [← Option.some.inj heq]; simp)
  have hun : r.unlink b = ⟨Function.update r.next (r.prev (some b)) (r.next (some b)),
      Function.update r.prev (r.next (some b)) (r.prev (some b))⟩ := by
    simp only [unlink, setPrev, setNext, Function.update_of_ne hne.symm]
  have hfirst : (r.unlink b).Path none l₁ (r.next (some b)) := by
    rw [hun]
    refine h₁.retarget (by simp) hl₁ ?_
    rintro c hc heq
    cases l₂ with
    | nil => rw [h₂.1] at heq; cases heq
    | cons d l₂ =>
      rw [h₂.1] at heq
      exact hd hc (by rw [← Option.some.inj heq]; simp)
  cases l₂ with
  | nil => rw [h₂.1] at hfirst; rwa [List.append_nil]
  | cons c l₂ =>
    obtain ⟨hnext, -, hrest⟩ := h₂
    have hc : c ∉ l₂ := (List.nodup_cons.1 (List.nodup_cons.1 hl₂).2).1
    rw [hnext] at hfirst
    refine path_append.2 ⟨hfirst, hrest.congr ?_ ?_⟩
    · -- the node before `b` is the head or in `l₁`
      intro x hx
      rw [hun]
      refine Function.update_of_ne ?_ _ _
      rintro rfl
      have hmem : ∃ e ∈ c :: l₂, r.prev (some b) = some e := by
        rcases hx with hx | ⟨d, hd, hx⟩
        · exact ⟨c, by simp, hx⟩
        · exact ⟨d, by simp [hd], hx⟩
      obtain ⟨e, he, hx⟩ := hmem
      rcases h₁.prev_end with hp | ⟨d, hd₁, hp⟩
      · rw [hp] at hx; cases hx
      · rw [hp] at hx
        exact hd hd₁ (List.mem_cons_of_mem _ (Option.some.inj hx ▸ he))
    · intro x hx
      rw [hun, hnext]
      refine Function.update_of_ne ?_ _ _
      rintro rfl
      rcases hx with hx | ⟨d, hd, hx⟩
      · cases hx
      · exact hc (Option.some.inj hx ▸ hd)

theorem ring_push (h : r.Ring l) (hl : l.Nodup) (hb : b ∉ l) : (r.push b).Ring (b :: l) := by
  cases l with
  | nil => simp [Ring, Path, push, setNext, setPrev, h.1]
  | cons c l =>
    obtain ⟨hnext, -, hrest⟩ := h
    have hbc : b ≠ c := fun h => hb (by simp [h])
    have hc : c ∉ l := (List.nodup_cons.1 hl).1
    have hpush : r.push b = ⟨Function.update (Function.update r.next (some b) (some c)) none (some b),
        Function.update (Function.update r.prev (some b) none) (some c) (some b)⟩ := by
      simp [push, setNext, setPrev, hnext]
    rw [hpush]
    refine ⟨by simp, by simp [hbc], by simp, by simp, hrest.congr ?_ ?_⟩
    · rintro x (rfl | ⟨d, hd, rfl⟩)
      · simp [hbc.symm]
      · have hdb : d ≠ b := fun h => hb (by simp [← h, hd])
        simp [hdb]
    · rintro x (rfl | ⟨d, hd, rfl⟩)
      · simp
      · have hdb : d ≠ b := fun h => hb (by simp [← h, hd])
        have hdc : d ≠ c := fun h => hc (h ▸ hd)
        simp [hdb, hdc]

/-- Building the list, element by element. -/
theorem ring_foldl_push (h : r.Ring l) (hl : (l₁.reverse ++ l).Nodup) : (l₁.foldl push r).Ring (l₁.reverse ++ l) := by
  induction l₁ generalizing r l with
  | nil => exact h
  | cons b l₁ ih =>
    rw [List.reverse_cons, List.append_assoc, List.singleton_append] at hl ⊢
    obtain ⟨-, hbl, -⟩ := List.nodup_append'.1 hl
    exact ih (ring_push h (List.nodup_cons.1 hbl).2 (List.nodup_cons.1 hbl).1) hl

/-- Moving an element to the front. -/
theorem ring_front (h : r.Ring l) (hl : l.Nodup) (hb : b ∈ l) : ((r.unlink b).push b).Ring (b :: l.erase b) := by
  obtain ⟨l₁, l₂, hb₁, rfl, herase⟩ := List.exists_erase_eq hb
  rw [herase]
  have hsub : (l₁ ++ l₂).Nodup := herase ▸ hl.erase b
  have hmem : b ∉ l₁ ++ l₂ := by
    rw [← herase, hl.mem_erase_iff]
    simp
  exact ring_push (ring_unlink h hl) hsub hmem

end

/-- `for(b = …; b != &head; b = b->next)`, up to the first element that passes the test. -/
def walk (next : Option α → Option α) (p : α → Bool) : Nat → Option α → Option α
  | 0, _ | _ + 1, none => none
  | n + 1, some b => if p b then some b else walk next p n (next (some b))

theorem walk_some {next : Option α → Option α} {p : α → Bool} {n : Nat} (h : walk next p n a = some b) :
    p b = true := by
  induction n generalizing a with
  | zero => cases h
  | succ n ih =>
    cases a with
    | none => cases h
    | some c =>
      rw [walk] at h
      split at h
      · cases h; assumption
      · exact ih h

theorem Path.walk_eq (h : r.Path a l none) (p : α → Bool) {n : Nat} (hn : l.length ≤ n) :
    walk r.next p n (r.next a) = l.find? p := by
  induction l generalizing a n with
  | nil => rw [h.1]; cases n <;> rfl
  | cons b l ih =>
    obtain ⟨h1, -, h3⟩ := h
    cases n with
    | zero => cases hn
    | succ n =>
      rw [h1, walk, List.find?_cons]
      cases p b with
      | true => rfl
      | false => exact ih h3 (Nat.le_of_succ_le_succ hn)

theorem Ring.walk_next (h : r.Ring l) (p : α → Bool) {n : Nat} (hn : l.length ≤ n) :
    walk r.next p n (r.next none) = l.find? p := Path.walk_eq h p hn

end Links

end Xv6
