/-!
# Outcomes of fallible functions

`Ends E x Q`: the computation `x` either gives a value with `Q` or fails with
an error that `E` allows. The rules follow the way a program in `Except` is
put together, so that a caller uses what is known of the callee and never
looks into it.
-/

namespace Xv6.Outcome

variable {ε α β : Type} {E : ε → Prop} {x : Except ε α} {f : α → Except ε β} {Q R : α → Prop} {S : β → Prop}

def Ends (E : ε → Prop) (x : Except ε α) (Q : α → Prop) : Prop :=
  match x with
  | .ok a => Q a
  | .error e => E e

theorem Ends.bind (hx : Ends E x Q) (hf : ∀ a, Q a → Ends E (f a) S) : Ends E (x >>= f) S := by
  cases x with
  | ok a => exact hf a hx
  | error e => exact hx

theorem Ends.mono (hx : Ends E x Q) (h : ∀ a, Q a → R a) : Ends E x R := by
  cases x with
  | ok a => exact h a hx
  | error e => exact hx

/-- Fewer errors are allowed. -/
theorem Ends.weaken {E' : ε → Prop} (hx : Ends E' x Q) (h : ∀ e, E' e → E e) : Ends E x Q := by
  cases x with
  | ok a => exact hx
  | error e => exact h e hx

theorem Ends.mapError {ε' : Type} {E' : ε' → Prop} {g : ε → ε'} (hx : Ends E x Q) (h : ∀ e, E e → E' (g e)) :
    Ends E' (x.mapError g) Q := by
  cases x with
  | ok a => exact hx
  | error e => exact h e hx

theorem Ends.trivial : Ends (fun _ => True) x fun _ => True := by
  cases x <;> exact True.intro

theorem Ends.ok (h : Ends (fun _ => False) x Q) : ∃ a, x = .ok a ∧ Q a := by
  cases x with
  | ok a => exact ⟨a, rfl, h⟩
  | error e => exact h.elim

/-- Two things known of one computation. -/
theorem Ends.and {E' : ε → Prop} (hx : Ends E x Q) (hx' : Ends E' x R) : Ends E x fun a => Q a ∧ R a := by
  cases x with
  | ok a => exact ⟨hx, hx'⟩
  | error e => exact hx

/-! ## Two computations -/

section Agree

variable {ε' γ δ : Type} {y : Except ε' β} {g : β → Except ε' δ} {f : α → Except ε γ} {R : α → β → Prop}
  {S' : γ → δ → Prop} {E' : ε' → Prop} {Q' : β → Prop}

/-- Both fail, or both give a value, and the values are related. -/
def Agree (R : α → β → Prop) (x : Except ε α) (y : Except ε' β) : Prop :=
  match x, y with
  | .ok a, .ok b => R a b
  | .error _, .error _ => True
  | .ok _, .error _ => False
  | .error _, .ok _ => False

/-- What is known of the second computation may be used for what follows. -/
theorem Agree.bind (h : Agree R x y) (hy : Ends E' y Q') (hf : ∀ a b, R a b → Q' b → Agree S' (f a) (g b)) :
    Agree S' (x >>= f) (y >>= g) := by
  cases x with
  | ok a =>
    cases y with
    | ok b => exact hf a b h hy
    | error e => exact h.elim
  | error e =>
    cases y with
    | ok b => exact h.elim
    | error e' => exact True.intro

theorem Agree.ok {a : α} (h : Agree R x y) (hx : x = .ok a) : ∃ b, y = .ok b ∧ R a b := by
  subst hx
  cases y with
  | ok b => exact ⟨b, rfl, h⟩
  | error e => exact h.elim

/-- What is known of the second computation holds for the first. -/
theorem Agree.ends (h : Agree R x y) (hy : Ends E' y Q') :
    Ends (fun _ => ∃ e, E' e) x fun a => ∃ b, R a b ∧ Q' b := by
  cases x with
  | ok a =>
    cases y with
    | ok b => exact ⟨b, h, hy⟩
    | error e => exact h.elim
  | error e =>
    cases y with
    | ok b => exact h.elim
    | error e' => exact ⟨e', hy⟩

end Agree

end Xv6.Outcome
