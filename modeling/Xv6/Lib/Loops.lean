import Mathlib.Order.Basic
/-!
# While loops

`loop test body n s` runs `while(test) body` from the state `s` for at most `n`
rounds and gives no state if the loop has not ended by then. A loop ends when a
measure goes down in every round (`loop_some`) and never ends when the test
stays true (`loop_none`).
-/

namespace Xv6.Loops

variable {σ : Type} {test : σ → Bool} {body : σ → σ} {s t : σ} {n : Nat}

def loop (test : σ → Bool) (body : σ → σ) : Nat → σ → Option σ
  | 0, s => if test s then none else some s
  | n + 1, s => if test s then loop test body n (body s) else some s

theorem loop_some (I : σ → Prop) (size : σ → Nat)
    (hstep : ∀ s, I s → test s = true → I (body s) ∧ size (body s) < size s) (hs : I s) (hn : size s ≤ n) :
    ∃ t, loop test body n s = some t ∧ I t ∧ test t = false := by
  induction n generalizing s with
  | zero =>
    cases ht : test s with
    | false => exact ⟨s, by rw [loop, ht]; rfl, hs, ht⟩
    | true => exact absurd (hstep s hs ht).2 (by omega)
  | succ n ih =>
    cases ht : test s with
    | false => exact ⟨s, by rw [loop, ht]; rfl, hs, ht⟩
    | true =>
      obtain ⟨hbody, hless⟩ := hstep s hs ht
      obtain ⟨t, hloop, hend⟩ := ih hbody (by omega)
      exact ⟨t, by rw [loop, ht]; exact hloop, hend⟩

theorem loop_none (I : σ → Prop) (hstep : ∀ s, I s → test s = true ∧ I (body s)) (hs : I s) :
    loop test body n s = none := by
  induction n generalizing s with
  | zero => rw [loop, (hstep s hs).1]; rfl
  | succ n ih =>
    obtain ⟨ht, hbody⟩ := hstep s hs
    rw [loop, ht]
    exact ih hbody

end Xv6.Loops
