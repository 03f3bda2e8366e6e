import Mathlib.Data.List.Basic
/-!
# Lists of writes

A store is a function from keys to values, and a list of writes is applied to
it in order. What a redo log needs: a write list may be applied again over a
store that already has any part of it, and the result is the same
(`apply_redo`).
-/

namespace Xv6.Writes

variable {K V : Type} [DecidableEq K]

/-- The store after the writes, in order. -/
def apply (m : K → V) (ws : List (K × V)) : K → V :=
  ws.foldl (fun m w => Function.update m w.1 w.2) m

@[simp] theorem apply_nil (m : K → V) : apply m [] = m := rfl

@[simp] theorem apply_cons (m : K → V) (w : K × V) (ws : List (K × V)) :
    apply m (w :: ws) = apply (Function.update m w.1 w.2) ws := rfl

theorem apply_append (m : K → V) (ws ws' : List (K × V)) :
    apply m (ws ++ ws') = apply (apply m ws) ws' := List.foldl_append

theorem apply_snoc (m : K → V) (ws : List (K × V)) (k : K) (v : V) :
    apply m (ws ++ [(k, v)]) = Function.update (apply m ws) k v := by
  rw [apply_append]; rfl

theorem apply_of_not_mem {m : K → V} {ws : List (K × V)} {k : K} (h : ∀ w ∈ ws, w.1 ≠ k) :
    apply m ws k = m k := by
  induction ws generalizing m with
  | nil => rfl
  | cons w ws ih =>
    rw [apply_cons, ih fun w' hw' => h w' (List.mem_cons_of_mem _ hw')]
    exact Function.update_of_ne (h w List.mem_cons_self).symm _ _

/-- All writes to a key agree. -/
theorem apply_of_mem {m : K → V} {ws : List (K × V)} {k : K} {v : V} (hv : ∀ w ∈ ws, w.1 = k → w.2 = v)
    (hk : ∃ w ∈ ws, w.1 = k) : apply m ws k = v := by
  induction ws generalizing m with
  | nil => obtain ⟨w, hw, -⟩ := hk; cases hw
  | cons w ws ih =>
    rw [apply_cons]
    by_cases hws : ∃ w ∈ ws, w.1 = k
    · exact ih (fun w' hw' => hv w' (List.mem_cons_of_mem _ hw')) hws
    · have hw : w.1 = k := by
        obtain ⟨w', hw', hk⟩ := hk
        rcases List.mem_cons.1 hw' with rfl | hw'
        · exact hk
        · exact absurd ⟨w', hw', hk⟩ hws
      rw [apply_of_not_mem fun w' hw' hk' => hws ⟨w', hw', hk'⟩, ← hw, Function.update_self]
      exact hv w List.mem_cons_self hw

/-- A key that is written holds what the writes leave, whatever was there before. -/
theorem apply_congr {m m' : K → V} {ws : List (K × V)} {k : K} (h : (∀ w ∈ ws, w.1 ≠ k) → m k = m' k) :
    apply m ws k = apply m' ws k := by
  induction ws generalizing m m' with
  | nil => exact h (by simp)
  | cons w ws ih =>
    rw [apply_cons, apply_cons]
    apply ih
    intro hws
    by_cases hw : w.1 = k
    · subst hw; simp
    · rw [Function.update_of_ne (Ne.symm hw), Function.update_of_ne (Ne.symm hw)]
      exact h (by simpa [hw] using hws)

/-- Writes that some of the same writes came before. -/
theorem apply_redo (m : K → V) {ws vs : List (K × V)} (h : ∀ v ∈ vs, v ∈ ws) :
    apply (apply m vs) ws = apply m ws := by
  funext k
  apply apply_congr
  intro hk
  exact apply_of_not_mem fun v hv => hk v (h v hv)

/-- Writes that are all there already change nothing. -/
theorem apply_eq_self {m : K → V} {ws : List (K × V)} (h : ∀ w ∈ ws, m w.1 = w.2) : apply m ws = m := by
  induction ws with
  | nil => rfl
  | cons w ws ih =>
    have hw : Function.update m w.1 w.2 = m := by
      rw [← h w List.mem_cons_self]; exact Function.update_eq_self _ _
    rw [apply_cons, hw]
    exact ih fun w' hw' => h w' (List.mem_cons_of_mem _ hw')

end Xv6.Writes
