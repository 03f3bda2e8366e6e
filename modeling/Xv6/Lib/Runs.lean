import Mathlib.Algebra.Ring.Nat
import Mathlib.Data.List.Infix
/-!
# Runs of a labelled step function

A system is a partial function `step : S → L → Option S`: what one atomic step
with a given label does, `none` where the step is not enabled. An interleaving
of any number of threads is a list of labels, and `exec` runs it.

Two forms of "every run" are used. `Run step G` relates two states joined by
steps that all satisfy the guard `G` in the state they are taken from, so an
invariant needs one lemma about one guarded step (`Run.inv`). `Along` and
`Steps` speak about one list of labels: every state it passes through, and
every step it takes (`along_iff_steps`).
-/

namespace Xv6.Runs

/-- Runs that are written out are those of one or two threads. -/
instance instNeZeroOne : NeZero 1 := ⟨by decide⟩

instance instNeZeroTwo : NeZero 2 := ⟨by decide⟩

variable {S L : Type} {step : S → L → Option S} {G G' : S → L → Prop}

/-- Runs the labels in order; `none` if one of them is not enabled. -/
def exec (step : S → L → Option S) : S → List L → Option S
  | s, [] => some s
  | s, l :: ls => (step s l).bind fun t => exec step t ls

theorem exec_append (s : S) (ls ls' : List L) :
    exec step s (ls ++ ls') = (exec step s ls).bind fun t => exec step t ls' := by
  induction ls generalizing s with
  | nil => rfl
  | cons l ls ih =>
    simp only [List.cons_append, exec, Option.bind_assoc]
    congr 1; funext t; exact ih t

theorem exec_snoc {s t : S} {ls : List L} {l : L} (h : exec step s ls = some t) :
    exec step s (ls ++ [l]) = step t l := by
  rw [exec_append, h]
  simp [exec]

/-- What every step keeps, running labels keeps. -/
theorem exec_inv (I : S → Prop) (hstep : ∀ t l u, I t → step t l = some u → I u) {s t : S} {ls : List L}
    (h : exec step s ls = some t) (h0 : I s) : I t := by
  induction ls generalizing s with
  | nil =>
    cases h
    exact h0
  | cons l ls ih =>
    obtain ⟨u, hu, h⟩ := Option.bind_eq_some_iff.1 h
    exact ih h (hstep s l u h0 hu)

/-- A simulation of every step is one of running labels. -/
theorem exec_sim {T : Type} {step' : T → L → Option T} (R : S → T → Prop)
    (hstep : ∀ s t l s', R s t → step s l = some s' → ∃ t', step' t l = some t' ∧ R s' t')
    {s s' : S} {t : T} {ls : List L} (h : exec step s ls = some s') (h0 : R s t) :
    ∃ t', exec step' t ls = some t' ∧ R s' t' := by
  induction ls generalizing s t with
  | nil =>
    cases h
    exact ⟨t, rfl, h0⟩
  | cons l ls ih =>
    obtain ⟨s₁, h₁, h⟩ := Option.bind_eq_some_iff.1 h
    obtain ⟨t₁, ht₁, hr⟩ := hstep s t l s₁ h0 h₁
    obtain ⟨t', ht', hr'⟩ := ih h hr
    exact ⟨t', Option.bind_eq_some_iff.2 ⟨t₁, ht₁, ht'⟩, hr'⟩

/-- `t` is reached from `s` by steps that each satisfy `G` where they are taken. -/
inductive Run (step : S → L → Option S) (G : S → L → Prop) : S → S → Prop
  | refl (s : S) : Run step G s s
  | tail {s t u : S} {l : L} : Run step G s t → G t l → step t l = some u → Run step G s u

namespace Run

theorem single {s t : S} {l : L} (hg : G s l) (h : step s l = some t) : Run step G s t :=
  .tail (.refl s) hg h

theorem trans {s t u : S} (h : Run step G s t) (h' : Run step G t u) : Run step G s u := by
  induction h' with
  | refl => exact h
  | tail _ hg hs ih => exact .tail ih hg hs

theorem mono (hG : ∀ s l, G s l → G' s l) {s t : S} (h : Run step G s t) : Run step G' s t := by
  induction h with
  | refl => exact .refl _
  | tail _ hg hs ih => exact .tail ih (hG _ _ hg) hs

/-- What every guarded step keeps, every guarded run keeps. -/
theorem inv (I : S → Prop) (hstep : ∀ t l u, I t → G t l → step t l = some u → I u)
    {s t : S} (h : Run step G s t) (h0 : I s) : I t := by
  induction h with
  | refl => exact h0
  | tail _ hg hs ih => exact hstep _ _ _ ih hg hs

end Run

/-- A step that is only taken where a check passes. -/
def checked (step : S → L → Option S) (chk : S → L → Bool) (s : S) (l : L) : Option S :=
  if chk s l then step s l else none

theorem exec_of_checked {chk : S → L → Bool} {s t : S} {ls : List L}
    (h : exec (checked step chk) s ls = some t) : exec step s ls = some t := by
  induction ls generalizing s with
  | nil => exact h
  | cons l ls ih =>
    obtain ⟨u, hu, h⟩ := Option.bind_eq_some_iff.1 h
    unfold checked at hu
    split at hu
    · exact Option.bind_eq_some_iff.2 ⟨u, hu, ih h⟩
    · cases hu

/-- Running a list of labels, each with its check, gives a guarded run. -/
theorem run_of_checked {chk : S → L → Bool} (hG : ∀ s l, chk s l → G s l) {s t : S} {ls : List L}
    (h : exec (checked step chk) s ls = some t) : Run step G s t := by
  induction ls generalizing s with
  | nil => cases h; exact .refl _
  | cons l ls ih =>
    obtain ⟨u, hu, h⟩ := Option.bind_eq_some_iff.1 h
    unfold checked at hu
    split at hu
    · rename_i hc
      exact (Run.single (hG s l hc) hu).trans (ih h)
    · cases hu

/-- Every state that running `ls` from `s` passes through satisfies `P`. -/
def Along (step : S → L → Option S) (s : S) (ls : List L) (P : S → Prop) : Prop :=
  ∀ pre t, pre <+: ls → exec step s pre = some t → P t

/-- Every step that running `ls` from `s` takes satisfies `G` where it is taken. -/
def Steps (step : S → L → Option S) (s : S) (ls : List L) (G : S → L → Prop) : Prop :=
  ∀ pre l t u, pre ++ [l] <+: ls → exec step s pre = some t → step t l = some u → G t l

theorem Steps.inv (I : S → Prop) (hstep : ∀ t l u, I t → G t l → step t l = some u → I u)
    {s : S} {ls : List L} (h0 : I s) (h : Steps step s ls G) : Along step s ls I := by
  intro pre
  induction pre using List.reverseRecOn with
  | nil => intro t _ ht; cases ht; exact h0
  | append_singleton pre l ih =>
    intro t hp ht
    rw [exec_append] at ht
    obtain ⟨u, hu, ht⟩ := Option.bind_eq_some_iff.1 ht
    simp only [exec, Option.bind_eq_some_iff, Option.some.injEq, exists_eq_right] at ht
    exact hstep u l t (ih u ((List.prefix_append _ _).trans hp) hu) (h pre l u t hp hu ht) ht

/-- If guarded steps keep an invariant that gives `P`, and a step that breaks
the guard breaks `P` at once, then a list of labels keeps `P` throughout
exactly when all its steps meet the guard. -/
theorem along_iff_steps (I P : S → Prop) (hIP : ∀ s, I s → P s)
    (hstep : ∀ t l u, I t → G t l → step t l = some u → I u)
    (hbad : ∀ t l u, step t l = some u → ¬ G t l → ¬ P u)
    {s : S} (ls : List L) (h0 : I s) : Along step s ls P ↔ Steps step s ls G := by
  constructor
  · intro hP pre l t u hp ht hu
    by_contra hg
    exact hbad t l u hu hg (hP (pre ++ [l]) u hp ((exec_snoc ht).trans hu))
  · intro hG pre u hp hu
    exact hIP u (Steps.inv I hstep h0 hG pre u hp hu)

end Xv6.Runs
