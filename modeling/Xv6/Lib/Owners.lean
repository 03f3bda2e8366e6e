import Mathlib.Data.Set.Insert
/-!
# One owner for every resource

Resources are numbers, with 0 for none. A map `pt` says which resource each
holder has. `Owns D used pt` says that a resource of the domain `D` is marked as
used exactly if it has a holder, and that it never has two. Giving a fresh
resource to a holder without one, and taking one back, keep this.
-/

namespace Xv6.Owners

variable {ι : Type} [DecidableEq ι] {D used : Set Nat} {pt : ι → Nat} {x y : ι} {b : Nat}

structure Owns (D used : Set Nat) (pt : ι → Nat) : Prop where
  area : ∀ x, pt x ≠ 0 → pt x ∈ D
  inj : ∀ x y, pt x = pt y → pt x ≠ 0 → x = y
  used : ∀ b ∈ D, b ∈ used ↔ ∃ x, pt x = b

namespace Owns

omit [DecidableEq ι] in
theorem not_held (h : Owns D used pt) (hb : b ∈ D) (hfresh : b ∉ used) (x : ι) : pt x ≠ b :=
  fun hx => hfresh ((h.used b hb).2 ⟨x, hx⟩)

omit [DecidableEq ι] in
theorem held (h : Owns D used pt) (hx : pt x ≠ 0) : pt x ∈ used := (h.used _ (h.area x hx)).2 ⟨x, rfl⟩

/-- A fresh resource for a holder that has none. -/
theorem give (h : Owns D used pt) (hx : pt x = 0) (hb : b ∈ D) (h0 : 0 ∉ D) (hfresh : b ∉ used) :
    Owns D (insert b used) (Function.update pt x b) := by
  have hne : ∀ y, pt y ≠ b := h.not_held hb hfresh
  refine ⟨fun y hy => ?_, fun y z hyz hy => ?_, fun c hc => ?_⟩
  · by_cases hyx : y = x
    · rw [hyx, Function.update_self]
      exact hb
    · rw [Function.update_of_ne hyx] at hy ⊢
      exact h.area y hy
  · by_cases hyx : y = x <;> by_cases hzx : z = x
    · rw [hyx, hzx]
    · rw [hyx, Function.update_self, Function.update_of_ne hzx] at hyz
      exact absurd hyz.symm (hne z)
    · rw [hzx, Function.update_self, Function.update_of_ne hyx] at hyz
      exact absurd hyz (hne y)
    · rw [Function.update_of_ne hyx] at hy
      rw [Function.update_of_ne hyx, Function.update_of_ne hzx] at hyz
      exact h.inj y z hyz hy
  · rw [Set.mem_insert_iff, h.used c hc]
    constructor
    · rintro (rfl | ⟨y, rfl⟩)
      · exact ⟨x, Function.update_self ..⟩
      · refine ⟨y, Function.update_of_ne ?_ ..⟩
        rintro rfl
        exact h0 (hx ▸ hc)
    · rintro ⟨y, hy⟩
      by_cases hyx : y = x
      · rw [hyx, Function.update_self] at hy
        exact .inl hy.symm
      · rw [Function.update_of_ne hyx] at hy
        exact .inr ⟨y, hy⟩

/-- A holder gives its resource back. -/
theorem take (h : Owns D used pt) (hx : pt x ≠ 0) (h0 : 0 ∉ D) :
    Owns D (used \ {pt x}) (Function.update pt x 0) := by
  refine ⟨fun y hy => ?_, fun y z hyz hy => ?_, fun c hc => ?_⟩
  · by_cases hyx : y = x
    · rw [hyx, Function.update_self] at hy
      exact absurd rfl hy
    · rw [Function.update_of_ne hyx] at hy ⊢
      exact h.area y hy
  · have hyx : y ≠ x := by
      rintro rfl
      exact hy (Function.update_self ..)
    rw [Function.update_of_ne hyx] at hy hyz
    by_cases hzx : z = x
    · rw [hzx, Function.update_self] at hyz
      exact absurd hyz hy
    · rw [Function.update_of_ne hzx] at hyz
      exact h.inj y z hyz hy
  · rw [Set.mem_sdiff, Set.mem_singleton_iff, h.used c hc]
    constructor
    · rintro ⟨⟨y, rfl⟩, hne⟩
      exact ⟨y, Function.update_of_ne (fun hyx : y = x => hne (congrArg pt hyx)) ..⟩
    · rintro ⟨y, hy⟩
      have hyx : y ≠ x := by
        rintro rfl
        rw [Function.update_self] at hy
        exact h0 (hy ▸ hc)
      rw [Function.update_of_ne hyx] at hy
      refine ⟨⟨y, hy⟩, fun hcx => hyx (h.inj y x (hy.trans hcx) ?_)⟩
      rw [hy, hcx]
      exact hx

omit [DecidableEq ι] in
theorem congr {used' : Set Nat} {pt' : ι → Nat} (h : Owns D used pt) (hpt : ∀ x, pt' x = pt x)
    (hused : ∀ b ∈ D, b ∈ used' ↔ b ∈ used) : Owns D used' pt' := by
  obtain rfl : pt' = pt := funext hpt
  exact ⟨h.area, h.inj, fun b hb => (hused b hb).trans (h.used b hb)⟩

end Owns

end Xv6.Owners
