import Mathlib.Logic.Relation
import Mathlib.Order.Basic
/-!
# Relations without cycles

Every edge of a cycle has an edge before it and one after it, as often as one
likes. So to rule cycles out it is enough to rank the edges in the middle of a
path.
-/

namespace Xv6.Cycles

open Relation

variable {α β : Type} {R : α → α → Prop}

theorem exists_pred {x : α} (h : TransGen R x x) : ∃ y, R y x ∧ TransGen R y y := by
  obtain ⟨y, hxy, hyx⟩ := TransGen.tail'_iff.1 h
  exact ⟨y, hyx, TransGen.head' hyx hxy⟩

theorem exists_succ {x : α} (h : TransGen R x x) : ∃ y, R x y ∧ TransGen R y y := by
  obtain ⟨y, hxy, hyx⟩ := TransGen.head'_iff.1 h
  exact ⟨y, hxy, TransGen.tail' hyx hxy⟩

/-- A relation is free of cycles if a rank grows along every edge that has two
edges before it and one after it. -/
theorem acyclic_of_rank [Preorder β] (f : α → β)
    (hf : ∀ a b c d e, R a b → R b c → R c d → R d e → f c < f d) (x : α) : ¬ TransGen R x x := by
  intro hx
  have edge {y z : α} (hyz : R y z) (hy : TransGen R y y) (hz : TransGen R z z) : f y < f z := by
    obtain ⟨b, hb, hbb⟩ := exists_pred hy
    obtain ⟨a, ha, _⟩ := exists_pred hbb
    obtain ⟨e, he, _⟩ := exists_succ hz
    exact hf a b y z e ha hb hyz he
  have path {y : α} (hxy : TransGen R x y) (hyx : TransGen R y x) : f x < f y := by
    induction hxy with
    | single h => exact edge h hx (hyx.tail h)
    | tail hxy h ih =>
      exact (ih (TransGen.head h hyx)).trans
        (edge h (TransGen.head h (hyx.trans hxy)) (hyx.trans (hxy.tail h)))
  exact lt_irrefl _ (path hx hx)

end Xv6.Cycles
