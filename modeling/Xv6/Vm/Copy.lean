import Xv6.Vm.Owned
import Xv6.Vm.Sbrk
/-!
# What a copy of an address space is

The functions that build or free an address space write to pages of the free
list and to pages that the address space has (`Confined`); where they succeed,
to pages of the free list only (`Untouched`). So a copy has pages of its own
with the bytes of the parent, and a copy that fails leaves everything as it was.
-/

namespace Xv6

open Outcome

variable {L : Layout} {k k' k'' : Kmem} {d : Pgdir} {a b : Multiset Page}

/-- Only pages of the free list were taken and written. -/
def Untouched (k k' : Kmem) : Prop := k'.free ≤ k.free ∧ ∀ q, q ∉ k.free → k'.content q = k.content q

theorem Untouched.refl (k : Kmem) : Untouched k k := ⟨le_rfl, fun _ _ => rfl⟩

theorem Untouched.trans (h : Untouched k k') (h' : Untouched k' k'') : Untouched k k'' := by
  refine ⟨h'.1.trans h.1, fun q hq => ?_⟩
  rw [h'.2 q fun hin => hq (Multiset.mem_of_le h.1 hin), h.2 q hq]

theorem Untouched.kalloc {p : Page} (h : k.kalloc = (some p, k')) : Untouched k (k'.memset p 0) := by
  obtain ⟨hfree, hcont⟩ := Kmem.kalloc_some h
  refine ⟨?_, fun q hq => ?_⟩
  · rw [hfree]
    exact Multiset.le_cons_self ..
  · have hne : q ≠ p := by
      rintro rfl
      exact hq (hfree ▸ Multiset.mem_cons_self ..)
    rw [← hcont]
    exact Function.update_of_ne hne ..

theorem mappages_untouched (n v : Nat) (e : Pte) :
    Ends (fun _ => True) (mappages k d v e n) fun r => Untouched k r.2.2 := by
  induction n generalizing k d v e with
  | zero => exact .refl k
  | succ n ih =>
    unfold mappages
    split
    · rename_i k' hw
      obtain ⟨hfree, hcont⟩ := walkpgdir_none hw
      exact ⟨hfree.le, fun q _ => by rw [hcont]⟩
    · rename_i d' k' hw
      have hd' := walkpgdir_some hw
      split
      · trivial
      · exact (ih (v + 1) _).mono fun r hr => Untouched.trans ⟨hd'.le, hd'.content⟩ hr

theorem mapKernel_untouched (ms : List Kmap) :
    Ends (fun _ => True) (mapKernel L ms k d) fun r => r.1.isSome → Untouched k r.2 := by
  induction ms generalizing k d with
  | nil => exact fun _ => .refl k
  | cons x xs ih =>
    unfold mapKernel
    refine (mappages_untouched x.n x.virt _).bind fun r hr => ?_
    obtain ⟨ok, d₁, k₁⟩ := r
    cases ok with
    | false => exact Ends.trivial.bind fun _ _ hsome => by cases hsome
    | true => exact ih.mono fun r hr' hsome => Untouched.trans hr (hr' hsome)

theorem setupkvm_untouched : Ends (fun _ => True) (setupkvm L k) fun r => r.1.isSome → Untouched k r.2 := by
  unfold setupkvm
  split
  · exact nofun
  · rename_i p k' hk
    exact (mapKernel_untouched _).mono fun r hr hsome => (Untouched.kalloc hk).trans (hr hsome)

theorem allocLoop_untouched {oldsz newsz : Nat} (n v : Nat) :
    Ends (fun _ => True) (allocLoop L oldsz newsz n k d v) fun r => r.1 ≠ 0 → Untouched k r.2.2 := by
  induction n generalizing k d v with
  | zero => exact fun _ => .refl k
  | succ n ih =>
    unfold allocLoop
    split
    · exact Ends.trivial.bind fun _ _ hne => absurd rfl hne
    · rename_i p k₁ hk
      refine (mappages_untouched 1 v _).bind fun r hr => ?_
      obtain ⟨ok, d₂, k₂⟩ := r
      have hr' := (Untouched.kalloc hk).trans hr
      cases ok with
      | false =>
        exact Ends.trivial.bind fun _ _ => Ends.trivial.bind fun _ _ hne => absurd rfl hne
      | true => exact (ih (v + 1)).mono fun r hr₂ hne => hr'.trans (hr₂ hne)

/-- Only pages of the free list and the pages `a` were written. -/
def Confined (k : Kmem) (a : Multiset Page) (k' : Kmem) : Prop := ∀ q, q ∉ k.free + a → k'.content q = k.content q

theorem Confined.trans (h : Confined k a k') (hpages : k'.free + b = k.free + a) (h' : Confined k' b k'') :
    Confined k a k'' := by
  intro q hq
  rw [h' q (by rwa [hpages]), h q hq]

theorem Untouched.confined (h : Untouched k k') (a : Multiset Page) : Confined k a k' :=
  fun q hq => h.2 q fun hin => hq (Multiset.mem_add.2 (.inl hin))

theorem freeTables_content (is : List (Fin NPDENTRIES)) :
    Ends (fun _ => True) (freeTables L d is k) fun k' =>
      ∀ q, (∀ i t, d.pde i = some t → t.page ≠ q) → k'.content q = k.content q := by
  induction is generalizing k with
  | nil => exact fun _ _ => rfl
  | cons i is ih =>
    unfold freeTables
    split
    · exact ih
    · rename_i t ht
      refine ((Kmem.kfree_ends t.page).weaken fun _ _ => trivial).bind fun k₁ hk₁ => ?_
      refine ih.mono fun k' hk' q hq => ?_
      rw [hk' q hq, hk₁.2 q (hq i t ht).symm]

theorem freevm_confined : Ends (fun _ => True) (freevm L k d) (Confined k d.owned) := by
  unfold freevm
  generalize List.finRange NPDENTRIES = is
  refine ((deallocuvm_ends le_rfl).weaken fun _ _ => trivial).bind fun r hr => ?_
  obtain ⟨sz, d₁, k₁⟩ := r
  obtain ⟨-, hr⟩ := hr
  dsimp only at hr ⊢
  have hpages : k₁.free + d₁.owned = k.free + d.owned := hr.pages
  have howned : d₁.owned = d₁.page ::ₘ d₁.tables := by
    refine Pgdir.owned_unmapped fun u hu => ?_
    rw [hr.get u (hu.trans_le (by decide)), if_pos ⟨Nat.zero_le _, hu.trans_le (by decide)⟩]
  have h₁ : Confined k d.owned k₁ := by
    intro q hq
    refine hr.content q fun u e _ hu hget => ?_
    rintro rfl
    exact hq (Multiset.mem_add.2 (.inr (Pgdir.mem_owned hget (hu.trans_le (by decide)))))
  refine (freeTables_content is).bind fun k₂ hk₂ => ?_
  refine ((Kmem.kfree_ends d₁.page).weaken fun _ _ => trivial).mono fun k₃ hk₃ => h₁.trans hpages fun q hq => ?_
  have hmem (p : Page) (hp : p ∈ d₁.owned) : q ≠ p := by
    rintro rfl
    exact hq (Multiset.mem_add.2 (.inr hp))
  rw [howned] at hmem
  rw [hk₃.2 q (hmem _ (Multiset.mem_cons_self ..)), hk₂ q]
  exact fun i t ht => (hmem _ (Multiset.mem_cons_of_mem (Pgdir.mem_tables ht))).symm

theorem mapKernel_confined {v : Nat} (ms : List Kmap) (hv : KERNBASE / PGSIZE ≤ v) (hasc : Ascending v ms)
    (hnone : ∀ u, v ≤ u → u < NPAGES → d.get u = none) :
    Ends (fun _ => True) (mapKernel L ms k d) fun r => Confined k d.owned r.2 := by
  induction ms generalizing k d v with
  | nil => exact fun _ _ => rfl
  | cons x xs ih =>
    obtain ⟨hle, htop, hasc⟩ := hasc
    unfold mapKernel
    refine (((mappages_kernel x.n x.virt _ (hv.trans hle) htop fun u hu hlt => hnone u (hle.trans hu) (by omega)).weaken
      fun _ h => h.elim).and (mappages_untouched x.n x.virt _)).bind fun r hr => ?_
    obtain ⟨ok, d₁, k₁⟩ := r
    obtain ⟨hr, htouch⟩ := hr
    have hpages : k₁.free + d₁.owned = k.free + d.owned := hr.pages
    have hconf := htouch.confined d.owned
    cases ok with
    | false =>
      refine freevm_confined.bind fun k₂ hk₂ => ?_
      exact hconf.trans hpages hk₂
    | true =>
      refine (ih (by omega) hasc fun u hu hlt => ?_).mono fun r hr' => hconf.trans hpages hr'
      have hout : d₁.get u = d.get u := hr.outside u hlt (by omega)
      rw [hout]
      exact hnone u (by omega) hlt

theorem setupkvm_confined : Ends (fun _ => True) (setupkvm L k) fun r => Confined k 0 r.2 := by
  unfold setupkvm
  split
  · rename_i k' hk
    intro q _
    rw [(Kmem.kalloc_none hk).2]
  · rename_i p k' hk
    have hpages : (k'.memset p 0).free + Pgdir.owned ⟨p, fun _ => none⟩ = k.free + 0 := by
      rw [Pgdir.owned_empty, add_zero, (Kmem.kalloc_some hk).1, add_comm, Multiset.singleton_add]
      rfl
    refine (mapKernel_confined _ le_rfl (kmap_ascending L) fun _ _ _ => rfl).mono fun r hr => ?_
    exact ((Untouched.kalloc hk).confined 0).trans hpages hr

/-! ## Copying -/

/-- Page `u` of the copy `d` has the bytes and the permissions of the parent's. -/
def SamePage (c c' : Page → PageData) (src d : Pgdir) (u : Nat) : Prop :=
  ∃ e e', src.get u = some e ∧ d.get u = some e' ∧ e'.write = e.write ∧ e'.user = e.user ∧ c' e'.page = c e.page

/-- What the loop of `copyuvm` leaves, from page `v` on. -/
structure Copied (k : Kmem) (src d : Pgdir) (v n : Nat) (r : Option Pgdir × Kmem) : Prop where
  pages : r.2.free + pagesOf r.1 = k.free + d.owned
  content : Confined k d.owned r.2
  kept : r.1.isSome → Untouched k r.2
  same : ∀ d', r.1 = some d' → ∀ u, v ≤ u → u < v + n → SamePage k.content r.2.content src d' u
  other : ∀ d', r.1 = some d' → ∀ u, u < NPAGES → ¬(v ≤ u ∧ u < v + n) → d'.get u = d.get u

end Xv6
