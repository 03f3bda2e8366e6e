import Xv6.Lib.Outcome
import Xv6.Lib.Sums
import Xv6.Vm.Code
/-!
# The pages of an address space

Which pages a page directory owns: its own, those of its page tables, and
those mapped in the user half. The functions of vm.c move pages between the
free list and the directory and lose none, wherever an allocation fails. What
they do to the mappings and to the contents of pages is stated beside it.
-/

namespace Xv6

open Outcome

/-- The pages below 4 GB. -/
def NPAGES : Nat := NPDENTRIES * NPDENTRIES

def Layout.Valid (L : Layout) (p : Page) : Prop := L.first ≤ p ∧ p < PHYSTOP / PGSIZE

theorem Layout.not_valid_zero (L : Layout) : ¬ L.Valid 0 := by
  rintro ⟨hlow, -⟩
  exact absurd (L.low.trans_le (L.le.trans hlow)) (Nat.not_lt_zero _)

/-! ## Entries -/

theorem PDX_eq {v : Nat} (hv : v < NPAGES) : (PDX v).val = v / NPDENTRIES := by
  unfold PDX NPAGES at *
  rw [Fin.val_ofNat, Nat.mod_eq_of_lt (Nat.div_lt_of_lt_mul hv)]

theorem page_inj {u v : Nat} (hu : u < NPAGES) (hv : v < NPAGES) (hd : PDX u = PDX v) (ht : PTX u = PTX v) : u = v := by
  have h1 : u / NPDENTRIES = v / NPDENTRIES := by rw [← PDX_eq hu, ← PDX_eq hv, hd]
  have h2 : u % NPDENTRIES = v % NPDENTRIES := congrArg Fin.val ht
  rw [← Nat.div_add_mod u NPDENTRIES, ← Nat.div_add_mod v NPDENTRIES, h1, h2]

namespace Pgdir

variable {d : Pgdir} {u v : Nat} {e : Option Pte} {t : PageTable}

theorem get_set (hu : u < NPAGES) (hv : v < NPAGES) (ht : d.pde (PDX v) = some t) :
    (d.set v e).get u = if u = v then e else d.get u := by
  unfold get set
  by_cases hd : PDX u = PDX v
  · rw [hd]
    simp only [Function.update_self, ht, Option.map_some, Option.bind_some]
    by_cases huv : u = v
    · rw [if_pos huv, huv, Function.update_self]
    · rw [if_neg huv, Function.update_of_ne]
      exact fun hp => huv (page_inj hu hv hd hp)
  · have huv : u ≠ v := fun h => hd (h ▸ rfl)
    simp only [Function.update_of_ne hd, if_neg huv]

/-! ## Ownership -/

/-- The page that an entry maps. -/
def pageOf : Option Pte → Multiset Page
  | none => 0
  | some e => {e.page}

/-- The pages mapped by a table. -/
def mapped (t : PageTable) : Multiset Page := ∑ j, pageOf (t.pte j)

/-- Entry `i` of a directory maps user memory. -/
def IsUser (i : Fin NPDENTRIES) : Prop := i.val < KERNBASE / PGSIZE / NPDENTRIES

instance (i : Fin NPDENTRIES) : Decidable (IsUser i) := inferInstanceAs (Decidable (_ < _))

/-- The pages behind entry `i` of a directory. -/
def entryPages (i : Fin NPDENTRIES) : Option PageTable → Multiset Page
  | none => 0
  | some t => t.page ::ₘ if IsUser i then mapped t else 0

@[irreducible] def owned (d : Pgdir) : Multiset Page := d.page ::ₘ ∑ i, entryPages i (d.pde i)

theorem owned_update (i : Fin NPDENTRIES) (x : Option PageTable) :
    { d with pde := Function.update d.pde i x }.owned + entryPages i (d.pde i) = d.owned + entryPages i x := by
  have hsum := Sums.sum_move (f := fun c => entryPages c (d.pde c))
    (g := fun c => entryPages c (Function.update d.pde i x c)) i (fun c hc => by rw [Function.update_of_ne hc])
  rw [Function.update_self] at hsum
  unfold owned
  rw [Multiset.cons_add, Multiset.cons_add, hsum]

theorem mapped_update (j : Fin NPDENTRIES) :
    mapped { t with pte := Function.update t.pte j e } + pageOf (t.pte j) = mapped t + pageOf e := by
  have hsum := Sums.sum_move (f := fun c => pageOf (t.pte c)) (g := fun c => pageOf (Function.update t.pte j e c)) j
    (fun c hc => by rw [Function.update_of_ne hc])
  rw [Function.update_self] at hsum
  exact hsum

theorem set_eq (ht : d.pde (PDX v) = some t) :
    d.set v e = { d with pde := Function.update d.pde (PDX v) (some { t with pte := Function.update t.pte (PTX v) e }) } := by
  unfold set
  rw [ht]
  rfl

/-- What storing an entry of the user half does to the pages owned. -/
theorem owned_set_user (ht : d.pde (PDX v) = some t) (hv : IsUser (PDX v)) :
    (d.set v e).owned + pageOf (t.pte (PTX v)) = d.owned + pageOf e := by
  have h1 := owned_update (d := d) (PDX v) (some { t with pte := Function.update t.pte (PTX v) e })
  have h2 := mapped_update (t := t) (e := e) (PTX v)
  rw [← set_eq ht, ht] at h1
  simp only [entryPages, if_pos hv] at h1
  apply add_right_cancel (b := t.page ::ₘ mapped t)
  calc (d.set v e).owned + pageOf (t.pte (PTX v)) + (t.page ::ₘ mapped t)
      = ((d.set v e).owned + (t.page ::ₘ mapped t)) + pageOf (t.pte (PTX v)) := by abel
    _ = d.owned + (t.page ::ₘ (mapped { t with pte := Function.update t.pte (PTX v) e } + pageOf (t.pte (PTX v)))) := by
        rw [h1, add_assoc, Multiset.cons_add]
    _ = d.owned + pageOf e + (t.page ::ₘ mapped t) := by
        rw [h2, ← Multiset.cons_add]
        abel

/-- The kernel half maps no page of its own. -/
theorem owned_set_kernel (ht : d.pde (PDX v) = some t) (hv : ¬ IsUser (PDX v)) : (d.set v e).owned = d.owned := by
  have h1 := owned_update (d := d) (PDX v) (some { t with pte := Function.update t.pte (PTX v) e })
  rw [← set_eq ht, ht] at h1
  simp only [entryPages, if_neg hv] at h1
  exact add_right_cancel h1

theorem owned_empty (p : Page) : owned ⟨p, fun _ => none⟩ = {p} := by
  have hsum : ∑ i, entryPages i (none : Option PageTable) = 0 := Finset.sum_eq_zero fun _ _ => rfl
  unfold owned
  dsimp only
  rw [hsum]
  rfl

/-- A table for nothing yet. -/
theorem owned_table (p : Page) (hv : d.pde (PDX v) = none) :
    { d with pde := Function.update d.pde (PDX v) (some ⟨p, fun _ => none⟩) }.owned = p ::ₘ d.owned := by
  have h1 := owned_update (d := d) (PDX v) (some ⟨p, fun _ => none⟩)
  have h2 : mapped ⟨p, fun _ => none⟩ = 0 := Finset.sum_eq_zero fun _ _ => rfl
  rw [hv] at h1
  simp only [entryPages, h2, ite_self, add_zero] at h1
  rw [h1, Multiset.add_cons, add_zero]

end Pgdir

/-! ## The free list -/

namespace Kmem

variable {k k' : Kmem} {p : Page} {L : Layout}

/-- The pages on the free list. -/
def free (k : Kmem) : Multiset Page := k.freelist

theorem kalloc_some (h : k.kalloc = (some p, k')) : k.free = p ::ₘ k'.free ∧ k'.content = k.content := by
  unfold kalloc at h
  split at h
  · cases h
  · split at h
    · cases h
    · rename_i q rest hq
      cases h
      exact ⟨by rw [free, hq]; rfl, rfl⟩

theorem kalloc_none (h : k.kalloc = (none, k')) : k'.free = k.free ∧ k'.content = k.content := by
  unfold kalloc at h
  split at h
  · cases h
    exact ⟨rfl, rfl⟩
  · split at h
    · cases h
      exact ⟨rfl, rfl⟩
    · cases h

theorem kfree_ends (p : Page) : Ends (fun _ => ¬ L.Valid p) (k.kfree L p) fun k' =>
    k'.free = p ::ₘ k.free ∧ ∀ q, q ≠ p → k'.content q = k.content q := by
  unfold kfree
  split
  · rename_i hbad
    rintro ⟨hlow, hhigh⟩
    obtain hbad | hbad := hbad
    · exact absurd hlow (Nat.not_le.2 hbad)
    · exact absurd hhigh (Nat.not_lt.2 hbad)
  · exact ⟨rfl, fun q hq => Function.update_of_ne hq ..⟩

end Kmem

/-! ## Unmapping -/

namespace Pgdir

variable {d : Pgdir} {v : Nat} {t : PageTable} {e : Pte}

theorem isUser_of_lt (hv : v < KERNBASE / PGSIZE) : IsUser (PDX v) := by
  rw [IsUser, PDX_eq (hv.trans (by decide))]
  exact Nat.div_lt_of_lt_mul (hv.trans_eq (by decide))

theorem get_of_table (ht : d.pde (PDX v) = some t) : d.get v = t.pte (PTX v) := by
  rw [get, ht]
  rfl

/-- A mapped page of the user half can be given back. -/
theorem owned_clear (ht : d.pde (PDX v) = some t) (he : t.pte (PTX v) = some e) (hv : v < KERNBASE / PGSIZE) :
    d.owned = e.page ::ₘ (d.set v none).owned := by
  have h := owned_set_user (e := none) ht (isUser_of_lt hv)
  rw [he] at h
  simp only [pageOf, add_zero] at h
  rw [← h, add_comm, Multiset.singleton_add]

theorem table_of_get (h : d.get v = some e) : ∃ t, d.pde (PDX v) = some t ∧ t.pte (PTX v) = some e :=
  Option.bind_eq_some_iff.1 h

theorem mem_owned (h : d.get v = some e) (hv : v < KERNBASE / PGSIZE) : e.page ∈ d.owned := by
  obtain ⟨t, ht, he⟩ := table_of_get h
  rw [owned_clear ht he hv]
  exact Multiset.mem_cons_self ..

/-- Two pages of user memory are different pages. -/
theorem page_ne {u : Nat} {e' : Pte} (hnd : d.owned.Nodup) (h : d.get v = some e) (h' : d.get u = some e')
    (hv : v < KERNBASE / PGSIZE) (hu : u < KERNBASE / PGSIZE) (huv : u ≠ v) : e'.page ≠ e.page := by
  obtain ⟨t, ht, he⟩ := table_of_get h
  have hNP : KERNBASE / PGSIZE ≤ NPAGES := by decide
  have hmem : e'.page ∈ (d.set v none).owned := by
    refine mem_owned ?_ hu
    rw [get_set (by omega) (by omega) ht, if_neg huv, h']
  rw [owned_clear ht he hv, Multiset.nodup_cons] at hnd
  exact fun heq => hnd.1 (heq ▸ hmem)

theorem set_table (i : Fin NPDENTRIES) (x : Option Pte) :
    ((d.set v x).pde i).map PageTable.page = (d.pde i).map PageTable.page := by
  dsimp only [set]
  by_cases hi : i = PDX v
  · subst hi
    rw [Function.update_self, Option.map_map]
    rfl
  · rw [Function.update_of_ne hi]

theorem isSome_set (i : Fin NPDENTRIES) (x : Option Pte) : ((d.set v x).pde i).isSome = (d.pde i).isSome := by
  have h := congrArg Option.isSome (set_table (d := d) (v := v) i x)
  simpa using h

end Pgdir

/-- The pages from `v` up to `last` have been unmapped and freed. -/
structure Shrunk (k : Kmem) (d : Pgdir) (v last : Nat) (r : Pgdir × Kmem) : Prop where
  get : ∀ u, u < NPAGES → r.1.get u = if v ≤ u ∧ u < last then none else d.get u
  page : r.1.page = d.page
  table : ∀ i, (r.1.pde i).map PageTable.page = (d.pde i).map PageTable.page
  pages : r.2.free + r.1.owned = k.free + d.owned
  content : ∀ q, (∀ u e, v ≤ u → u < last → d.get u = some e → e.page ≠ q) → r.2.content q = k.content q

namespace Shrunk

variable {k k' : Kmem} {d : Pgdir} {v v' last : Nat} {r : Pgdir × Kmem} {t : PageTable} {e : Pte}

theorem none (h : last ≤ v) : Shrunk k d v last (d, k) := by
  refine ⟨fun u _ => ?_, rfl, fun _ => rfl, rfl, fun _ _ => rfl⟩
  rw [if_neg (by omega)]

/-- The loop goes on behind pages that are not mapped. -/
theorem skip (h : Shrunk k d v' last r) (hle : v ≤ v') (hskip : ∀ u, v ≤ u → u < v' → u < last → d.get u = .none) :
    Shrunk k d v last r := by
  refine ⟨fun u hu => ?_, h.page, h.table, h.pages, fun q hq => h.content q fun u e hv' => hq u e (by omega)⟩
  rw [h.get u hu]
  by_cases hin : v' ≤ u
  · simp only [hin, true_and, show v ≤ u by omega]
  · rw [if_neg (by omega)]
    split
    · exact hskip u (by omega) (by omega) (by omega)
    · rfl

/-- The loop frees a page. -/
theorem step (ht : d.pde (PDX v) = some t) (he : t.pte (PTX v) = some e) (hv : v < last)
    (hlast : last ≤ KERNBASE / PGSIZE) (hfree : k'.free = e.page ::ₘ k.free)
    (hcont : ∀ q, q ≠ e.page → k'.content q = k.content q) (h : Shrunk k' (d.set v .none) (v + 1) last r) :
    Shrunk k d v last r := by
  have hvp : v < NPAGES := by
    have : KERNBASE / PGSIZE ≤ NPAGES := by decide
    omega
  refine ⟨fun u hu => ?_, h.page, fun i => (h.table i).trans (Pgdir.set_table i _), ?_, fun q hq => ?_⟩
  · rw [h.get u hu, Pgdir.get_set hu hvp ht]
    by_cases huv : u = v
    · rw [if_neg (by omega), if_pos huv, if_pos (by omega)]
    · rw [if_neg huv]
      simp only [show v + 1 ≤ u ↔ v ≤ u by omega]
  · rw [h.pages, hfree, Pgdir.owned_clear ht he (by omega), Multiset.cons_add, Multiset.add_cons]
  · have hne : q ≠ e.page := (hq v e le_rfl hv (by rw [Pgdir.get_of_table ht, he])).symm
    rw [h.content q, hcont q hne]
    intro u e' hle hlt hget
    rw [Pgdir.get_set (by have : KERNBASE / PGSIZE ≤ NPAGES := by decide
                          omega) hvp ht, if_neg (by omega)] at hget
    exact hq u e' (by omega) hlt hget

end Shrunk

section

variable {k : Kmem} {d : Pgdir} {L : Layout}

theorem deallocLoop_ends {last : Nat} (hlast : last ≤ KERNBASE / PGSIZE) (fuel v : Nat) (hfuel : last - v ≤ fuel) :
    Ends (fun _ => ∃ p ∈ d.owned, ¬ L.Valid p) (deallocLoop L last fuel k d v) (Shrunk k d v last) := by
  induction fuel generalizing k d v with
  | zero => exact Shrunk.none (by omega)
  | succ fuel ih =>
    unfold deallocLoop
    split
    · rename_i hv
      split
      · -- no table: everything up to the next directory entry is unmapped
        rename_i hnone
        have hnext : v < (v / NPDENTRIES + 1) * NPDENTRIES := Nat.lt_mul_of_div_lt (Nat.lt_succ_self _) (by decide)
        refine (ih _ (by omega)).mono fun r hr => hr.skip hnext.le fun u hvu hun hul => ?_
        have hpdx : PDX u = PDX v := by
          have hdiv : u / NPDENTRIES = v / NPDENTRIES :=
            Nat.le_antisymm (Nat.le_of_lt_succ (Nat.div_lt_of_lt_mul (by rw [Nat.mul_comm]; exact hun)))
              (Nat.div_le_div_right hvu)
          rw [PDX, PDX, hdiv]
        rw [Pgdir.get, hpdx, hnone]
        rfl
      · rename_i t ht
        split
        · rename_i hnone
          refine (ih _ (by omega)).mono fun r hr => hr.skip (by omega) fun u hvu hun _ => ?_
          obtain rfl : u = v := by omega
          rw [Pgdir.get_of_table ht, hnone]
        · rename_i e he
          have howned := Pgdir.owned_clear ht he (by omega)
          have hmem : e.page ∈ d.owned := by rw [howned]; exact Multiset.mem_cons_self ..
          split
          · rename_i hzero
            exact ⟨e.page, hmem, by rw [hzero]; exact L.not_valid_zero⟩
          · refine ((Kmem.kfree_ends e.page).weaken fun _ hbad => ⟨e.page, hmem, hbad⟩).bind fun k' hk' => ?_
            refine ((ih (v + 1) (by omega)).weaken fun _ hbad => ?_).mono fun r hr =>
              hr.step ht he hv hlast hk'.1 hk'.2
            obtain ⟨p, hp, hbad⟩ := hbad
            exact ⟨p, by rw [howned]; exact Multiset.mem_cons_of_mem hp, hbad⟩
    · exact Shrunk.none (by omega)

theorem pagesUp_mono {m n : Nat} (h : m ≤ n) : pagesUp m ≤ pagesUp n :=
  Nat.div_le_div_right (by omega)

theorem pagesUp_le {n : Nat} (h : n ≤ KERNBASE) : pagesUp n ≤ KERNBASE / PGSIZE :=
  (pagesUp_mono h).trans_eq (by decide)

theorem deallocuvm_ends {oldsz newsz : Nat} (hold : oldsz ≤ KERNBASE) :
    Ends (fun _ => ∃ p ∈ d.owned, ¬ L.Valid p) (deallocuvm L k d oldsz newsz) fun r =>
      r.1 = min oldsz newsz ∧ Shrunk k d (pagesUp newsz) (pagesUp oldsz) r.2 := by
  unfold deallocuvm
  split
  · rename_i hle
    exact ⟨(Nat.min_eq_left hle).symm, Shrunk.none (pagesUp_mono hle)⟩
  · rename_i hlt
    refine (deallocLoop_ends (pagesUp_le hold) _ _ (by omega)).bind fun r hr => ?_
    exact ⟨(Nat.min_eq_right (by omega)).symm, hr⟩

/-! ## Mapping -/

theorem walkpgdir_none {k' : Kmem} {v : Nat} (h : walkpgdir k d v = (none, k')) :
    k'.free = k.free ∧ k'.content = k.content := by
  unfold walkpgdir at h
  split at h
  · cases h
  · split at h
    · rename_i hk
      cases h
      exact Kmem.kalloc_none hk
    · cases h

/-- A directory with a table for page `v`, and otherwise the same mappings. -/
structure Walked (k : Kmem) (d : Pgdir) (v : Nat) (d' : Pgdir) (k' : Kmem) : Prop where
  table : ∃ t, d'.pde (PDX v) = some t
  get : ∀ u, d'.get u = d.get u
  only : ∀ i, (d'.pde i).isSome → (d.pde i).isSome ∨ PDX v = i
  pages : k'.free + d'.owned = k.free + d.owned
  le : k'.free ≤ k.free
  content : ∀ q, q ∉ k.free → k'.content q = k.content q

theorem walkpgdir_some {k' : Kmem} {d' : Pgdir} {v : Nat} (h : walkpgdir k d v = (some d', k')) :
    Walked k d v d' k' := by
  unfold walkpgdir at h
  split at h
  · rename_i hsome
    cases h
    exact ⟨Option.isSome_iff_exists.1 hsome, fun _ => rfl, fun _ h => .inl h, rfl, le_rfl, fun _ _ => rfl⟩
  · rename_i hnone
    rw [Bool.not_eq_true, Option.isSome_eq_false_iff, Option.isNone_iff_eq_none] at hnone
    split at h
    · cases h
    · rename_i p k₁ hk
      cases h
      obtain ⟨hfree, hcont⟩ := Kmem.kalloc_some hk
      refine ⟨⟨_, Function.update_self ..⟩, fun u => ?_, fun i hi => ?_, ?_, hfree ▸ Multiset.le_cons_self ..,
        fun q hq => ?_⟩
      · dsimp only [Pgdir.get]
        by_cases hu : PDX u = PDX v
        · rw [hu, Function.update_self, hnone]
          rfl
        · rw [Function.update_of_ne hu]
      · by_cases hiv : PDX v = i
        · exact .inr hiv
        · dsimp only at hi
          rw [Function.update_of_ne (Ne.symm hiv)] at hi
          exact .inl hi
      · rw [Pgdir.owned_table p hnone, hfree, Multiset.cons_add, Multiset.add_cons]
        rfl
      · have hqp : q ≠ p := by
          rintro rfl
          exact hq (by rw [hfree]; exact Multiset.mem_cons_self ..)
        rw [← hcont]
        exact Function.update_of_ne hqp ..

/-- One page of the user half is mapped, or there was no page for its table. -/
def Mapped (k : Kmem) (d : Pgdir) (v : Nat) (e : Pte) (r : Bool × Pgdir × Kmem) : Prop :=
  r.2.2.free ≤ k.free ∧ (∀ q, q ∉ k.free → r.2.2.content q = k.content q) ∧
    if r.1 then
      (∀ u, u < NPAGES → r.2.1.get u = if u = v then some e else d.get u) ∧
        r.2.2.free + r.2.1.owned = e.page ::ₘ (k.free + d.owned)
    else (∀ u, r.2.1.get u = d.get u) ∧ r.2.1.owned = d.owned ∧ r.2.2.free = k.free

theorem mappages_one {v : Nat} (e : Pte) (hv : v < KERNBASE / PGSIZE) :
    Ends (fun _ => d.get v ≠ none) (mappages k d v e 1) (Mapped k d v e) := by
  unfold mappages
  split
  · rename_i k' hw
    obtain ⟨hfree, hcont⟩ := walkpgdir_none hw
    exact ⟨hfree.le, fun q _ => by rw [hcont], fun _ => rfl, rfl, hfree⟩
  · rename_i d' k' hw
    have hd' := walkpgdir_some hw
    obtain ⟨t, ht⟩ := hd'.table
    split
    · rename_i hsome
      rw [hd'.get] at hsome
      intro hnone
      rw [hnone] at hsome
      cases hsome
    · rename_i hnone
      rw [Bool.not_eq_true, Option.isSome_eq_false_iff, Option.isNone_iff_eq_none, Pgdir.get_of_table ht] at hnone
      have hvp : v < NPAGES := hv.trans (by decide)
      refine ⟨hd'.le, hd'.content, fun u hu => ?_, ?_⟩
      · rw [Pgdir.get_set hu hvp ht, hd'.get]
      · have howned := Pgdir.owned_set_user (e := some e) ht (Pgdir.isUser_of_lt hv)
        rw [hnone] at howned
        simp only [Pgdir.pageOf, add_zero] at howned
        rw [howned, ← add_assoc, hd'.pages, add_comm, Multiset.singleton_add]

end

end Xv6
