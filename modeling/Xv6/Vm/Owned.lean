import Mathlib.Algebra.BigOperators.Fin
import Xv6.Vm.Pages
/-!
# Building and freeing address spaces

`setupkvm`, `copyuvm`, `allocuvm` and `freevm` keep the pages of the free list and
of the directory they work on together, whichever allocation fails; a
directory that is given up is back on the list as a whole. Beside that: with
pages enough on the list none of them fails, and what is at the end of the
list stays there.
-/

namespace Xv6

open Outcome

variable {L : Layout} {k k' : Kmem} {d d' : Pgdir} {a b : Multiset Page} {p : Page} {m n v : Nat} {tail : List Page}

/-- Free pages and the pages `a` are pages that `kfree` takes, and none is there twice. -/
structure Sound (L : Layout) (k : Kmem) (a : Multiset Page) : Prop where
  nodup : (k.free + a).Nodup
  valid : ∀ p ∈ k.free + a, L.Valid p

namespace Sound

theorem of_eq (h : Sound L k a) (heq : k'.free + b = k.free + a) : Sound L k' b := by
  refine ⟨?_, fun p hp => ?_⟩
  · rw [heq]
    exact h.nodup
  · rw [heq] at hp
    exact h.valid p hp

theorem mono (h : Sound L k b) (hle : a ≤ b) : Sound L k a := by
  have hle' : k.free + a ≤ k.free + b := add_le_add_right hle _
  exact ⟨Multiset.nodup_of_le hle' h.nodup, fun p hp => h.valid p (Multiset.mem_of_le hle' hp)⟩

/-- With fewer pages on the list. -/
theorem of_le (h : Sound L k a) (hle : k'.free ≤ k.free) : Sound L k' a := by
  have hle' : k'.free + a ≤ k.free + a := add_le_add_left hle _
  exact ⟨Multiset.nodup_of_le hle' h.nodup, fun p hp => h.valid p (Multiset.mem_of_le hle' hp)⟩

theorem held (h : Sound L k a) (hp : p ∈ a) : L.Valid p := h.valid p (Multiset.mem_add.2 (.inr hp))

theorem not_free (h : Sound L k a) (hp : p ∈ a) : p ∉ k.freelist := by
  intro hfree
  exact Multiset.disjoint_left.1 (Multiset.nodup_add.1 h.nodup).2.2 hfree hp

end Sound

/-- `kalloc` does not fail, and there are `n` pages on the list before `tail`. -/
def Kmem.Rich (k : Kmem) (n : Nat) (tail : List Page) : Prop :=
  k.fails = [] ∧ ∃ l, k.freelist = l ++ tail ∧ n ≤ l.length

namespace Kmem

theorem Rich.mono (h : k.Rich n tail) (hle : m ≤ n) : k.Rich m tail := by
  obtain ⟨hf, l, hl, hn⟩ := h
  exact ⟨hf, l, hl, by omega⟩

theorem Rich.kalloc (h : k.Rich (n + 1) tail) : ∃ p k', k.kalloc = (some p, k') ∧ k'.Rich n tail := by
  obtain ⟨hf, l, hl, hn⟩ := h
  obtain ⟨p, l, rfl⟩ := List.exists_cons_of_length_pos (Nat.lt_of_lt_of_le (Nat.succ_pos n) hn)
  refine ⟨p, { k with fails := [], freelist := l ++ tail }, ?_, rfl, l, rfl, by simpa using hn⟩
  unfold Kmem.kalloc
  rw [hf, hl]
  rfl

theorem Rich.of_kalloc (h : k.Rich (n + 1) tail) (hk : k.kalloc = (some p, k')) : k'.Rich n tail := by
  obtain ⟨p', k₁, hk₁, hrich⟩ := h.kalloc
  rw [hk] at hk₁
  cases hk₁
  exact hrich

theorem not_rich (hk : k.kalloc = (none, k')) : ¬ k.Rich (n + 1) tail := by
  intro h
  obtain ⟨p', k₁, hk₁, -⟩ := h.kalloc
  rw [hk] at hk₁
  cases hk₁

end Kmem

/-! ## Freeing -/

namespace Pgdir

def tablePage : Option PageTable → Multiset Page
  | none => 0
  | some t => {t.page}

/-- The pages of the page tables. -/
@[irreducible] def tables (d : Pgdir) : Multiset Page := ∑ i, tablePage (d.pde i)

theorem mem_tables {i : Fin NPDENTRIES} {t : PageTable} (ht : d.pde i = some t) : t.page ∈ d.tables := by
  unfold tables
  rw [Multiset.mem_sum]
  refine ⟨i, Finset.mem_univ i, ?_⟩
  rw [ht]
  exact Multiset.mem_singleton_self _

theorem tables_eq : d.tables = ((List.finRange NPDENTRIES).map fun i => tablePage (d.pde i)).sum := by
  unfold tables
  exact Fin.sum_univ_def _

/-- Without user memory only the tables and the directory are left. -/
theorem owned_unmapped (h : ∀ u, u < KERNBASE / PGSIZE → d.get u = none) : d.owned = d.page ::ₘ d.tables := by
  unfold owned tables
  refine congrArg (Multiset.cons d.page) (Finset.sum_congr rfl fun i _ => ?_)
  cases ht : d.pde i with
  | none => rfl
  | some t =>
    have hempty : (if IsUser i then mapped t else 0) = 0 := by
      split
      · rename_i hi
        refine Finset.sum_eq_zero fun j _ => ?_
        -- entry `j` of table `i` is that of page `i * 1024 + j`
        have hu : i.val * NPDENTRIES + j.val < KERNBASE / PGSIZE := by
          have hj := j.isLt
          unfold IsUser KERNBASE PGSIZE NPDENTRIES at *
          omega
        have hdx : PDX (i.val * NPDENTRIES + j.val) = i := by
          apply Fin.ext
          rw [PDX_eq (hu.trans (by decide))]
          have hj := j.isLt
          unfold NPDENTRIES at *
          omega
        have htx : PTX (i.val * NPDENTRIES + j.val) = j := by
          apply Fin.ext
          have hj := j.isLt
          rw [PTX, Fin.val_ofNat]
          unfold NPDENTRIES at *
          omega
        have hget := h _ hu
        rw [get, hdx, ht, htx] at hget
        have hj : t.pte j = none := hget
        rw [hj]
        rfl
      · rfl
    change t.page ::ₘ _ = _
    rw [hempty]
    rfl

end Pgdir

theorem freeTables_ends (is : List (Fin NPDENTRIES)) (hval : ∀ i t, d.pde i = some t → L.Valid t.page) :
    Ends (fun _ => False) (freeTables L d is k) fun k' =>
      k'.free = k.free + (is.map fun i => Pgdir.tablePage (d.pde i)).sum := by
  induction is generalizing k with
  | nil => exact (add_zero _).symm
  | cons i is ih =>
    unfold freeTables
    rw [List.map_cons, List.sum_cons]
    split
    · rename_i hnone
      refine ih.mono fun k' hk' => ?_
      rw [hk', hnone]
      exact congrArg _ (zero_add _).symm
    · rename_i t ht
      refine ((Kmem.kfree_ends t.page).weaken fun _ hbad => hbad (hval i t ht)).bind fun k₁ hk₁ => ?_
      refine ih.mono fun k' hk' => ?_
      rw [hk', hk₁.1, ht, ← Multiset.singleton_add]
      change {t.page} + k.free + _ = k.free + ({t.page} + _)
      abel

theorem freevm_ends (h : Sound L k d.owned) :
    Ends (fun _ => False) (freevm L k d) fun k' => k'.free = k.free + d.owned := by
  have htables := fun d' : Pgdir => Pgdir.tables_eq (d := d')
  unfold freevm
  generalize List.finRange NPDENTRIES = is at htables ⊢
  refine ((deallocuvm_ends le_rfl).weaken fun _ ⟨p, hp, hbad⟩ => hbad (h.held hp)).bind fun ⟨sz, d₁, k₁⟩ hr => ?_
  obtain ⟨-, hr⟩ := hr
  dsimp only at hr ⊢
  have hnone : ∀ u, u < KERNBASE / PGSIZE → d₁.get u = none := by
    intro u hu
    rw [hr.get u (hu.trans_le (by decide)), if_pos ⟨Nat.zero_le _, hu.trans_le (by decide)⟩]
  have howned := Pgdir.owned_unmapped hnone
  have hs := h.of_eq hr.pages
  rw [howned] at hs
  refine (freeTables_ends is fun i t ht => hs.held (Multiset.mem_cons_of_mem (Pgdir.mem_tables ht))).bind
    fun k₂ hk₂ => ?_
  refine ((Kmem.kfree_ends d₁.page).weaken fun _ hbad => hbad (hs.held (Multiset.mem_cons_self ..))).mono
    fun k₃ hk₃ => ?_
  rw [hk₃.1, hk₂, ← htables, ← hr.pages, howned, Multiset.add_cons]

/-! ## The kernel's part -/

namespace Pgdir

/-- How many tables of the kernel half are not there. -/
@[irreducible] def lacking (d : Pgdir) : Nat := (Finset.univ.filter fun i => ¬ IsUser i ∧ (d.pde i).isNone).card

theorem lacking_le (d : Pgdir) : d.lacking ≤ NPDENTRIES / 2 := by
  have hsub : (Finset.univ.filter fun i => ¬ IsUser i ∧ (d.pde i).isNone) ⊆ Finset.Ici (⟨512, by decide⟩ : Fin NPDENTRIES) := by
    intro i hi
    have hnot := (Finset.mem_filter.1 hi).2.1
    rw [Finset.mem_Ici, Fin.le_def]
    exact Nat.not_lt.1 hnot
  unfold lacking
  exact (Finset.card_le_card hsub).trans_eq (Fin.card_Ici _)

/-- One more table. -/
theorem lacking_table {i : Fin NPDENTRIES} (t : PageTable) (hi : ¬ IsUser i) (hnone : d.pde i = none) :
    d.lacking = { d with pde := Function.update d.pde i (some t) }.lacking + 1 := by
  have hins : (Finset.univ.filter fun j => ¬ IsUser j ∧ (d.pde j).isNone) =
      insert i (Finset.univ.filter fun j => ¬ IsUser j ∧ (Function.update d.pde i (some t) j).isNone) := by
    ext j
    by_cases hj : j = i
    · subst hj
      simp [hi, hnone]
    · simp [hj]
  unfold lacking
  dsimp only
  rw [hins, Finset.card_insert_of_notMem]
  simp

end Pgdir

theorem walkpgdir_short (hv : ¬ Pgdir.IsUser (PDX v)) (h : walkpgdir k d v = (none, k')) :
    ¬ k.Rich (m + d.lacking) tail := by
  unfold walkpgdir at h
  split at h
  · cases h
  · rename_i hnone
    rw [Bool.not_eq_true, Option.isSome_eq_false_iff, Option.isNone_iff_eq_none] at hnone
    split at h
    · rename_i hk
      rw [Pgdir.lacking_table ⟨0, fun _ => none⟩ hv hnone, ← Nat.add_assoc]
      exact Kmem.not_rich hk
    · cases h

theorem walkpgdir_rich (hv : ¬ Pgdir.IsUser (PDX v)) (h : walkpgdir k d v = (some d', k'))
    (hrich : k.Rich (m + d.lacking) tail) : k'.Rich (m + d'.lacking) tail := by
  unfold walkpgdir at h
  split at h
  · cases h
    exact hrich
  · rename_i hnone
    rw [Bool.not_eq_true, Option.isSome_eq_false_iff, Option.isNone_iff_eq_none] at hnone
    split at h
    · cases h
    · rename_i p k₁ hk
      cases h
      rw [Pgdir.lacking_table ⟨p, fun _ => none⟩ hv hnone, ← Nat.add_assoc] at hrich
      have hrich₁ := hrich.of_kalloc hk
      exact hrich₁

theorem lacking_set (x : Option Pte) : (d.set v x).lacking = d.lacking := by
  unfold Pgdir.lacking
  simp only [← Option.not_isSome, Pgdir.isSome_set]

theorem not_isUser (hv : KERNBASE / PGSIZE ≤ v) (hv' : v < NPAGES) : ¬ Pgdir.IsUser (PDX v) := by
  rw [Pgdir.IsUser, PDX_eq hv', Nat.not_lt]
  exact Nat.div_le_div_right hv

/-- Pages of the kernel half were mapped, or there was no page for a table. -/
structure KernelMapped (k : Kmem) (d : Pgdir) (v n : Nat) (e : Pte) (r : Bool × Pgdir × Kmem) : Prop where
  pages : r.2.2.free + r.2.1.owned = k.free + d.owned
  outside : ∀ u, u < NPAGES → ¬(v ≤ u ∧ u < v + n) → r.2.1.get u = d.get u
  inside : r.1 = true → ∀ u, v ≤ u → u < v + n → r.2.1.get u = some { e with page := e.page + (u - v) }
  tables : ∀ i, (r.2.1.pde i).isSome → (d.pde i).isSome ∨ ∃ u, v ≤ u ∧ u < v + n ∧ PDX u = i
  rich : ∀ m tail, k.Rich (m + d.lacking) tail → r.1 = true ∧ r.2.2.Rich (m + r.2.1.lacking) tail

theorem mappages_kernel (n v : Nat) (e : Pte) (hv : KERNBASE / PGSIZE ≤ v) (hn : v + n ≤ NPAGES)
    (hnone : ∀ u, v ≤ u → u < v + n → d.get u = none) :
    Ends (fun _ => False) (mappages k d v e n) (KernelMapped k d v n e) := by
  induction n generalizing k d v e with
  | zero => exact ⟨rfl, fun _ _ _ => rfl, fun _ u hu hlt => absurd hlt (by omega), fun _ h => .inl h, fun _ _ h => ⟨rfl, h⟩⟩
  | succ n ih =>
    have huser := not_isUser hv (by omega)
    unfold mappages
    split
    · rename_i k' hw
      have hfree := (walkpgdir_none hw).1
      exact ⟨by rw [hfree], fun _ _ _ => rfl, nofun, fun _ h => .inl h, fun _ _ h => absurd h (walkpgdir_short huser hw)⟩
    · rename_i d₁ k₁ hw
      have hd₁ := walkpgdir_some hw
      obtain ⟨t, ht⟩ := hd₁.table
      split
      · rename_i hsome
        rw [hd₁.get, hnone v le_rfl (by omega)] at hsome
        cases hsome
      · have hget : ∀ u, u < NPAGES → (d₁.set v (some e)).get u = if u = v then some e else d.get u := by
          intro u hu
          rw [Pgdir.get_set hu (by omega) ht, hd₁.get]
        refine (ih (v + 1) _ (by omega) (by omega) fun u hu hlt => ?_).mono fun r hr => ?_
        · rw [hget u (by omega), if_neg (by omega)]
          exact hnone u (by omega) (by omega)
        · refine ⟨?_, fun u hu hout => ?_, fun hok u hu hlt => ?_, fun i hi => ?_, fun m tail h => ?_⟩
          · rw [hr.pages, Pgdir.owned_set_kernel ht huser, hd₁.pages]
          · rw [hr.outside u hu (by omega), hget u hu, if_neg (by omega)]
          · by_cases huv : u = v
            · rw [huv, hr.outside v (by omega) (by omega), hget v (by omega), if_pos rfl, Nat.sub_self]
              rfl
            · rw [hr.inside hok u (by omega) (by omega), Nat.add_assoc, show 1 + (u - (v + 1)) = u - v by omega]
          · obtain hi | ⟨u, hu, hlt, rfl⟩ := hr.tables i hi
            · rw [Pgdir.isSome_set] at hi
              obtain hi | rfl := hd₁.only i hi
              · exact .inl hi
              · exact .inr ⟨v, le_rfl, by omega, rfl⟩
            · exact .inr ⟨u, by omega, by omega, rfl⟩
          · refine hr.rich m tail ?_
            rw [lacking_set]
            exact walkpgdir_rich huser hw h

def pagesOf : Option Pgdir → Multiset Page
  | none => 0
  | some d => d.owned

/-- The regions follow one another, from page `v` on. -/
def Ascending (v : Nat) : List Kmap → Prop
  | [] => True
  | x :: xs => v ≤ x.virt ∧ x.virt + x.n ≤ NPAGES ∧ Ascending (x.virt + x.n) xs

theorem Ascending.le {ms : List Kmap} {x : Kmap} (h : Ascending v ms) (hx : x ∈ ms) : v ≤ x.virt := by
  induction ms generalizing v with
  | nil => cases hx
  | cons y ys ih =>
    obtain rfl | hx := List.mem_cons.1 hx
    · exact h.1
    · exact h.1.trans ((Nat.le_add_right ..).trans (ih h.2.2 hx))

theorem kmap_ascending (L : Layout) : Ascending (KERNBASE / PGSIZE) (kmap L) := by
  obtain ⟨data, hdata⟩ : ∃ data : Nat, data = L.data := ⟨_, rfl⟩
  have hlow : 256 < data := by rw [hdata]; exact L.low
  have hhigh : data < 57344 := by rw [hdata]; exact L.le.trans_lt L.high
  simp only [kmap, ← hdata, Ascending, KERNBASE, PGSIZE, EXTMEM, PHYSTOP, DEVSPACE, NPAGES, NPDENTRIES]
  refine ⟨by omega, by omega, by omega, by omega, by omega, by omega, by omega, by omega, trivial⟩

/-- The loop of `setupkvm` has mapped the regions, or has given the directory back. -/
structure KernelSet (k : Kmem) (d : Pgdir) (v : Nat) (ms : List Kmap) (r : Option Pgdir × Kmem) : Prop where
  pages : r.2.free + pagesOf r.1 = k.free + d.owned
  outside : ∀ d', r.1 = some d' → ∀ u, u < NPAGES → (∀ x ∈ ms, ¬(x.virt ≤ u ∧ u < x.virt + x.n)) → d'.get u = d.get u
  regions : ∀ d', r.1 = some d' → ∀ x ∈ ms, ∀ u, x.virt ≤ u → u < x.virt + x.n →
    d'.get u = some ⟨x.phys + (u - x.virt), x.write, false⟩
  tables : ∀ d', r.1 = some d' → ∀ i, (d'.pde i).isSome → (d.pde i).isSome ∨
    ∃ x ∈ ms, ∃ u, x.virt ≤ u ∧ u < x.virt + x.n ∧ PDX u = i
  rich : ∀ m tail, k.Rich (m + d.lacking) tail → (∃ d', r.1 = some d') ∧ r.2.Rich m tail

theorem mapKernel_ends (ms : List Kmap) (hv : KERNBASE / PGSIZE ≤ v) (hasc : Ascending v ms)
    (hnone : ∀ u, v ≤ u → u < NPAGES → d.get u = none) (hs : Sound L k d.owned) :
    Ends (fun _ => False) (mapKernel L ms k d) (KernelSet k d v ms) := by
  induction ms generalizing k d v with
  | nil =>
    refine ⟨rfl, ?_, nofun, ?_, fun m tail h => ⟨⟨d, rfl⟩, h.mono (Nat.le_add_right ..)⟩⟩
    · rintro _ ⟨⟩ u - -
      rfl
    · rintro _ ⟨⟩ i hi
      exact .inl hi
  | cons x xs ih =>
    obtain ⟨hle, htop, hasc⟩ := hasc
    unfold mapKernel
    refine (mappages_kernel x.n x.virt _ (hv.trans hle) htop fun u hu hlt => hnone u (hle.trans hu) (by omega)).bind
      fun ⟨ok, d₁, k₁⟩ hr => ?_
    have hpages : k₁.free + d₁.owned = k.free + d.owned := hr.pages
    have hs₁ := hs.of_eq hpages
    cases ok with
    | false =>
      refine (freevm_ends hs₁).bind fun k₂ hk₂ => ?_
      exact ⟨by rw [← hpages, ← hk₂]; exact add_zero _, nofun, nofun, nofun,
        fun m tail h => absurd (hr.rich m tail h).1 nofun⟩
    | true =>
      have hout : ∀ u, u < NPAGES → ¬(x.virt ≤ u ∧ u < x.virt + x.n) → d₁.get u = d.get u := hr.outside
      refine (ih (by omega) hasc (fun u hu hlt => ?_) hs₁).mono fun r hset => ?_
      · rw [hout u hlt (by omega)]
        exact hnone u (by omega) hlt
      · refine ⟨hset.pages.trans hpages, fun d' hd' u hlt hout' => ?_, fun d' hd' y hy u hu hlt => ?_,
          fun d' hd' i hi => ?_, fun m tail h => ?_⟩
        · rw [hset.outside d' hd' u hlt fun y hy => hout' y (List.mem_cons_of_mem _ hy), hout u hlt (hout' x (List.mem_cons_self ..))]
        · obtain rfl | hy := List.mem_cons.1 hy
          · -- the regions to come begin behind this one
            rw [hset.outside d' hd' u (by omega) fun z hz hin => absurd (hasc.le hz) (by omega)]
            exact hr.inside rfl u hu hlt
          · exact hset.regions d' hd' y hy u hu hlt
        · obtain hi | ⟨y, hy, hu⟩ := hset.tables d' hd' i hi
          · refine (hr.tables i hi).imp_right fun hu => ⟨x, List.mem_cons_self .., hu⟩
          · exact .inr ⟨y, List.mem_cons_of_mem _ hy, hu⟩
        · exact hset.rich m tail (hr.rich m tail h).2

/-- No table of the kernel reaches into the gap below the devices. -/
theorem kmap_gap {x : Kmap} {u u' : Nat} (hx : x ∈ kmap L) (hle : x.virt ≤ u') (hlt' : u' < x.virt + x.n)
    (hu : (KERNBASE + PHYSTOP) / PGSIZE ≤ u) (hlt : u < DEVSPACE / PGSIZE) : PDX u' ≠ PDX u := by
  obtain ⟨data, hdata⟩ : ∃ data : Nat, data = L.data := ⟨_, rfl⟩
  have hlow : 256 < data := by rw [hdata]; exact L.low
  have hhigh : data < 57344 := by rw [hdata]; exact L.le.trans_lt L.high
  intro heq
  have hval : u' / NPDENTRIES % NPDENTRIES = u / NPDENTRIES % NPDENTRIES := congrArg Fin.val heq
  simp only [kmap, ← hdata, List.mem_cons, List.not_mem_nil, or_false] at hx
  unfold KERNBASE PGSIZE PHYSTOP DEVSPACE NPDENTRIES EXTMEM at *
  obtain rfl | rfl | rfl | rfl := hx <;> dsimp only at hle hlt' <;> omega

/-- The kernel's entry for a page: what `kmap` says. -/
def kernelPte (L : Layout) (u : Nat) : Option Pte :=
  ((kmap L).find? fun x => x.virt ≤ u ∧ u < x.virt + x.n).map fun x => ⟨x.phys + (u - x.virt), x.write, false⟩

/-- A directory that maps the kernel and nothing else. -/
structure Fresh (L : Layout) (d : Pgdir) : Prop where
  kernel : ∀ u, u < NPAGES → d.get u = kernelPte L u
  user : ∀ u, u < KERNBASE / PGSIZE → d.get u = none
  devices : ∀ u, DEVSPACE / PGSIZE ≤ u → u < NPAGES → ∃ e, d.get u = some e ∧ e.user = false
  gap : ∀ u, (KERNBASE + PHYSTOP) / PGSIZE ≤ u → u < DEVSPACE / PGSIZE → d.pde (PDX u) = none

theorem setupkvm_ends (hs : Sound L k 0) :
    Ends (fun _ => False) (setupkvm L k) fun r =>
      r.2.free + pagesOf r.1 = k.free ∧ (∀ d, r.1 = some d → Fresh L d) ∧
        ∀ m tail, k.Rich (m + NPDENTRIES / 2 + 1) tail → (∃ d, r.1 = some d) ∧ r.2.Rich m tail := by
  unfold setupkvm
  split
  · rename_i k' hk
    exact ⟨by rw [(Kmem.kalloc_none hk).1]; exact add_zero _, nofun, fun m tail h => absurd h (Kmem.not_rich hk)⟩
  · rename_i p k' hk
    have hfree := (Kmem.kalloc_some hk).1
    have howned := Pgdir.owned_empty p
    have hpages : (k'.memset p 0).free + Pgdir.owned ⟨p, fun _ => none⟩ = k.free := by
      rw [howned, hfree, add_comm, Multiset.singleton_add]
      rfl
    have hs' : Sound L (k'.memset p 0) (Pgdir.owned ⟨p, fun _ => none⟩) := hs.of_eq (by rw [hpages, add_zero])
    refine (mapKernel_ends _ le_rfl (kmap_ascending L) (fun _ _ _ => rfl) hs').mono fun r hr => ?_
    refine ⟨hr.pages.trans hpages, fun d hd => ⟨fun u hu => ?_, fun u hu => ?_, fun u hu hlt => ?_, fun u hu hlt => ?_⟩,
      fun m tail h => ?_⟩
    · unfold kernelPte
      cases hfind : (kmap L).find? fun x => x.virt ≤ u ∧ u < x.virt + x.n with
      | none =>
        rw [hr.outside d hd u hu fun x hx => by simpa using List.find?_eq_none.1 hfind x hx]
        rfl
      | some x =>
        have hin : x.virt ≤ u ∧ u < x.virt + x.n := by simpa using List.find?_some hfind
        exact hr.regions d hd x (List.mem_of_find?_eq_some hfind) u hin.1 hin.2
    · rw [hr.outside d hd u (hu.trans (by decide)) fun x hx hin => absurd ((kmap_ascending L).le hx) (by omega)]
      rfl
    · have hlast : (⟨DEVSPACE / PGSIZE, DEVSPACE / PGSIZE, (2 ^ 32 - DEVSPACE) / PGSIZE, true⟩ : Kmap) ∈ kmap L := by
        simp [kmap]
      exact ⟨_, hr.regions d hd _ hlast u hu (hlt.trans_eq (by decide)), rfl⟩
    · by_contra hne
      obtain hsome | ⟨x, hx, u', hle, hlt', hdx⟩ := hr.tables d hd _ (Option.isSome_iff_ne_none.2 hne)
      · cases hsome
      · exact kmap_gap hx hle hlt' hu hlt hdx
    · have hlack := Pgdir.lacking_le ⟨p, fun _ => none⟩
      have hrich := (h.of_kalloc hk).mono (Nat.add_le_add_left hlack m)
      exact hr.rich m tail hrich

/-! ## Copying -/

theorem copyLoop_ends {src : Pgdir} (n v : Nat) (hv : v + n ≤ KERNBASE / PGSIZE)
    (hnone : ∀ u, v ≤ u → u < KERNBASE / PGSIZE → d.get u = none) (hs : Sound L k d.owned) :
    Ends (· = .copyuvm) (copyLoop L src n k d v) fun r =>
      r.2.free + pagesOf r.1 = k.free + d.owned ∧
        ∀ d', r.1 = some d' → ∀ u, v + n ≤ u → u < KERNBASE / PGSIZE → d'.get u = none := by
  induction n generalizing k d v with
  | zero =>
    refine ⟨rfl, ?_⟩
    rintro _ ⟨⟩ u hu hlt
    exact hnone u hu hlt
  | succ n ih =>
    unfold copyLoop
    split
    · rfl
    · rename_i e _
      split
      · rename_i k₁ hk
        have hfree := (Kmem.kalloc_none hk).1
        refine ((freevm_ends (hs.of_eq (by rw [hfree]))).weaken fun _ h => h.elim).bind fun k₂ hk₂ => ?_
        exact ⟨by rw [hk₂, hfree]; exact add_zero _, nofun⟩
      · rename_i p k₁ hk
        have hfree := (Kmem.kalloc_some hk).1
        refine ((mappages_one _ (by omega)).weaken fun _ h => absurd (hnone v le_rfl (by omega)) h).bind
          fun ⟨ok, d₂, k₂⟩ hr => ?_
        obtain ⟨-, -, hr⟩ := hr
        cases ok with
        | false =>
          -- the page is not in the directory yet and is freed by itself
          obtain ⟨-, howned, hfree₂⟩ := hr
          have hfree₂' : k₂.free = k₁.free := hfree₂
          have hback : p ::ₘ k₂.free + d₂.owned = k.free + d.owned := by rw [hfree₂', howned, hfree]
          have hval : L.Valid p := hs.valid p (by rw [hfree]; exact Multiset.mem_add.2 (.inl (Multiset.mem_cons_self ..)))
          refine ((Kmem.kfree_ends p).weaken fun _ hbad => absurd hval hbad).bind fun k₃ hk₃ => ?_
          rw [← hk₃.1] at hback
          refine ((freevm_ends (hs.of_eq hback)).weaken fun _ h => h.elim).bind fun k₄ hk₄ => ?_
          exact ⟨by rw [hk₄, hback]; exact add_zero _, nofun⟩
        | true =>
          obtain ⟨hget, hpages⟩ := hr
          have hpages' : k₂.free + d₂.owned = k.free + d.owned := by
            rw [hfree, Multiset.cons_add]
            exact hpages
          have hget' : ∀ u, u < KERNBASE / PGSIZE → u ≠ v → d₂.get u = d.get u := by
            intro u hu huv
            exact (hget u (hu.trans_le (by decide))).trans (if_neg huv)
          refine (ih (v + 1) (by omega) (fun u hu hlt => ?_) (hs.of_eq hpages')).mono fun r hr => ?_
          · rw [hget' u hlt (by omega)]
            exact hnone u (by omega) hlt
          · refine ⟨hr.1.trans hpages', fun d' hd' u hu hlt => hr.2 d' hd' u (by omega) hlt⟩

theorem copyuvm_ends {src : Pgdir} {sz : Nat} (hsz : sz ≤ KERNBASE) (hs : Sound L k 0) :
    Ends (· = .copyuvm) (copyuvm L k src sz) fun r =>
      r.2.free + pagesOf r.1 = k.free ∧
        ∀ d', r.1 = some d' → ∀ u, pagesUp sz ≤ u → u < KERNBASE / PGSIZE → d'.get u = none := by
  unfold copyuvm
  refine ((setupkvm_ends hs).weaken fun _ h => h.elim).bind fun ⟨x, k₁⟩ hr => ?_
  obtain ⟨hpages, hfresh, -⟩ := hr
  cases x with
  | none => exact ⟨hpages, nofun⟩
  | some d =>
    have hpages' : k₁.free + d.owned = k.free := hpages
    have hle := pagesUp_le hsz
    refine (copyLoop_ends _ 0 (by omega) (fun u _ hu => (hfresh d rfl).user u hu)
      (hs.of_eq (by rw [hpages', add_zero]))).mono fun r hr => ?_
    refine ⟨hr.1.trans hpages', fun d' hd' u hu hlt => hr.2 d' hd' u (by omega) hlt⟩

end Xv6
