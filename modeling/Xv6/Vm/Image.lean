import Mathlib.Tactic.IntervalCases
import Xv6.Vm.Copy
import Xv6.Vm.Exec
/-!
# exec keeps the pages together

The new address space is built from the free list and is complete or back on
the list in the end, and a program that is run replaces the old address space,
which goes back to the list. This needs that `copyout` stays within memory
that has page tables: an argument of nearly 32 MB takes the stack pointer below
0 and around into the gap between the kernel's memory and the devices.
-/

namespace Xv6

open Outcome

variable {L : Layout} {k k' : Kmem} {d cur : Pgdir} {p : Page} {m n v sz : Nat} {tail : List Page}

/-! ## Stores -/

theorem upTo_of_notMem {l : List Page} (h : p ∉ l) : upTo p l = l := by
  induction l with
  | nil => rfl
  | cons q l ih =>
    obtain ⟨hq, hl⟩ := not_or.1 (List.mem_cons.not.1 h)
    rw [upTo, if_neg (Ne.symm hq), ih hl]

/-- The free list is as it was. -/
def SameList (k k' : Kmem) : Prop := k'.freelist = k.freelist ∧ k'.fails = k.fails

namespace SameList

theorem refl (k : Kmem) : SameList k k := ⟨rfl, rfl⟩

theorem trans {k'' : Kmem} (h : SameList k k') (h' : SameList k' k'') : SameList k k'' :=
  ⟨h'.1.trans h.1, h'.2.trans h.2⟩

theorem free (h : SameList k k') : k'.free = k.free := by
  rw [Kmem.free, h.1, Kmem.free]

theorem sound {a : Multiset Page} (h : SameList k k') (hs : Sound L k a) : Sound L k' a :=
  hs.of_eq (by rw [h.free])

end SameList

theorem store_sameList {o : Nat} {f : Nat → BitVec 8} (hp : p ∉ k.freelist) : SameList k (k.store p o n f) := by
  refine ⟨?_, rfl⟩
  unfold Kmem.store
  dsimp only
  rw [upTo_of_notMem hp, ite_self]

/-! ## allocuvm -/

/-- What `allocuvm` does to a directory with nothing mapped above `oldsz`. -/
structure Alloced (k : Kmem) (d : Pgdir) (oldsz newsz : Nat) (r : Nat × Pgdir × Kmem) : Prop where
  pages : r.2.2.free + r.2.1.owned = k.free + d.owned
  size : r.1 ≠ 0 → r.1 = max oldsz newsz ∧ newsz < KERNBASE
  inside : r.1 ≠ 0 → ∀ u, pagesUp oldsz ≤ u → u < pagesUp newsz → (r.2.1.get u).isSome
  outside : ∀ u, u < NPAGES → ¬(pagesUp oldsz ≤ u ∧ u < pagesUp newsz) → r.2.1.get u = d.get u
  failed : r.1 = 0 → ∀ u, u < NPAGES → r.2.1.get u = d.get u

theorem allocuvm_ends {oldsz newsz : Nat} (hs : Sound L k d.owned)
    (hnone : ∀ u, pagesUp oldsz ≤ u → u < KERNBASE / PGSIZE → d.get u = none) :
    Ends (fun _ => False) (allocuvm L k d oldsz newsz) (Alloced k d oldsz newsz) := by
  unfold allocuvm
  split
  · exact ⟨rfl, fun h => absurd rfl h, fun h => absurd rfl h, fun _ _ _ => rfl, fun _ _ _ => rfl⟩
  · rename_i hnew
    split
    · rename_i hlt
      have hmono := pagesUp_mono hlt.le
      refine ⟨rfl, fun _ => ⟨(max_eq_left hlt.le).symm, by omega⟩, fun _ u hu hu' => ?_, fun _ _ _ => rfl, fun _ _ _ => rfl⟩
      omega
    · rename_i hge
      have hle := pagesUp_le (n := newsz) (by omega)
      have hmono := pagesUp_mono (Nat.le_of_not_lt hge)
      refine (allocLoop_ends _ _ _ _ (by omega) (by omega) le_rfl (fun u hu hlt => hnone u hu (by omega)) hs.valid).mono
        fun r hr => ?_
      obtain ⟨hr1, hg⟩ | ⟨hr1, hg⟩ := hr
      · refine ⟨hg.pages, fun _ => ⟨by rw [hr1, max_eq_right (by omega)], by omega⟩, fun _ => hg.inside, hg.outside,
          fun hz u hu => hg.outside u hu ?_⟩
        have hzero : pagesUp newsz = 0 := by rw [← hr1, hz]; rfl
        omega
      · have hsame : ∀ u, u < NPAGES → r.2.1.get u = d.get u := by
          intro u hu
          rw [hg.get u hu]
          split
          · exact (hnone u (by omega) (by omega)).symm
          · rfl
        exact ⟨hg.pages, fun h => absurd hr1 h, fun h => absurd hr1 h, fun u hu _ => hsame u hu, fun _ => hsame⟩

theorem walkpgdir_user (hrich : k.Rich (m + 1) tail) : ∃ d' k', walkpgdir k d v = (some d', k') ∧ k'.Rich m tail := by
  unfold walkpgdir
  split
  · exact ⟨d, k, rfl, hrich.mono (Nat.le_succ m)⟩
  · obtain ⟨p, k₁, hk₁, hrich₁⟩ := hrich.kalloc
    rw [hk₁]
    exact ⟨_, _, rfl, hrich₁⟩

theorem walkpgdir_pde {d' : Pgdir} (h : walkpgdir k d v = (some d', k')) {i : Fin NPDENTRIES} (hi : i ≠ PDX v) :
    d'.pde i = d.pde i := by
  unfold walkpgdir at h
  split at h
  · cases h
    rfl
  · split at h
    · cases h
    · cases h
      exact Function.update_of_ne hi ..

theorem allocLoop_rich {oldsz newsz : Nat} (n v : Nat) (hv : v + n ≤ KERNBASE / PGSIZE) (hrich : k.Rich (m + 2 * n) tail) :
    Ends (fun _ => True) (allocLoop L oldsz newsz n k d v) fun r =>
      r.1 = newsz ∧ r.2.2.Rich m tail ∧ ∀ i, ¬ Pgdir.IsUser i → r.2.1.pde i = d.pde i := by
  induction n generalizing k d v with
  | zero => exact ⟨rfl, hrich, fun _ _ => rfl⟩
  | succ n ih =>
    obtain ⟨p, k₁, hk₁, hrich₁⟩ := Kmem.Rich.kalloc (n := m + 2 * n + 1) hrich
    obtain ⟨d₂, k₂, hw, hrich₂⟩ := walkpgdir_user (d := d) (v := v) (k := k₁.memset p 0) hrich₁
    have hpde : ∀ i, ¬ Pgdir.IsUser i → (d₂.set v (some ⟨p, true, true⟩)).pde i = d.pde i := by
      intro i hi
      have hne : i ≠ PDX v := by
        rintro rfl
        exact hi (Pgdir.isUser_of_lt (by omega))
      rw [← walkpgdir_pde hw hne]
      exact Function.update_of_ne hne ..
    unfold allocLoop
    rw [hk₁]
    dsimp only [mappages]
    rw [hw]
    dsimp only
    split
    · trivial
    · refine (ih (v + 1) (by omega) hrich₂).mono fun r hr => ⟨hr.1, hr.2.1, fun i hi => ?_⟩
      rw [hr.2.2 i hi, hpde i hi]

/-- `allocuvm` with memory enough. -/
theorem allocuvm_rich {oldsz newsz : Nat} (hle : oldsz ≤ newsz) (hlt : newsz < KERNBASE)
    (hrich : k.Rich (m + 2 * (pagesUp newsz - pagesUp oldsz)) tail) :
    Ends (fun _ => True) (allocuvm L k d oldsz newsz) fun r =>
      r.1 = newsz ∧ r.2.2.Rich m tail ∧ (∀ i, ¬ Pgdir.IsUser i → r.2.1.pde i = d.pde i) ∧
        (newsz ≠ 0 → Untouched k r.2.2) := by
  have hup := pagesUp_le hlt.le
  have hmono := pagesUp_mono hle
  unfold allocuvm
  rw [if_neg (Nat.not_le.2 hlt), if_neg (Nat.not_lt.2 hle)]
  refine ((allocLoop_rich _ _ (by omega) hrich).and (allocLoop_untouched _ _)).mono fun r hr => ?_
  obtain ⟨⟨hsz, hrich', hpde⟩, htouch⟩ := hr
  exact ⟨hsz, hrich', hpde, fun hne => htouch (hsz ▸ hne)⟩

/-! ## The new address space -/

/-- A directory with user memory up to `sz`, and the devices above the kernel. -/
structure Image (d : Pgdir) (sz : Nat) : Prop where
  mapped : ∀ u, u < KERNBASE / PGSIZE → ((d.get u).isSome ↔ u < pagesUp sz)
  devices : ∀ u, DEVSPACE / PGSIZE ≤ u → u < NPAGES → ∃ e, d.get u = some e ∧ e.user = false
  size : sz < KERNBASE

namespace Image

theorem none (h : Image d sz) {u : Nat} (hle : pagesUp sz ≤ u) (hu : u < KERNBASE / PGSIZE) : d.get u = none := by
  have := h.mapped u hu
  rw [← Option.not_isSome_iff_eq_none, this]
  omega

theorem some (h : Image d sz) {u : Nat} (hu : u < pagesUp sz) : ∃ e, d.get u = some e ∧ u < KERNBASE / PGSIZE := by
  have hlt : u < KERNBASE / PGSIZE := hu.trans_le (pagesUp_le h.size.le)
  obtain ⟨e, he⟩ := Option.isSome_iff_exists.1 ((h.mapped u hlt).2 hu)
  exact ⟨e, he, hlt⟩

theorem of_fresh (h : Fresh L d) : Image d 0 := by
  refine ⟨fun u hu => ?_, h.devices, by decide⟩
  rw [h.user u hu]
  exact ⟨nofun, fun hlt => absurd hlt (Nat.not_lt_zero u)⟩

/-- After `allocuvm`. -/
theorem grown {newsz : Nat} {r : Nat × Pgdir × Kmem} (h : Image d sz) (hr : Alloced k d sz newsz r) (hne : r.1 ≠ 0) :
    Image r.2.1 r.1 := by
  obtain ⟨hsize, hnew⟩ := hr.size hne
  have hsz := h.size
  have hmax : pagesUp r.1 = max (pagesUp sz) (pagesUp newsz) := by
    rw [hsize]
    obtain hle | hle := le_total sz newsz
    · rw [max_eq_right hle, max_eq_right (pagesUp_mono hle)]
    · rw [max_eq_left hle, max_eq_left (pagesUp_mono hle)]
  have hle := pagesUp_le hnew.le
  have hNP : KERNBASE / PGSIZE ≤ NPAGES := by decide
  refine ⟨fun u hu => ?_, fun u hu hlt => ?_, by omega⟩
  · rw [hmax]
    by_cases hin : pagesUp sz ≤ u ∧ u < pagesUp newsz
    · simp only [hr.inside hne u hin.1 hin.2, true_iff]
      omega
    · rw [hr.outside u (by omega) hin, h.mapped u hu]
      omega
  · have hdev : KERNBASE / PGSIZE ≤ DEVSPACE / PGSIZE := by decide
    rw [hr.outside u hlt (by omega)]
    exact h.devices u hu hlt

end Image

theorem loadLoop_ends {data : Nat → Option (Nat → BitVec 8)} {size : Nat} (n i : Nat) (h : Image d sz)
    (hin : v + i + n ≤ pagesUp sz) (hs : Sound L k d.owned) :
    Ends (fun _ => False) (loadLoop d v size data n i k) fun r => SameList k r.2 := by
  induction n generalizing k i with
  | zero => exact .refl k
  | succ n ih =>
    obtain ⟨e, he, hlt⟩ := h.some (u := v + i) (by omega)
    obtain ⟨t, ht, hte⟩ := Pgdir.table_of_get he
    unfold loadLoop
    rw [ht]
    dsimp only
    split
    · exact .refl k
    · rw [hte]
      have hsame := store_sameList (k := k) (o := 0) (n := min PGSIZE (size - i * PGSIZE)) (f := ‹Nat → BitVec 8›)
        (hs.not_free (Pgdir.mem_owned he hlt))
      exact (ih (i + 1) (by omega) (hsame.sound hs)).mono fun r hr => hsame.trans hr

/-- The loop over the program headers keeps the pages together. -/
def Loaded (k : Kmem) (d : Pgdir) (r : Option Nat × Pgdir × Kmem) : Prop :=
  r.2.2.free + r.2.1.owned = k.free + d.owned ∧ ∀ sz, r.1 = some sz → Image r.2.1 sz

theorem loadSegs_ends (segs : List Segment) (h : Image d sz) (hs : Sound L k d.owned) :
    Ends (fun _ => False) (loadSegs L segs k d sz) (Loaded k d) := by
  induction segs generalizing k d sz with
  | nil =>
    refine ⟨rfl, ?_⟩
    rintro _ ⟨⟩
    exact h
  | cons g gs ih =>
    have hfail : Loaded k d (none, d, k) := ⟨rfl, nofun⟩
    unfold loadSegs
    split
    · exact hfail
    · rename_i ph _
      split
      · exact ih h hs
      · split
        · exact hfail
        · split
          · exact hfail
          · rename_i hload hmem hwrap
            refine (allocuvm_ends hs fun u hu hlt => h.none hu hlt).bind fun ⟨sz', d₁, k₁⟩ hr => ?_
            have hpages : k₁.free + d₁.owned = k.free + d.owned := hr.pages
            have hs₁ := hs.of_eq hpages
            have hfail₁ : Loaded k d (none, d₁, k₁) := ⟨hpages, nofun⟩
            dsimp only
            split
            · exact hfail₁
            · rename_i hne
              split
              · exact hfail₁
              · rename_i halign
                have himg : Image d₁ sz' := h.grown hr hne
                have hsize : sz' = max sz (ph.vaddr + ph.memsz).toNat := (hr.size hne).1
                -- the segment lies below the new size
                have hin : ph.vaddr.toNat / PGSIZE + 0 + pagesUp ph.filesz.toNat ≤ pagesUp sz' := by
                  have hv := ph.vaddr.isLt
                  have hm := ph.memsz.isLt
                  rw [BitVec.toNat_add] at hwrap hsize
                  unfold pagesUp PGSIZE at *
                  omega
                refine (loadLoop_ends _ 0 himg hin hs₁).bind fun ⟨ok, k₂⟩ hsame => ?_
                have hsame' : SameList k₁ k₂ := hsame
                cases ok with
                | false => exact ⟨by dsimp only; rw [hsame'.free]; exact hpages, nofun⟩
                | true =>
                  refine (ih himg (hsame'.sound hs₁)).mono fun r hr' => ⟨?_, hr'.2⟩
                  rw [hr'.1, hsame'.free]
                  exact hpages

/-! ## The arguments -/

theorem uva2ka_mapped {e : Pte} (he : d.get v = some e) :
    uva2ka cur k d v = .ok (if e.user then some e.page else none) := by
  obtain ⟨t, ht, hte⟩ := Pgdir.table_of_get he
  unfold uva2ka
  rw [ht]
  dsimp only
  rw [hte]

/-- Where there is no page table, the word at address 0 of the running process is the entry. -/
theorem uva2ka_gap {w : BitVec 32} {e : Pte} {b : Page} (hgap : d.pde (PDX v) = none) (hcur : cur.get 0 = some e)
    (hword : firstWord (k.content e.page) = w) (hpresent : w.getLsbD 0 = true) (huser : w.getLsbD 2 = true)
    (hb : w.toNat / PGSIZE = b) (htop : b < PHYSTOP / PGSIZE) : uva2ka cur k d v = .ok (some b) := by
  unfold uva2ka
  rw [hgap, hcur]
  dsimp only
  rw [hword, hpresent, huser, if_neg (by decide), hb, if_pos htop]

/-- Copying to addresses below the size. -/
theorem copyoutLoop_ends {f : Nat → BitVec 8} {len : Nat} (fuel done : Nat) (va : BitVec 32) (h : Image d sz)
    (hin : done < len → va.toNat + (len - done) ≤ sz) (hs : Sound L k d.owned) :
    Ends (fun _ => False) (copyoutLoop cur d f len fuel done va k) fun r => SameList k r.2 := by
  induction fuel generalizing k done va with
  | zero => exact .refl k
  | succ fuel ih =>
    unfold copyoutLoop
    split
    · exact .refl k
    · rename_i hmore
      have hva := hin (by omega)
      obtain ⟨e, he, hlt⟩ := h.some (u := va.toNat / PGSIZE) (lt_pagesUp (by omega))
      rw [uva2ka_mapped he]
      dsimp only [Bind.bind, Except.bind]
      split
      · exact .refl k
      · rename_i p hp
        have hpage : e.page = p := by
          split at hp
          · exact Option.some.inj hp
          · cases hp
        subst hpage
        have hsame := store_sameList (k := k) (o := va.toNat % PGSIZE)
          (n := min (PGSIZE - va.toNat % PGSIZE) (len - done)) (f := fun i => f (done + i))
          (hs.not_free (Pgdir.mem_owned he hlt))
        refine (ih _ _ (fun hlt' => ?_) (hsame.sound hs)).mono fun r hr => hsame.trans hr
        have hsz := h.size
        rw [BitVec.toNat_ofNat, Nat.mod_eq_of_lt (by unfold KERNBASE PGSIZE at *; omega)]
        unfold PGSIZE at *
        omega

/-- Copying to the devices fails at once. -/
theorem copyout_devices {f : Nat → BitVec 8} {len : Nat} {va : BitVec 32} (h : Image d sz) (hlen : 0 < len)
    (hva : DEVSPACE ≤ va.toNat) : copyout cur d va f len k = .ok (false, k) := by
  obtain ⟨len, rfl⟩ := Nat.exists_eq_succ_of_ne_zero hlen.ne'
  obtain ⟨e, he, huser⟩ := h.devices (va.toNat / PGSIZE) (Nat.div_le_div_right hva)
    (Nat.div_lt_of_lt_mul (va.isLt.trans_eq (by decide)))
  unfold copyout copyoutLoop
  rw [if_neg (by omega), uva2ka_mapped he, huser]
  rfl

/-- An argument that does not take the stack pointer past the devices. -/
def Arg.Short (a : Arg) : Prop := a.len + 4 ≤ 2 ^ 32 - DEVSPACE

instance (a : Arg) : Decidable a.Short := inferInstanceAs (Decidable (_ ≤ _))

/-- The stack pointer `n` bytes further down: below where it was, or around at the devices. -/
theorem pushed (sp : BitVec 32) {n : Nat} (hn : n + 3 ≤ 2 ^ 32 - DEVSPACE) :
    (sp - BitVec.ofNat 32 n).toNat + n = sp.toNat ∨ DEVSPACE + 3 ≤ (sp - BitVec.ofNat 32 n).toNat := by
  have hsp := sp.isLt
  rw [BitVec.toNat_sub, BitVec.toNat_ofNat]
  unfold DEVSPACE at *
  omega

theorem toNat_align (x : BitVec 32) : (x &&& ~~~3#32).toNat = x.toNat / 4 * 4 := by
  have hshift : x &&& ~~~3#32 = (x >>> 2) <<< 2 := by
    ext i hi
    interval_cases i <;> simp
  have hx := x.isLt
  rw [hshift, BitVec.toNat_shiftLeft, BitVec.toNat_ushiftRight, Nat.shiftLeft_eq, Nat.shiftRight_eq_div_pow]
  omega

theorem pushArgs_ends (args : List Arg) (sp : BitVec 32) (ptrs : List (BitVec 32)) (h : Image d sz)
    (hsp : sp.toNat ≤ sz) (hptrs : ptrs.length ≤ MAXARG) (hargs : ∀ a ∈ args, a.Short) (hs : Sound L k d.owned) :
    Ends (fun _ => False) (pushArgs cur d args sp ptrs k) fun r =>
      SameList k r.2 ∧ ∀ x, r.1 = some x → x.1.toNat ≤ sz ∧ x.2.length ≤ MAXARG := by
  induction args generalizing k sp ptrs with
  | nil =>
    refine ⟨.refl k, ?_⟩
    rintro _ ⟨⟩
    exact ⟨hsp, hptrs⟩
  | cons a as ih =>
    unfold pushArgs
    split
    · exact ⟨.refl k, nofun⟩
    · rename_i hmax
      have hshort : a.len + 4 ≤ 2 ^ 32 - DEVSPACE := hargs a (List.mem_cons_self ..)
      have halign := toNat_align (sp - BitVec.ofNat 32 (a.len + 1))
      have hpush : ((sp - BitVec.ofNat 32 (a.len + 1)) &&& ~~~3#32).toNat + (a.len + 1) ≤ sp.toNat ∨
          DEVSPACE ≤ ((sp - BitVec.ofNat 32 (a.len + 1)) &&& ~~~3#32).toNat := by
        have := pushed sp (n := a.len + 1) (by omega)
        omega
      dsimp only
      obtain hlow | hdev := hpush
      · refine (copyoutLoop_ends _ 0 _ h (fun _ => by omega) hs).bind fun ⟨ok, k₁⟩ hsame => ?_
        have hsame' : SameList k k₁ := hsame
        cases ok with
        | false => exact ⟨hsame', nofun⟩
        | true =>
          refine (ih _ _ (by omega) (by simp; omega) (fun b hb => hargs b (List.mem_cons_of_mem _ hb))
            (hsame'.sound hs)).mono fun r hr => ⟨hsame'.trans hr.1, hr.2⟩
      · rw [copyout_devices h (Nat.succ_pos _) hdev]
        exact ⟨.refl k, nofun⟩

theorem pushStack_ends (args : List Arg) (sp : BitVec 32) (h : Image d sz) (hsp : sp.toNat ≤ sz)
    (hargs : ∀ a ∈ args, a.Short) (hs : Sound L k d.owned) :
    Ends (fun _ => False) (pushStack cur d args sp k) fun r => SameList k r.2 := by
  unfold pushStack
  refine (pushArgs_ends args sp [] h hsp (Nat.zero_le _) hargs hs).bind fun ⟨x, k₁⟩ hr => ?_
  obtain ⟨hsame, hx⟩ := hr
  have hsame' : SameList k k₁ := hsame
  cases x with
  | none => exact hsame'
  | some x =>
    obtain ⟨sp', ptrs⟩ := x
    obtain ⟨hsp', hptrs⟩ := hx _ rfl
    dsimp only at hsp' hptrs ⊢
    have hlen : (3 + ptrs.length + 1) * 4 + 3 ≤ 2 ^ 32 - DEVSPACE := by
      unfold MAXARG DEVSPACE at *
      omega
    obtain hlow | hdev := pushed sp' hlen
    · exact (copyoutLoop_ends _ 0 _ h (fun _ => by omega) (hsame'.sound hs)).mono fun r hr => hsame'.trans hr
    · rw [copyout_devices h (by omega) (by omega)]
      exact hsame'

/-! ## exec -/

theorem clearpteu_ends (h : Image d sz) (hv : v < pagesUp sz) :
    Ends (fun _ => False) (clearpteu d v) fun d' => d'.owned = d.owned ∧ Image d' sz ∧
      ∀ i, (d'.pde i).isSome = (d.pde i).isSome := by
  obtain ⟨e, he, hlt⟩ := h.some hv
  obtain ⟨t, ht, hte⟩ := Pgdir.table_of_get he
  have hNP : KERNBASE / PGSIZE ≤ NPAGES := by decide
  have hdev : KERNBASE / PGSIZE ≤ DEVSPACE / PGSIZE := by decide
  unfold clearpteu
  rw [if_pos (by rw [ht]; rfl), he]
  refine ⟨?_, ⟨fun u hu => ?_, fun u hu hlt' => ?_, h.size⟩, fun i => Pgdir.isSome_set i _⟩
  · have hset := Pgdir.owned_set_user (e := some { e with user := false }) ht (Pgdir.isUser_of_lt hlt)
    rw [hte] at hset
    exact add_right_cancel hset
  · rw [← h.mapped u hu, Pgdir.get_set (by omega) (by omega) ht]
    split
    · rename_i huv
      rw [huv, he]
      rfl
    · rfl
  · rw [Pgdir.get_set hlt' (by omega) ht, if_neg (by omega)]
    exact h.devices u hu hlt'

theorem pagesUp_mul (n : Nat) : pagesUp (n * PGSIZE) = n := by
  unfold pagesUp PGSIZE
  omega

theorem pagesUp_roundup (n : Nat) : pagesUp (PGROUNDUP n) = pagesUp n := by
  exact pagesUp_mul _

theorem fillImage_ends {prog : Program} {args : List Arg} (h : Image d 0) (hargs : ∀ a ∈ args, a.Short)
    (hs : Sound L k d.owned) : Ends (fun _ => False) (fillImage L cur prog args k d) (Loaded k d) := by
  unfold fillImage
  refine (loadSegs_ends prog.segs h hs).bind fun ⟨x, d₁, k₁⟩ hr => ?_
  obtain ⟨hpages, himg⟩ := hr
  have hpages₁ : k₁.free + d₁.owned = k.free + d.owned := hpages
  cases x with
  | none => exact ⟨hpages₁, nofun⟩
  | some sz =>
    have himg₁ : Image d₁ sz := himg sz rfl
    have hs₁ := hs.of_eq hpages₁
    have hup := pagesUp_roundup sz
    refine (allocuvm_ends hs₁ fun u hu hlt => himg₁.none (hup ▸ hu) hlt).bind fun ⟨sz₂, d₂, k₂⟩ hr₂ => ?_
    have hpages₂ : k₂.free + d₂.owned = k.free + d.owned := hr₂.pages.trans hpages₁
    dsimp only
    split
    · exact ⟨hpages₂, nofun⟩
    · rename_i hne
      obtain ⟨hsize, hnew⟩ := hr₂.size hne
      have hround : Image d₁ (PGROUNDUP sz) := by
        refine ⟨fun u hu => ?_, himg₁.devices, by omega⟩
        rw [hup]
        exact himg₁.mapped u hu
      have himg₂ : Image d₂ sz₂ := hround.grown hr₂ hne
      have hsz₂ : sz₂ = (pagesUp sz + 2) * PGSIZE := by
        have hmax : sz₂ = max (PGROUNDUP sz) (PGROUNDUP sz + 2 * PGSIZE) := hsize
        rw [hmax, max_eq_right (Nat.le_add_right ..), Nat.add_mul]
        rfl
      have hguard : sz₂ / PGSIZE - 2 < pagesUp sz₂ := by
        rw [hsz₂, pagesUp_mul, Nat.mul_div_cancel _ (by decide)]
        omega
      refine (clearpteu_ends himg₂ hguard).bind fun d₃ hd₃ => ?_
      obtain ⟨howned, himg₃, -⟩ := hd₃
      have hpages₃ : k₂.free + d₃.owned = k.free + d.owned := by rw [howned, hpages₂]
      have hsp : (BitVec.ofNat 32 sz₂).toNat ≤ sz₂ := by
        rw [BitVec.toNat_ofNat]
        exact Nat.mod_le ..
      refine (pushStack_ends args _ himg₃ hsp hargs (hs.of_eq hpages₃)).bind fun ⟨ok, k₃⟩ hsame => ?_
      have hsame' : SameList k₂ k₃ := hsame
      refine ⟨by dsimp only; rw [hsame'.free]; exact hpages₃, fun sz' hsz' => ?_⟩
      cases ok with
      | false => cases hsz'
      | true =>
        cases hsz'
        exact himg₃

/-- Nothing is mapped above the size. -/
structure Space.Sized (s : Space) : Prop where
  size : s.sz.toNat < KERNBASE
  above : ∀ u, pagesUp s.sz.toNat ≤ u → u < KERNBASE / PGSIZE → s.pgdir.get u = none

theorem toNat_size {sz : Nat} (h : sz < KERNBASE) : (BitVec.ofNat 32 sz).toNat = sz := by
  rw [BitVec.toNat_ofNat, Nat.mod_eq_of_lt (by unfold KERNBASE at h; omega)]

theorem exec_ends {s : Space} {prog : Program} {args : List Arg} (hsz : s.Sized) (hargs : ∀ a ∈ args, a.Short)
    (hs : Sound L k s.pgdir.owned) :
    Ends (fun _ => False) (s.exec L k prog args) fun r =>
      r.2.2.free + r.2.1.pgdir.owned = k.free + s.pgdir.owned ∧ r.2.1.Sized := by
  unfold Space.exec
  split
  · exact ⟨rfl, hsz⟩
  · refine (setupkvm_ends (hs.mono (Multiset.zero_le _))).bind fun ⟨x, k₁⟩ hr => ?_
    obtain ⟨hpages, hfresh, -⟩ := hr
    cases x with
    | none =>
      have hfree : k₁.free = k.free := (add_zero _).symm.trans hpages
      exact ⟨by dsimp only; rw [hfree], hsz⟩
    | some d =>
      have hpages₁ : k₁.free + d.owned = k.free := hpages
      have hs₁ : Sound L k₁ (d.owned + s.pgdir.owned) := hs.of_eq (by rw [← hpages₁, add_assoc])
      refine (fillImage_ends (.of_fresh (hfresh d rfl)) hargs (hs₁.mono (Multiset.le_add_right ..))).bind
        fun ⟨x₂, d₂, k₂⟩ hr₂ => ?_
      obtain ⟨hpages₂, himg⟩ := hr₂
      have hpages₃ : k₂.free + d₂.owned = k.free := hpages₂.trans hpages₁
      have hs₂ : Sound L k₂ (d₂.owned + s.pgdir.owned) := hs.of_eq (by rw [← hpages₃, add_assoc])
      cases x₂ with
      | none =>
        refine (freevm_ends (hs₂.mono (Multiset.le_add_right ..))).bind fun k₃ hk₃ => ?_
        exact ⟨by dsimp only; rw [hk₃, hpages₃], hsz⟩
      | some sz =>
        refine (freevm_ends (hs₂.mono (Multiset.le_add_left ..))).bind fun k₃ hk₃ => ?_
        have himg' : Image d₂ sz := himg sz rfl
        have hto := toNat_size himg'.size
        refine ⟨?_, by dsimp only; rw [hto]; exact himg'.size, ?_⟩
        · dsimp only
          rw [hk₃, ← hpages₃]
          abel
        · dsimp only
          rw [hto]
          exact fun u hu hlt => himg'.none hu hlt

/-! ## growproc -/

theorem growproc_ends {s : Space} {n : BitVec 32} (hsz : s.Sized) (hs : Sound L k s.pgdir.owned) :
    Ends (fun _ => False) (growproc L k s n) fun r =>
      r.2.2.free + r.2.1.pgdir.owned = k.free + s.pgdir.owned ∧ r.2.1.Sized := by
  have hlt := hsz.size
  have hNP : KERNBASE / PGSIZE ≤ NPAGES := by decide
  unfold growproc
  split
  · refine (allocuvm_ends hs hsz.above).bind fun ⟨sz, d, k'⟩ hr => ?_
    dsimp only
    split
    · rename_i hzero
      refine ⟨hr.pages, hlt, fun u hu hu' => ?_⟩
      exact (hr.failed hzero u (by omega)).trans (hsz.above u hu hu')
    · rename_i hne
      obtain ⟨hsize, hnew⟩ := hr.size hne
      dsimp only at hsize
      have hto : (BitVec.ofNat 32 sz).toNat = sz := toNat_size (by omega)
      refine ⟨hr.pages, by dsimp only; omega, fun u hu hu' => ?_⟩
      dsimp only at hu ⊢
      rw [hto, hsize] at hu
      have h1 := (pagesUp_mono (Nat.le_max_left s.sz.toNat (s.sz + n).toNat)).trans hu
      have h2 := (pagesUp_mono (Nat.le_max_right s.sz.toNat (s.sz + n).toNat)).trans hu
      exact (hr.outside u (by omega) (by omega)).trans (hsz.above u h1 hu')
  · split
    · refine ((deallocuvm_ends hlt.le).weaken fun _ ⟨p, hp, hbad⟩ => hbad (hs.held hp)).bind fun ⟨sz, d, k'⟩ hr => ?_
      obtain ⟨hsize, hr⟩ := hr
      have hget : ∀ u, u < KERNBASE / PGSIZE → min (pagesUp s.sz.toNat) (pagesUp (s.sz + n).toNat) ≤ u →
          d.get u = none := by
        intro u hu hle
        refine (hr.get u (by omega)).trans ?_
        split
        · rfl
        · exact hsz.above u (by omega) hu
      dsimp only at hsize ⊢
      split
      · exact ⟨hr.pages, hlt, fun u hu hu' => hget u hu' (by dsimp only at hu; omega)⟩
      · have hto : (BitVec.ofNat 32 sz).toNat = sz := toNat_size (by omega)
        refine ⟨hr.pages, by dsimp only; omega, fun u hu hu' => hget u hu' ?_⟩
        dsimp only at hu
        rw [hto, hsize] at hu
        obtain hle | hle := le_total s.sz.toNat (s.sz + n).toNat
        · rw [min_eq_left hle] at hu
          omega
        · rw [min_eq_right hle] at hu
          omega
    · exact ⟨rfl, hsz⟩

end Xv6
