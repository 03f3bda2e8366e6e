import Xv6.Vm.Pages
/-!
# Growing and shrinking a process

`growproc` takes the size that `allocuvm` or `deallocuvm` returns, and takes 0
for a failure. It is exact and leaves nothing behind when it fails, except in
the two cases where that reading goes wrong: shrinking to 0, which it reports
as a failure although the pages are gone, and shrinking below 0, where the
sum wraps around and `deallocuvm` keeps the old size.
-/

namespace Xv6

open Outcome

variable {L : Layout} {k : Kmem} {d : Pgdir} {s : Space}

/-! ## allocuvm -/

/-- Pages were mapped from `v` up to `last`, and nothing else changed. -/
structure Grown (k : Kmem) (d : Pgdir) (v last : Nat) (r : Pgdir × Kmem) : Prop where
  inside : ∀ u, v ≤ u → u < last → (r.1.get u).isSome
  outside : ∀ u, u < NPAGES → ¬(v ≤ u ∧ u < last) → r.1.get u = d.get u
  pages : r.2.free + r.1.owned = k.free + d.owned
  content : ∀ q, q ∉ k.free → r.2.content q = k.content q

/-- The pages from `v` up to `last` are unmapped, as they were before the growth began. -/
structure Undone (k : Kmem) (d : Pgdir) (v last : Nat) (r : Pgdir × Kmem) : Prop where
  get : ∀ u, u < NPAGES → r.1.get u = if v ≤ u ∧ u < last then none else d.get u
  pages : r.2.free + r.1.owned = k.free + d.owned
  content : ∀ q, q ∉ k.free → (∀ u e, v ≤ u → u < last → d.get u = some e → e.page ≠ q) →
    r.2.content q = k.content q

/-- The two outcomes of growing to `newsz`, from page `v` on. -/
def Grows (k : Kmem) (d : Pgdir) (oldsz newsz v : Nat) (r : Nat × Pgdir × Kmem) : Prop :=
  r.1 = newsz ∧ Grown k d v (pagesUp newsz) r.2 ∨ r.1 = 0 ∧ Undone k d (pagesUp oldsz) (pagesUp newsz) r.2

/-- The pages are all of memory that `kfree` takes back. -/
def AllValid (L : Layout) (k : Kmem) (d : Pgdir) : Prop := ∀ p ∈ k.free + d.owned, L.Valid p

theorem allocLoop_ends (oldsz newsz n v : Nat) (hnew : newsz ≤ KERNBASE) (hv : v + n = pagesUp newsz)
    (hold : pagesUp oldsz ≤ v) (hnone : ∀ u, v ≤ u → u < pagesUp newsz → d.get u = none) (hval : AllValid L k d) :
    Ends (fun _ => False) (allocLoop L oldsz newsz n k d v) (Grows k d oldsz newsz v) := by
  induction n generalizing k d v with
  | zero =>
    refine .inl ⟨rfl, fun u hu hlt => ?_, fun _ _ _ => rfl, rfl, fun _ _ => rfl⟩
    omega
  | succ n ih =>
    have hlast := pagesUp_le hnew
    have howned : ∀ p ∈ d.owned, L.Valid p := fun p hp => hval p (Multiset.mem_add.2 (.inr hp))
    unfold allocLoop
    split
    · rename_i k' hk
      obtain ⟨hfree, hcont⟩ := Kmem.kalloc_none hk
      refine ((deallocuvm_ends hnew).weaken fun _ ⟨p, hp, hbad⟩ => hbad (howned p hp)).bind fun r hr => ?_
      refine .inr ⟨rfl, hr.2.get, by rw [hr.2.pages, hfree], fun q _ hq => ?_⟩
      rw [hr.2.content q hq, hcont]
    · rename_i p k' hk
      obtain ⟨hfree, hcont⟩ := Kmem.kalloc_some hk
      have hp : p ∈ k.free := by
        rw [hfree]
        exact Multiset.mem_cons_self ..
      -- what is not on the free list is not touched up to here
      have hkeep : ∀ q, q ∉ k.free → q ∉ k'.free ∧ (k'.memset p 0).content q = k.content q := by
        intro q hq
        rw [hfree, Multiset.mem_cons, not_or] at hq
        exact ⟨hq.2, (Function.update_of_ne hq.1 ..).trans (by rw [hcont])⟩
      refine ((mappages_one _ (by omega)).weaken fun _ hbad => hbad (hnone v le_rfl (by omega))).bind fun r hr => ?_
      obtain ⟨ok, d₂, k₂⟩ := r
      obtain ⟨hle, hcont₂, hr⟩ := hr
      cases ok with
      | false =>
        obtain ⟨hget₂, howned₂, hfree₂⟩ := hr
        dsimp only at hget₂ howned₂ hfree₂ hcont₂
        refine ((deallocuvm_ends hnew).weaken fun _ ⟨p, hp, hbad⟩ => hbad (howned p (howned₂ ▸ hp))).bind fun r hr => ?_
        refine ((Kmem.kfree_ends p).weaken fun _ hbad => hbad (hval p (Multiset.mem_add.2 (.inl hp)))).bind fun k₄ hk₄ => ?_
        refine .inr ⟨rfl, fun u hu => ?_, ?_, fun q hq hrange => ?_⟩
        · rw [hr.2.get u hu, hget₂]
        · rw [hk₄.1, Multiset.cons_add, hr.2.pages, hfree₂, howned₂, hfree, Multiset.cons_add]
          rfl
        · have hqp : q ≠ p := fun h => hq (h ▸ hp)
          rw [hk₄.2 q hqp, hr.2.content q fun u e hu hlt => by rw [hget₂]; exact hrange u e hu hlt,
            hcont₂ q (hkeep q hq).1, (hkeep q hq).2]
      | true =>
        obtain ⟨hget₂, hpages₂⟩ := hr
        dsimp only at hget₂ hpages₂ hcont₂ hle
        have hpages : k₂.free + d₂.owned = k.free + d.owned := by
          rw [hpages₂, hfree, Multiset.cons_add]
          rfl
        have hcont₃ : ∀ q, q ∉ k.free → q ∉ k₂.free ∧ k₂.content q = k.content q := by
          intro q hq
          obtain ⟨hq', hc⟩ := hkeep q hq
          exact ⟨fun hmem => hq' (Multiset.mem_of_le hle hmem), by rw [hcont₂ q hq', hc]⟩
        have hother : ∀ u, u < NPAGES → u ≠ v → d₂.get u = d.get u := by
          intro u hu huv
          rw [hget₂ u hu, if_neg huv]
        have hNP : KERNBASE / PGSIZE ≤ NPAGES := by decide
        refine (ih (v + 1) (by omega) (by omega) (fun u hu hlt => ?_) fun p hp => hval p (hpages ▸ hp)).mono
          fun r hr => ?_
        · rw [hother u (by omega) (by omega)]
          exact hnone u (by omega) hlt
        · obtain ⟨hr1, hg⟩ | ⟨hr1, hg⟩ := hr
          · refine .inl ⟨hr1, fun u hu hlt => ?_, fun u hu hout => ?_, by rw [hg.pages, hpages], fun q hq => ?_⟩
            · by_cases huv : u = v
              · rw [huv, hg.outside v (by omega) (by omega), hget₂ v (by omega), if_pos rfl]
                rfl
              · exact hg.inside u (by omega) hlt
            · rw [hg.outside u hu (by omega), hother u hu (by omega)]
            · rw [hg.content q (hcont₃ q hq).1, (hcont₃ q hq).2]
          · refine .inr ⟨hr1, fun u hu => ?_, by rw [hg.pages, hpages], fun q hq hrange => ?_⟩
            · rw [hg.get u hu]
              by_cases huv : u = v
              · rw [if_pos (by omega), if_pos (by omega)]
              · rw [hother u hu huv]
            · rw [hg.content q (hcont₃ q hq).1 fun u e hu hlt he => ?_, (hcont₃ q hq).2]
              by_cases huv : u = v
              · rw [huv, hget₂ v (by omega), if_pos rfl] at he
                cases he
                exact fun h => hq (h ▸ hp)
              · rw [hother u (by omega) huv] at he
                exact hrange u e hu hlt he

/-! ## growproc -/

instance : NeZero PGSIZE := ⟨by decide⟩

/-- The byte at a user address, if its page is mapped. -/
def Space.byte (k : Kmem) (s : Space) (a : Nat) : Option (BitVec 8) :=
  (s.pgdir.get (a / PGSIZE)).map fun e => k.content e.page (Fin.ofNat PGSIZE a)

/-- User pages are mapped exactly below `PGROUNDUP(size)`. -/
def Space.MapsExactly (s : Space) (size : Nat) : Prop :=
  ∀ u, u < KERNBASE / PGSIZE → ((s.pgdir.get u).isSome ↔ u < pagesUp size)

/-- A process as it is between system calls: its size is one that `allocuvm` grants, its
pages are mapped up to it, and no page is in two places. -/
structure Space.WellMapped (L : Layout) (k : Kmem) (s : Space) : Prop where
  size : s.sz.toNat < KERNBASE
  mapped : s.MapsExactly s.sz.toNat
  nodup : (k.free + s.pgdir.owned).Nodup
  valid : AllValid L k s.pgdir

/-- `growproc` has grown the process by exactly `n` bytes, or has failed and changed nothing. -/
def GrowsExactly (k : Kmem) (s : Space) (n : Int) (r : Int × Space × Kmem) : Prop :=
  (r.1 = 0 ∧ 0 ≤ s.sz.toNat + n ∧ s.sz.toNat + n < KERNBASE ∧ (r.2.1.sz.toNat : Int) = s.sz.toNat + n ∧
      r.2.1.MapsExactly r.2.1.sz.toNat ∧
      ∀ a, a < s.sz.toNat → a < r.2.1.sz.toNat → r.2.1.byte r.2.2 a = s.byte k a) ∨
    (r.1 = -1 ∧ r.2.1.sz = s.sz ∧ (∀ u, u < KERNBASE / PGSIZE → r.2.1.pgdir.get u = s.pgdir.get u) ∧
      ∀ a, a < KERNBASE → r.2.1.byte r.2.2 a = s.byte k a)

theorem lt_pagesUp {a n : Nat} (h : a < n) : a / PGSIZE < pagesUp n := by
  unfold pagesUp PGSIZE
  omega

namespace Space.WellMapped

variable {n : BitVec 32}

/-- The pages of a process are not on the free list. -/
theorem not_free (h : s.WellMapped L k) {u : Nat} {e : Pte} (he : s.pgdir.get u = some e) (hu : u < KERNBASE / PGSIZE) :
    e.page ∉ k.free := by
  intro hfree
  exact Multiset.disjoint_left.1 (Multiset.nodup_add.1 h.nodup).2.2 hfree (Pgdir.mem_owned he hu)

theorem unmapped (h : s.WellMapped L k) {u : Nat} (hu : u < KERNBASE / PGSIZE) (hle : pagesUp s.sz.toNat ≤ u) :
    s.pgdir.get u = none := by
  have := h.mapped u hu
  rw [← Option.not_isSome_iff_eq_none, this]
  omega

/-- The bytes on pages that stay mapped and unwritten. -/
theorem byte_eq {d : Pgdir} {k' : Kmem} {sz : BitVec 32} {a : Nat}
    (hget : d.get (a / PGSIZE) = s.pgdir.get (a / PGSIZE))
    (hcont : ∀ e, s.pgdir.get (a / PGSIZE) = some e → k'.content e.page = k.content e.page) :
    Space.byte k' ⟨d, sz⟩ a = s.byte k a := by
  unfold Space.byte
  dsimp only
  rw [hget]
  cases he : s.pgdir.get (a / PGSIZE) with
  | none => rfl
  | some e => simp only [Option.map_some, hcont e he]

theorem kept_page (h : s.WellMapped L k) {d : Pgdir} {k' : Kmem} (hcont : ∀ q, q ∉ k.free → k'.content q = k.content q)
    {a : Nat} (ha : a < KERNBASE) (hget : d.get (a / PGSIZE) = s.pgdir.get (a / PGSIZE)) {sz : BitVec 32} :
    Space.byte k' ⟨d, sz⟩ a = s.byte k a := by
  refine byte_eq hget fun e he => hcont e.page (h.not_free he ?_)
  unfold KERNBASE PGSIZE at *
  omega

theorem grow_exact (h : s.WellMapped L k) (hn : 0 < n.toInt) :
    Ends (fun _ => False) (growproc L k s n) (GrowsExactly k s n.toInt) := by
  have hsz := h.size
  have hK : KERNBASE = 2147483648 := rfl
  have hNP : KERNBASE / PGSIZE ≤ NPAGES := by decide
  have hnat : n.toInt = n.toNat ∧ n.toNat < 2 ^ 31 := by
    have hcond := BitVec.toInt_eq_toNat_cond n
    have := n.isLt
    split at hcond <;> omega
  have hadd : (s.sz + n).toNat = s.sz.toNat + n.toNat := by
    rw [BitVec.toNat_add, Nat.mod_eq_of_lt (by omega)]
  unfold growproc
  rw [if_pos hn, hadd]
  unfold allocuvm
  split
  · exact .inr ⟨rfl, rfl, fun _ _ => rfl, fun _ _ => rfl⟩
  · rename_i hlow
    rw [if_neg (by omega)]
    have hup : pagesUp s.sz.toNat ≤ pagesUp (s.sz.toNat + n.toNat) := pagesUp_mono (by omega)
    have hle := pagesUp_le (n := s.sz.toNat + n.toNat) (by omega)
    refine (allocLoop_ends _ _ _ _ (by omega) (by omega) le_rfl (fun u hu hlt => ?_) h.valid).bind fun r hr => ?_
    · exact h.unmapped (by omega) hu
    · obtain ⟨sz, d, k'⟩ := r
      obtain ⟨hr1, hg⟩ | ⟨hr1, hg⟩ := hr <;> dsimp only at hr1 hg ⊢ <;> subst hr1
      · rw [if_neg (by omega)]
        have hto : (BitVec.ofNat 32 (s.sz.toNat + n.toNat)).toNat = s.sz.toNat + n.toNat := by
          rw [BitVec.toNat_ofNat, Nat.mod_eq_of_lt (by omega)]
        refine .inl ⟨rfl, by omega, by omega, by dsimp only; omega, fun u hu => ?_, fun a ha ha' => ?_⟩
        · dsimp only
          rw [hto]
          by_cases hin : pagesUp s.sz.toNat ≤ u ∧ u < pagesUp (s.sz.toNat + n.toNat)
          · simp only [hg.inside u hin.1 hin.2, hin.2]
          · rw [hg.outside u (by omega) hin, h.mapped u hu]
            omega
        · have hlt := lt_pagesUp ha
          exact h.kept_page hg.content (by omega) (hg.outside _ (by omega) (by omega))
      · rw [if_pos rfl]
        have hsame : ∀ u, u < KERNBASE / PGSIZE → d.get u = s.pgdir.get u := by
          intro u hu
          rw [hg.get u (by omega)]
          split
          · rw [h.unmapped hu (by omega)]
          · rfl
        refine .inr ⟨rfl, rfl, hsame, fun a ha => ?_⟩
        refine h.kept_page (fun q hq => hg.content q hq fun u e hu hlt he => ?_) ha (hsame _ ?_)
        · rw [h.unmapped (by omega) hu] at he
          cases he
        · unfold PGSIZE
          omega

theorem shrink_exact (h : s.WellMapped L k) (hn : n.toInt < 0) (hpos : 0 < s.sz.toNat + n.toInt) :
    Ends (fun _ => False) (growproc L k s n) (GrowsExactly k s n.toInt) := by
  have hsz := h.size
  have hK : KERNBASE = 2147483648 := rfl
  have hNP : KERNBASE / PGSIZE ≤ NPAGES := by decide
  have hadd : ((s.sz + n).toNat : Int) = s.sz.toNat + n.toInt := by
    have hcond := BitVec.toInt_eq_toNat_cond n
    have := n.isLt
    rw [BitVec.toNat_add]
    split at hcond <;> omega
  unfold growproc
  rw [if_neg (by omega), if_pos hn]
  refine ((deallocuvm_ends hsz.le).weaken fun _ ⟨p, hp, hbad⟩ => hbad (h.valid p (Multiset.mem_add.2 (.inr hp)))).bind
    fun r hr => ?_
  obtain ⟨sz, d, k'⟩ := r
  obtain ⟨hr1, hr⟩ := hr
  dsimp only at hr1 hr
  rw [Nat.min_eq_right (by omega)] at hr1
  subst hr1
  have hto : BitVec.ofNat 32 (s.sz + n).toNat = s.sz + n := by
    rw [BitVec.ofNat_toNat, BitVec.setWidth_eq]
  have hup : pagesUp (s.sz + n).toNat ≤ pagesUp s.sz.toNat := pagesUp_mono (by omega)
  dsimp only
  rw [if_neg (by omega), hto]
  refine .inl ⟨rfl, by omega, by omega, hadd, fun u hu => ?_, fun a ha ha' => ?_⟩
  · dsimp only
    rw [hr.get u (by omega)]
    have := h.mapped u hu
    split
    · simp only [Option.isSome_none, Bool.false_eq_true, false_iff]
      omega
    · rw [this]
      omega
  · have hlt := lt_pagesUp ha'
    have hle := pagesUp_le hsz.le
    dsimp only at hlt
    refine byte_eq (by rw [hr.get _ (by omega), if_neg (by omega)]) fun e he => hr.content e.page fun u e' hu hlt' he' => ?_
    exact Pgdir.page_ne (Multiset.nodup_add.1 h.nodup).2.1 he he' (by omega) (by omega) (by omega)

/-- Shrinking by all of the memory or more. -/
theorem shrink_inexact (h : s.WellMapped L k) (hpos : 0 < s.sz.toNat) (hn : s.sz.toNat + n.toInt ≤ 0) :
    ¬ Ends (fun _ => False) (growproc L k s n) (GrowsExactly k s n.toInt) := by
  have hsz := h.size
  have hK : KERNBASE = 2147483648 := rfl
  have hcond := BitVec.toInt_eq_toNat_cond n
  have hlt := n.isLt
  have hneg : n.toInt < 0 := by omega
  have hnat : n.toNat = 2 ^ 32 + n.toInt := by
    split at hcond <;> omega
  unfold growproc
  rw [if_neg (by omega), if_pos hneg]
  by_cases hzero : s.sz.toNat + n.toInt = 0
  · -- the pages are freed, and the new size 0 is taken for a failure
    have hadd : (s.sz + n).toNat = 0 := by
      rw [BitVec.toNat_add]
      omega
    rw [hadd]
    intro hends
    have hdealloc : Ends _ (deallocuvm L k s.pgdir s.sz.toNat 0) _ := deallocuvm_ends hsz.le
    cases hd : deallocuvm L k s.pgdir s.sz.toNat 0 with
    | error e =>
      rw [hd] at hends
      exact hends
    | ok r =>
      rw [hd] at hends hdealloc
      obtain ⟨sz, d, k'⟩ := r
      obtain ⟨hr1, hr⟩ := hdealloc
      obtain rfl : sz = 0 := by simpa using hr1
      have hmapped : ∃ u, u < KERNBASE / PGSIZE ∧ u < pagesUp s.sz.toNat := ⟨0, by decide, lt_pagesUp hpos⟩
      obtain ⟨u, hu, hup⟩ := hmapped
      obtain ⟨hret, -⟩ | ⟨-, -, hsame, -⟩ := hends
      · cases hret
      · have hget := hr.get u (hu.trans_le (by decide))
        rw [if_pos ⟨Nat.zero_le _, hup⟩, hsame u hu] at hget
        have := (h.mapped u hu).2 hup
        rw [hget] at this
        cases this
  · -- the sum wraps around, and nothing happens
    have hadd : s.sz.toNat ≤ (s.sz + n).toNat := by
      rw [BitVec.toNat_add]
      omega
    unfold deallocuvm
    rw [if_pos hadd]
    intro hends
    change Ends _ (if s.sz.toNat = 0 then _ else _) _ at hends
    rw [if_neg (by omega)] at hends
    obtain ⟨-, hge, -⟩ | ⟨hret, -⟩ := hends
    · omega
    · cases hret

end Space.WellMapped

/-- A process with one page of memory, for fixed inputs. -/
def onePage : Space where
  pgdir := Pgdir.set ⟨1000, Function.update (fun _ => none) (PDX 0) (some ⟨1001, fun _ => none⟩)⟩ 0
    (some ⟨1002, true, true⟩)
  sz := BitVec.ofNat 32 PGSIZE

def twoFree : Kmem := ⟨[1003, 1004], fun _ _ => 0, []⟩

def someLayout : Layout := ⟨264, 300, by decide, by decide, by decide⟩

theorem onePage_table : Function.update (fun _ => none) (PDX 0) (some (⟨1001, fun _ => none⟩ : PageTable)) (PDX 0) =
    some ⟨1001, fun _ => none⟩ := Function.update_self ..

theorem onePage_owned : onePage.pgdir.owned = {1001, 1000, 1002} := by
  have h := Pgdir.owned_set_user (d := ⟨1000, Function.update (fun _ => none) (PDX 0) (some ⟨1001, fun _ => none⟩)⟩)
    (e := some ⟨1002, true, true⟩) onePage_table (Pgdir.isUser_of_lt (v := 0) (by decide))
  have h' := Pgdir.owned_table (d := ⟨1000, fun _ => none⟩) (v := 0) 1001 rfl
  rw [Pgdir.owned_empty] at h'
  dsimp only at h'
  rw [h'] at h
  simpa [Pgdir.pageOf, onePage] using h

theorem onePage_wellMapped : onePage.WellMapped someLayout twoFree := by
  have hnone : ∀ u, Pgdir.get ⟨1000, Function.update (fun _ => none) (PDX 0) (some ⟨1001, fun _ => none⟩)⟩ u = none := by
    intro u
    dsimp only [Pgdir.get]
    by_cases hu : PDX u = PDX 0
    · rw [hu, Function.update_self]
      rfl
    · rw [Function.update_of_ne hu]
      rfl
  refine ⟨by decide, fun u hu => ?_, ?_, fun p hp => ?_⟩
  · have hup : pagesUp onePage.sz.toNat = 1 := by decide
    rw [hup, onePage, Pgdir.get_set (hu.trans (by decide)) (by decide) onePage_table, hnone]
    by_cases hz : u = 0
    · simp [hz]
    · simp only [if_neg hz, Option.isSome_none, Bool.false_eq_true, false_iff]
      omega
  · rw [onePage_owned]
    decide
  · rw [onePage_owned] at hp
    have hlist : p ∈ ({1003, 1004, 1001, 1000, 1002} : Multiset Page) := hp
    simp only [Multiset.insert_eq_cons, Multiset.mem_cons, Multiset.mem_singleton] at hlist
    obtain rfl | rfl | rfl | rfl | rfl := hlist <;> exact ⟨by decide, by decide⟩

/-- `sbrk` is exact, and changes nothing if it fails, for every process and every `n` but
those that would take all of the process's memory or more. -/
theorem sbrk_exact (L : Layout) (k : Kmem) (s : Space) (n : BitVec 32) (h : s.WellMapped L k) :
    Ends (fun _ => False) (growproc L k s n) (GrowsExactly k s n.toInt) ↔
      0 ≤ n.toInt ∨ s.sz = 0 ∨ 0 < s.sz.toNat + n.toInt := by
  have hsz := h.size
  constructor
  · intro hends
    by_contra hcon
    push Not at hcon
    obtain ⟨-, hne, hle⟩ := hcon
    refine h.shrink_inexact ?_ hle hends
    by_contra hzero
    exact hne (BitVec.eq_of_toNat_eq (by simpa using hzero))
  · intro hcond
    obtain hlt | heq | hgt := lt_trichotomy n.toInt 0
    · by_cases hpos : 0 < s.sz.toNat + n.toInt
      · exact h.shrink_exact hlt hpos
      · -- a process without memory keeps it that way, and is told so
        have hzero : s.sz = 0 := by
          obtain hc | hc | hc := hcond
          · omega
          · exact hc
          · exact absurd hc hpos
        unfold growproc
        rw [if_neg (by omega), if_pos hlt, deallocuvm, if_pos (by rw [hzero]; exact Nat.zero_le _), hzero]
        exact .inr ⟨rfl, hzero.symm, fun _ _ => rfl, fun _ _ => rfl⟩
    · unfold growproc
      rw [if_neg (by omega), if_neg (by omega)]
      exact .inl ⟨rfl, by omega, by omega, by dsimp only; omega, h.mapped, fun _ _ _ => rfl⟩
    · exact h.grow_exact hgt

theorem onePage_grows :
    Ends (fun _ => False) (growproc someLayout twoFree onePage 5000) (GrowsExactly twoFree onePage 5000) :=
  (sbrk_exact someLayout twoFree onePage 5000 onePage_wellMapped).2 (.inl (by decide))

/-- The whole memory is given back; `growproc` returns -1 and the page is gone. -/
theorem sbrk_to_zero_inexact :
    ¬ ∀ L k s n, Space.WellMapped L k s → Ends (fun _ => False) (growproc L k s n) (GrowsExactly k s n.toInt) := by
  intro h
  exact onePage_wellMapped.shrink_inexact (n := -BitVec.ofNat 32 PGSIZE) (by decide) (by decide)
    (h someLayout twoFree onePage _ onePage_wellMapped)

end Xv6
