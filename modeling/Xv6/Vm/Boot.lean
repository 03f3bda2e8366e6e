import Xv6.Vm.Conserved
/-!
# Pages from boot on

Boot gives every page behind the kernel to `kfree`, and keeps a page directory
and the stacks of the other processors. From then on no call of a process makes
a page disappear or gives it to two owners, as long as no argument of `exec` is
so long that the stack pointer wraps around past the devices.
-/

namespace Xv6

open Outcome

variable {L : Layout} {k : Kmem} {m : Nat} {tail : List Page}

theorem kfree_list (p : Page) : Ends (fun _ => ¬ L.Valid p) (k.kfree L p) fun k' =>
    L.Valid p ∧ k'.freelist = p :: k.freelist ∧ k'.fails = k.fails := by
  unfold Kmem.kfree
  split
  · rename_i hbad
    rintro ⟨hlow, hhigh⟩
    obtain hbad | hbad := hbad
    · exact absurd hlow (Nat.not_le.2 hbad)
    · exact absurd hhigh (Nat.not_lt.2 hbad)
  · rename_i hok
    obtain ⟨hlow, hhigh⟩ := not_or.1 hok
    exact ⟨⟨Nat.le_of_not_lt hlow, Nat.lt_of_not_le hhigh⟩, rfl, rfl⟩

theorem freerange_ends (p : Page) (n : Nat) :
    Ends (fun _ => ∃ q, p ≤ q ∧ q < p + n ∧ ¬ L.Valid q) (freerange L p n k) fun k' =>
      (∀ q, p ≤ q → q < p + n → L.Valid q) ∧ k'.freelist = (List.range' p n).reverse ++ k.freelist ∧
        k'.fails = k.fails := by
  induction n generalizing k p with
  | zero => exact ⟨fun q hle hlt => absurd (hle.trans_lt hlt) (lt_irrefl _), rfl, rfl⟩
  | succ n ih =>
    unfold freerange
    refine ((kfree_list p).weaken fun _ hbad => ⟨p, le_rfl, Nat.lt_add_of_pos_right (Nat.succ_pos n), hbad⟩).bind
      fun k₁ hk₁ => ?_
    obtain ⟨hval, hlist, hfails⟩ := hk₁
    have hrest := (ih (k := k₁) (p + 1)).weaken (E := fun _ => ∃ q, p ≤ q ∧ q < p + (n + 1) ∧ ¬ L.Valid q) (by
      rintro _ ⟨q, hle, hlt, hbad⟩
      exact ⟨q, (Nat.le_succ p).trans hle, by rwa [Nat.add_right_comm] at hlt, hbad⟩)
    refine hrest.mono fun k₂ hk₂ => ?_
    obtain ⟨hvals, hlist₂, hfails₂⟩ := hk₂
    refine ⟨fun q hle hlt => ?_, ?_, hfails₂.trans hfails⟩
    · obtain rfl | hne := eq_or_lt_of_le hle
      · exact hval
      · exact hvals q hne (by rwa [Nat.add_right_comm])
    · rw [hlist₂, hlist, List.range'_succ, List.reverse_cons, List.append_assoc]
      rfl

theorem startothers_ends (n : Nat) :
    Ends (fun _ => ∀ m tail, ¬ k.Rich (m + n) tail) (startothers n k) fun r =>
      r.2.free + (r.1 : Multiset Page) = k.free ∧ ∀ m tail, k.Rich (m + n) tail → r.2.Rich m tail := by
  induction n generalizing k with
  | zero => exact ⟨add_zero _, fun _ _ h => h⟩
  | succ n ih =>
    unfold startothers
    split
    · rename_i hk
      exact fun m tail => Kmem.not_rich hk
    · rename_i p k₁ hk
      have hfree := (Kmem.kalloc_some hk).1
      have hrest := (ih (k := k₁)).weaken (E := fun _ => ∀ m tail, ¬ k.Rich (m + (n + 1)) tail) fun _ hpoor m tail h =>
        hpoor m tail (Kmem.Rich.of_kalloc h hk)
      refine hrest.bind fun ⟨ps, k₂⟩ hr => ?_
      obtain ⟨hpages, hrich⟩ := hr
      have hr' : k₂.free + (ps : Multiset Page) = k₁.free := hpages
      refine ⟨?_, fun m tail h => hrich m tail (Kmem.Rich.of_kalloc h hk)⟩
      change k₂.free + ((p :: ps : List Page) : Multiset Page) = k.free
      rw [← Multiset.cons_coe, Multiset.add_cons, hr', hfree]

theorem mappages_rich {d : Pgdir} {v : Nat} {e : Pte} (hrich : k.Rich (m + 1) tail) :
    Ends (fun _ => True) (mappages k d v e 1) fun r => r.1 = true ∧ r.2.2.Rich m tail := by
  obtain ⟨d', k', hw, hrich'⟩ := walkpgdir_user (d := d) (v := v) hrich
  unfold mappages
  rw [hw]
  dsimp only
  split
  · trivial
  · exact ⟨rfl, hrich'⟩

/-- The first process has its page, since there is memory enough. -/
theorem initSpace_ends {initcode : PageData} (hs : Sound L k 0) (hrich : k.Rich (m + NPDENTRIES / 2 + 3) tail) :
    Ends (fun _ => False) (initSpace L initcode k) fun r =>
      r.2.free + r.1.pgdir.owned = k.free ∧ r.1.Sized ∧ r.2.Rich m tail ∧
        r.1.sz = BitVec.ofNat 32 PGSIZE ∧ ∃ p, r.1.pgdir.get 0 = some ⟨p, true, true⟩ := by
  unfold initSpace
  refine ((setupkvm_ends hs).mapError fun _ h => h.elim).bind fun ⟨x, k₁⟩ hr => ?_
  obtain ⟨hpages, hfresh, hok⟩ := hr
  obtain ⟨⟨d, hd⟩, hrich₁⟩ := hok (m + 2) tail (hrich.mono (by omega))
  obtain rfl : x = some d := hd
  have hpages₁ : k₁.free + d.owned = k.free := hpages
  obtain ⟨p, k₂, hk₂, hrich₂⟩ := hrich₁.kalloc
  have hfree := (Kmem.kalloc_some hk₂).1
  dsimp only
  rw [hk₂]
  dsimp only
  have hmap := (mappages_one (k := k₂.memset p 0) (d := d) (v := 0) ⟨p, true, true⟩ (by decide)).weaken
    fun _ h => h ((hfresh d rfl).user 0 (by decide))
  refine ((hmap.and (mappages_rich hrich₂)).mapError fun _ h => h).bind fun ⟨ok, d₃, k₃⟩ hr => ?_
  obtain ⟨⟨-, -, hr⟩, hok, hrich₃⟩ := hr
  obtain rfl : ok = true := hok
  obtain ⟨hget, hpages₃⟩ := hr
  have hsz : (BitVec.ofNat 32 PGSIZE).toNat < KERNBASE := by decide
  refine ⟨?_, ⟨hsz, fun u hu hlt => ?_⟩, hrich₃, rfl, p, (hget 0 (by decide)).trans (if_pos rfl)⟩
  · change k₃.free + d₃.owned = k.free
    rw [← hpages₁, hfree, Multiset.cons_add]
    exact hpages₃
  · have hup : pagesUp (BitVec.ofNat 32 PGSIZE).toNat = 1 := by decide
    dsimp only at hu ⊢
    rw [hup] at hu
    refine (hget u (hlt.trans_le (by decide))).trans ?_
    rw [if_neg (by omega)]
    exact (hfresh d rfl).user u hlt

namespace Machine

variable {P : Type} [Fintype P] [DecidableEq P]

/-- A machine with one process, without open files. -/
theorem inv_start {o : Multiset Page} {p : P} {x : Mproc P} (hx : x.Tidy) (hclosed : x.ofile.slots = [])
    (hpages : k.free + procPages (some x) + o = L.frames) :
    Inv L o ⟨k, fun q => if q = p then some x else none, ⟨fun _ => ⟨0, .none, false, false, 0⟩, fun _ => none⟩, p⟩ [] := by
  have hproc : processes (⟨k, fun q => if q = p then some x else none,
      ⟨fun _ => ⟨0, .none, false, false, 0⟩, fun _ => none⟩, p⟩ : Machine P) = procPages (some x) := by
    unfold processes
    refine (Finset.sum_eq_single p (fun q _ hq => ?_) fun hne => absurd (Finset.mem_univ p) hne).trans ?_
    · dsimp only
      rw [if_neg hq]
      rfl
    · dsimp only
      rw [if_pos rfl]
  have hslots : slots (⟨k, fun q => if q = p then some x else none,
      ⟨fun _ => ⟨0, .none, false, false, 0⟩, fun _ => none⟩, p⟩ : Machine P) = fun _ => 0 := by
    funext f
    unfold slots
    refine Finset.sum_eq_zero fun q _ => ?_
    dsimp only
    split
    · change x.ofile.slots.count f = 0
      rw [hclosed]
      rfl
    · rfl
  have hlive : (⟨fun _ => ⟨0, .none, false, false, 0⟩, fun _ => none⟩ : Ftable Unit).livePipes = ∅ := by
    refine Finset.eq_empty_of_forall_notMem fun q hq => ?_
    obtain ⟨w, f, hend⟩ := Ftable.mem_livePipes.1 hq
    cases hend.1
  refine ⟨?_, fun q y hq => ?_, ?_⟩
  · rw [used, hproc, hlive, ← hpages]
    change k.free + (procPages (some x) + 0 + o) = _
    rw [add_zero, add_assoc]
  · dsimp only at hq
    split at hq
    · cases hq
      exact hx
    · cases hq
  · rw [hslots]
    refine ⟨fun _ => rfl, fun _ _ => rfl, ?_, fun q w => ⟨?_, ?_⟩, ?_⟩
    · rintro _ _ _ _ ⟨⟨⟩, -⟩
    · rintro ⟨_, ⟨⟩, -⟩
    · rintro ⟨_, ⟨⟩, -⟩
    · rintro _ _ ⟨⟩

end Machine

/-- The pages handed out since boot and never given back. -/
def Taken.pages (o : Taken) : Multiset Page := o.kpgdir.owned + (o.cpuStacks : Multiset Page)

theorem kinit1_ends {content : Page → PageData} :
    Ends (fun _ => False) (freerange L L.first (lowFrames - L.first) ⟨[], content, []⟩) fun k =>
      k.free = (List.range' L.first (lowFrames - L.first) : List Page) ∧ Sound L k 0 ∧
        ∀ j m : Nat, L.first + m + j ≤ lowFrames → k.Rich j (List.range' L.first m).reverse := by
  have htop : lowFrames ≤ PHYSTOP / PGSIZE := by decide
  refine ((freerange_ends L.first (lowFrames - L.first)).weaken ?_).mono fun k hk => ?_
  · rintro _ ⟨q, hle, hlt, hbad⟩
    have hlow : ∀ f q : Nat, f ≤ q → q < f + (lowFrames - f) → q < lowFrames := by omega
    exact hbad ⟨hle, (hlow _ _ hle hlt).trans_le htop⟩
  · obtain ⟨hvals, hlist, hfails⟩ := hk
    have hfree : k.free = (List.range' L.first (lowFrames - L.first) : List Page) := by
      rw [Kmem.free, hlist, List.append_nil]
      exact Multiset.coe_reverse _
    refine ⟨hfree, ⟨?_, fun q hq => ?_⟩, fun j m hm => ?_⟩
    · rw [hfree, add_zero]
      exact List.nodup_range'
    · rw [hfree, add_zero] at hq
      obtain ⟨hle, hlt⟩ := List.mem_range'_1.1 hq
      exact hvals q hle hlt
    · have hroom : ∀ f : Nat, f + m + j ≤ lowFrames → m ≤ lowFrames - f ∧ j ≤ lowFrames - f - m := by
        intro f hf
        exact ⟨by omega, by omega⟩
      obtain ⟨hm, hj⟩ := hroom _ hm
      refine ⟨hfails, (List.range' (L.first + m) (lowFrames - L.first - m)).reverse, ?_, ?_⟩
      · rw [hlist, List.append_nil, ← List.reverse_append, List.range'_append_1, Nat.add_sub_of_le hm]
      · rwa [List.length_reverse, List.length_range']

theorem kinit2_ends :
    Ends (fun _ => lowFrames < L.first) (freerange L lowFrames (PHYSTOP / PGSIZE - lowFrames) k) fun k' =>
      L.first ≤ lowFrames ∧ k'.free = (List.range' lowFrames (PHYSTOP / PGSIZE - lowFrames) : List Page) + k.free ∧
        ∀ l tail, k.freelist = l ++ tail → Kmem.Rich { k' with fails := [] } (PHYSTOP / PGSIZE - lowFrames) tail := by
  have htop : lowFrames + (PHYSTOP / PGSIZE - lowFrames) = PHYSTOP / PGSIZE := by decide
  refine ((freerange_ends lowFrames _).weaken ?_).mono fun k' hk' => ?_
  · rintro _ ⟨q, hle, hlt, hbad⟩
    by_contra hge
    exact hbad ⟨(Nat.le_of_not_lt hge).trans hle, hlt.trans_eq htop⟩
  · obtain ⟨hvals, hlist, -⟩ := hk'
    refine ⟨(hvals lowFrames le_rfl (by decide)).1, ?_, fun l tail hl =>
      ⟨rfl, (List.range' lowFrames (PHYSTOP / PGSIZE - lowFrames)).reverse ++ l, ?_, ?_⟩⟩
    · rw [Kmem.free, hlist, ← Multiset.coe_add, Multiset.coe_reverse]
      rfl
    · dsimp only
      rw [hlist, hl, List.append_assoc]
    · rw [List.length_append, List.length_reverse, List.length_range']
      exact Nat.le_add_right ..

theorem frames_split (h : L.first ≤ lowFrames) :
    (List.range' lowFrames (PHYSTOP / PGSIZE - lowFrames) : List Page) +
      ((List.range' L.first (lowFrames - L.first) : List Page) : Multiset Page) = L.frames := by
  have hle : lowFrames ≤ PHYSTOP / PGSIZE := by decide
  have hsum : ∀ f : Nat, f ≤ lowFrames →
      lowFrames - f + (PHYSTOP / PGSIZE - lowFrames) = PHYSTOP / PGSIZE - f := by omega
  have happend := List.range'_append_1 (s := L.first) (m := lowFrames - L.first) (n := PHYSTOP / PGSIZE - lowFrames)
  rw [Nat.add_sub_of_le h, hsum _ h] at happend
  rw [Layout.frames, ← happend, add_comm]
  rfl

/-- After boot. If the kernel leaves `m` frames more of the first 4 MB than boot takes, these
are at the end of the list. -/
structure Booted (L : Layout) (n m : Nat) {P : Type} [Fintype P] (p : P) (r : Machine P × Taken) : Prop where
  inv : r.1.Inv L r.2.pages []
  rich : L.first + m + (n + NPDENTRIES / 2 + 1) ≤ lowFrames → r.1.kmem.Rich 55000 (List.range' L.first m).reverse
  init : ∃ x q, r.1.proc p = some x ∧ x.zombie = false ∧ x.space.sz = BitVec.ofNat 32 PGSIZE ∧
    x.space.pgdir.get 0 = some ⟨q, true, true⟩

theorem boot_ends {P : Type} [Fintype P] [DecidableEq P] {n m : Nat} {initcode : PageData} {content : Page → PageData} {p : P} :
    Ends (fun _ => lowFrames < L.first + m + (n + NPDENTRIES / 2 + 1)) (boot L n initcode content p) (Booted L n m p) := by
  unfold boot
  refine (kinit1_ends.mapError fun _ h => h.elim).bind fun k hk => ?_
  obtain ⟨hfree, hs, hrich⟩ := hk
  refine ((setupkvm_ends hs).mapError fun _ h => h.elim).bind fun ⟨x, k₁⟩ hr => ?_
  obtain ⟨hpages, -, hok⟩ := hr
  have hrich₁ := fun hm => hok n _ (hrich (n + NPDENTRIES / 2 + 1) m hm)
  cases x with
  | none =>
    refine Nat.lt_of_not_le fun hm => ?_
    obtain ⟨⟨_, hd⟩, -⟩ := hrich₁ hm
    cases hd
  | some kpgdir =>
    have hpages₁ : k₁.free + kpgdir.owned = k.free := hpages
    refine ((startothers_ends n).weaken fun _ hpoor => ?_).bind fun ⟨ps, k₂⟩ hr => ?_
    · refine Nat.lt_of_not_le fun hm => hpoor 0 _ ((hrich₁ hm).2.mono ?_)
      rw [Nat.zero_add]
    obtain ⟨hpages, hok₂⟩ := hr
    have hpages₂ : k₂.free + (ps : Multiset Page) = k₁.free := hpages
    have hrich₂ := fun hm => hok₂ 0 _ ((hrich₁ hm).2.mono (Nat.zero_add n).le)
    dsimp only
    refine (kinit2_ends.mapError fun _ hlt => ?_).bind fun k₃ hr => ?_
    · exact hlt.trans_le ((Nat.le_add_right ..).trans (Nat.le_add_right ..))
    obtain ⟨hlow, hpages₃, hok₃⟩ := hr
    -- the pages of the list that were there before stay at its end
    obtain ⟨tail, hrich₃, htail⟩ : ∃ tail, Kmem.Rich { k₃ with fails := [] } (PHYSTOP / PGSIZE - lowFrames) tail ∧
        (L.first + m + (n + NPDENTRIES / 2 + 1) ≤ lowFrames → tail = (List.range' L.first m).reverse) := by
      by_cases hm : L.first + m + (n + NPDENTRIES / 2 + 1) ≤ lowFrames
      · obtain ⟨-, l, hl, -⟩ := hrich₂ hm
        exact ⟨_, hok₃ l _ hl, fun _ => rfl⟩
      · exact ⟨_, hok₃ [] _ rfl, fun h => absurd h hm⟩
    obtain ⟨kstack, k₄, hk₄, hrich₄⟩ := Kmem.Rich.kalloc (n := 55000 + NPDENTRIES / 2 + 3) (hrich₃.mono (by decide))
    have hfree₄ : k₃.free = kstack ::ₘ k₄.free := (Kmem.kalloc_some hk₄).1
    have htotal : kstack ::ₘ k₄.free + (kpgdir.owned + (ps : Multiset Page)) = L.frames := by
      rw [← hfree₄, hpages₃, add_assoc, add_left_comm k₂.free, hpages₂, add_comm kpgdir.owned, hpages₁, hfree]
      exact frames_split hlow
    rw [hk₄]
    dsimp only
    have hs₄ : Sound L k₄ 0 := by
      have hle : k₄.free + 0 ≤ L.frames := by
        rw [← htotal, add_zero]
        exact (Multiset.le_cons_self ..).trans (Multiset.le_add_right ..)
      exact ⟨Multiset.nodup_of_le hle L.frames_nodup, fun q hq => Layout.frames_valid (Multiset.mem_of_le hle hq)⟩
    refine ((initSpace_ends hs₄ hrich₄).weaken fun _ h => h.elim).bind fun ⟨space, k₅⟩ hr => ?_
    obtain ⟨hpages₅, hsized, hrich₅, hsz, q, hq⟩ := hr
    have hpages₅' : k₅.free + space.pgdir.owned = k₄.free := hpages₅
    refine ⟨Machine.inv_start ⟨hsized, nofun⟩ rfl ?_, fun hm => htail hm ▸ hrich₅, _, q, if_pos rfl, rfl, hsz, hq⟩
    rw [← htotal, ← hpages₅', ← Multiset.add_cons]
    rfl

end Xv6
