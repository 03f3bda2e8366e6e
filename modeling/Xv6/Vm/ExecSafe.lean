import Xv6.Vm.Replace
/-!
# exec on every file

Whatever the bytes of the file and whichever allocation fails, `exec` leaves the
process as it was or gives it the image that the file describes. This holds of
a process with any memory contents if and only if no string of `argv` takes the
stack pointer to the gap: there the word at address 0 of the process stands for
the page table entry, and the process may let it name the page with its own
trap frame.
-/

namespace Xv6.Exec

open Outcome Bytes

variable {L : Layout} {k k' : Kmem} {p : Proc} {cur d : Pgdir} {sz : Nat} {file : List (BitVec 8)} {args : List Arg}
  {path : List (BitVec 8)} {b : Page} {sp : BitVec 32} {len : Nat} {f : Nat → BitVec 8} {ptrs : List (BitVec 32)}

/-! ## A stray copy -/

/-- The last byte of a page. -/
def lastByte : Fin PGSIZE := ⟨PGSIZE - 1, by decide⟩

/-- The word at address 0 of the running process is an entry for page `b`, which is of
neither the new address space nor the free list. -/
structure Aimed (cur d : Pgdir) (b : Page) (k : Kmem) : Prop where
  entry : ∃ e, cur.get 0 = some e ∧ e.page ≠ b ∧ e.page ∉ k.free + d.owned ∧
    (firstWord (k.content e.page)).getLsbD 0 = true ∧ (firstWord (k.content e.page)).getLsbD 2 = true ∧
    (firstWord (k.content e.page)).toNat / PGSIZE = b
  top : b < PHYSTOP / PGSIZE
  apart : b ∉ k.free + d.owned

namespace Aimed

theorem uva2ka (h : Aimed cur d b k) {v : Nat} (hgap : d.pde (PDX v) = none) : uva2ka cur k d v = .ok (some b) := by
  obtain ⟨e, he, -, -, hpresent, huser, hb⟩ := h.entry
  exact uva2ka_gap hgap he rfl hpresent huser hb h.top

/-- Stores in other pages than that of address 0. -/
theorem congr (h : Aimed cur d b k) (hsame : SameList k k')
    (hcont : ∀ q, q ∉ k.free + d.owned → q ≠ b → k'.content q = k.content q) : Aimed cur d b k' := by
  obtain ⟨e, he, hne, hapart, hword⟩ := h.entry
  refine ⟨⟨e, he, hne, ?_, ?_⟩, h.top, ?_⟩
  · rwa [hsame.free]
  · rwa [hcont _ hapart hne]
  · rw [hsame.free]
    exact h.apart

theorem spoilt (h : Aimed cur d b k) (hsp : Spoilt k d k') : Aimed cur d b k' :=
  h.congr hsp.1 fun q hq _ => hsp.2 q hq

theorem store (h : Aimed cur d b k) (o n : Nat) (f : Nat → BitVec 8) :
    SameList k (k.store b o n f) ∧ Aimed cur d b (k.store b o n f) := by
  have hsame : SameList k (k.store b o n f) := store_sameList fun hin => h.apart (Multiset.mem_add.2 (.inl hin))
  exact ⟨hsame, h.congr hsame fun q _ hq => Function.update_of_ne hq ..⟩

end Aimed

/-- A copy that begins in the gap goes to page `b`, up to the devices. -/
theorem copyoutLoop_stray (h : Built L d sz) (fuel done : Nat) (va : BitVec 32) (haim : Aimed cur d b k)
    (hfuel : len ≤ done + fuel) (hlow : KERNBASE + PHYSTOP ≤ va.toNat) (hhigh : va.toNat ≤ DEVSPACE)
    (hend : DEVSPACE < va.toNat + (len - done)) :
    ∃ k', copyoutLoop cur d f len fuel done va k = .ok (false, k') ∧ SameList k k' ∧
      k'.content b lastByte = if va.toNat < DEVSPACE then f (done + (DEVSPACE - 1 - va.toNat)) else k.content b lastByte := by
  induction fuel generalizing k done va with
  | zero => omega
  | succ fuel ih =>
    unfold copyoutLoop
    rw [if_neg (by omega)]
    obtain hlt | heq := hhigh.lt_or_eq
    · obtain ⟨hnext, hn, hlow', hhigh', hend'⟩ := gap_next hlow hlt hend
      have hgap := h.gap (va.toNat / PGSIZE) (Nat.div_le_div_right hlow)
        ((Nat.div_lt_iff_lt_mul (by decide)).2 (hlt.trans_eq (by decide)))
      rw [haim.uva2ka hgap]
      dsimp only [bind, Except.bind]
      rw [hn]
      obtain ⟨hsame, haim'⟩ := haim.store (va.toNat % PGSIZE) (PGSIZE - va.toNat % PGSIZE) fun i => f (done + i)
      obtain ⟨k', hrun, hsame', hbyte⟩ := ih (done + (PGSIZE - va.toNat % PGSIZE)) _ haim' (by unfold PGSIZE at *; omega)
        (by rwa [hnext]) (by rwa [hnext]) (by rwa [hnext])
      refine ⟨k', hrun, hsame.trans hsame', ?_⟩
      rw [hbyte, hnext, if_pos hlt]
      split
      · refine congrArg f ?_
        unfold PGSIZE at *
        omega
      · -- this was the last page of the gap
        have hval : lastByte.val = PGSIZE - 1 := rfl
        have hlast : va.toNat % PGSIZE ≤ lastByte.val ∧ lastByte.val < va.toNat % PGSIZE + (PGSIZE - va.toNat % PGSIZE) := by
          unfold PGSIZE at *
          omega
        refine (congrFun (Function.update_self ..) lastByte).trans ((if_pos hlast).trans (congrArg f ?_))
        rw [hval]
        unfold PGSIZE at *
        omega
    · obtain ⟨e, he, huser⟩ := h.devices_closed heq
      rw [uva2ka_mapped he, huser]
      refine ⟨k, rfl, .refl k, ?_⟩
      rw [if_neg (by omega)]

/-- A string that strays puts a byte of it at the end of page `b`, the same in all memories. -/
theorem pushArgs_stray (h : Built L d sz) (cur : Pgdir) (as : List Arg) (ptrs : List (BitVec 32)) (hsp : InStack sz sp) (has : ∀ a ∈ as, a.len < KERNBASE)
    (hstray : ¬ NoStray (sz - PGSIZE) sp.toNat (as.take (MAXARG - ptrs.length))) :
    ∃ v, ∀ k, Sound L k d.owned → Aimed cur d b k →
      ∃ k', pushArgs cur d as sp ptrs k = .ok (none, k') ∧ SameList k k' ∧ k'.content b lastByte = v := by
  induction as generalizing sp ptrs with
  | nil =>
    rw [List.take_nil] at hstray
    exact absurd trivial hstray
  | cons a as ih =>
    obtain hmax | hmax := Nat.lt_or_ge ptrs.length MAXARG
    · obtain ⟨m, hm⟩ : ∃ m, MAXARG - ptrs.length = m + 1 := ⟨MAXARG - ptrs.length - 1, by omega⟩
      rw [hm, List.take_succ_cons] at hstray
      have ha := has a (List.mem_cons_self ..)
      have hunfold : ∀ k, pushArgs cur d (a :: as) sp ptrs k = (argCopy sp a).run cur d k >>= fun r => if r.1 then
          pushArgs cur d as (below sp a) (ptrs ++ [below sp a]) r.2 else .ok (none, r.2) := by
        intro k
        rw [pushArgs, if_neg (by omega)]
        rfl
      obtain ⟨hfit, hbelow⟩ | ⟨hno, hstray', -⟩ | ⟨hstray', hlow, hhigh⟩ := hsp.cases_arg ha
      · have hin : sz - PGSIZE + room a ≤ sp.toNat := by
          by_contra hlt
          exact hstray ⟨InStack.not_strays hfit, fun hle => absurd hle hlt⟩
        have hrest : ¬ NoStray (sz - PGSIZE) (sp.toNat - room a) (as.take m) :=
          fun hall => hstray ⟨InStack.not_strays hfit, fun _ => hall⟩
        obtain ⟨v, hv⟩ := ih (ptrs ++ [below sp a]) (hsp.next hin hbelow) (fun c hc => has c (List.mem_cons_of_mem _ hc))
          (by rwa [List.length_append, List.length_singleton, show MAXARG - (ptrs.length + 1) = m by omega, hbelow])
        refine ⟨v, fun k hs haim => ?_⟩
        obtain ⟨-, hends⟩ := h.copy_arg hsp cur hs hfit hbelow
        obtain ⟨⟨ok, k₁⟩, hrun, hcopied⟩ := hends.ok
        have hok : ok = true := hcopied.room.2 (by change sz - PGSIZE ≤ (below sp a).toNat; omega)
        subst hok
        obtain ⟨k', hpush, hsame, hbyte⟩ := hv k₁ (hcopied.spoilt.1.sound hs) (haim.spoilt hcopied.spoilt)
        refine ⟨k', ?_, hcopied.spoilt.1.trans hsame, hbyte⟩
        rw [hunfold, hrun]
        exact hpush
      · exact absurd ⟨hstray', fun hle => absurd hle (by omega)⟩ hstray
      · have hend : DEVSPACE < (below sp a).toNat + (a.len + 1 - 0) := hsp.stray_end ha hstray'
        refine ⟨(argCopy sp a).byte (0 + (DEVSPACE - 1 - (below sp a).toNat)), fun k _ haim => ?_⟩
        obtain ⟨k', hrun, hsame, hbyte⟩ := copyoutLoop_stray (f := (argCopy sp a).byte) h (a.len + 1) 0 _ haim
          (Nat.zero_add _).ge hlow hhigh.le hend
        refine ⟨k', ?_, hsame, hbyte.trans (if_pos hhigh)⟩
        have hrun' : (argCopy sp a).run cur d k = .ok (false, k') := hrun
        rw [hunfold, hrun']
        rfl
    · rw [Nat.sub_eq_zero_of_le hmax, List.take_zero] at hstray
      exact absurd trivial hstray

/-! ## The contents that show it -/

/-- The image can be built in any memory with the same free list. -/
theorem Reaches.blind {k₁ : Kmem} (h : Reaches L k file sz d k') (hsame : SameList k k₁) :
    ∃ k₁', Reaches L k₁ file sz d k₁' := by
  obtain ⟨elf, d₀, k₀, helf, hmagic, hset, hload⟩ := h
  obtain ⟨⟨x, k₂⟩, hset', hx, hsame₂⟩ := hsame.setupkvm.ok hset
  obtain rfl : some d₀ = x := hx
  obtain ⟨⟨y, d₂, k₃⟩, hload', hy, hd, -⟩ := (hsame₂.loadImage (segments file elf)).ok hload
  obtain rfl : some sz = y := hy
  obtain rfl : d = d₂ := hd
  exact ⟨k₃, elf, d₀, k₂, helf, hmagic, hset', hload'⟩

theorem Clear.blind {k₁ : Kmem} (h : Clear L k file args) (hsame : SameList k k₁) : Clear L k₁ file args := by
  intro sz d k' hreach
  obtain ⟨k'', hreach'⟩ := hreach.blind ⟨hsame.1.symm, hsame.2.symm⟩
  exact h sz d k'' hreach'

/-- A page that begins with the word `w`. -/
def pageOfWord (w : BitVec 32) : PageData := fun j => byteOf w j.val

theorem firstWord_pageOfWord (w : BitVec 32) : firstWord (pageOfWord w) = w := byteOf_append w

/-- An entry for page `b`, present and for the user. -/
def entryFor (b : Page) : BitVec 32 := BitVec.ofNat 32 (b * PGSIZE + 5)

theorem entryFor_bits (hb : b < PHYSTOP / PGSIZE) :
    (entryFor b).getLsbD 0 = true ∧ (entryFor b).getLsbD 2 = true ∧ (entryFor b).toNat / PGSIZE = b := by
  obtain ⟨n, rfl⟩ : ∃ n : Nat, n = b := ⟨_, rfl⟩
  have hn : n < 57344 := hb
  unfold entryFor PGSIZE
  refine ⟨?_, ?_, ?_⟩
  · rw [BitVec.getLsbD_ofNat, Nat.testBit_eq_decide_div_mod_eq]
    simp
    omega
  · rw [BitVec.getLsbD_ofNat, Nat.testBit_eq_decide_div_mod_eq]
    simp
    omega
  · rw [BitVec.toNat_ofNat]
    omega

/-- Memory in which the process at page `q` has an entry for page `b`, and `b` ends with `v`. -/
def aimedAt (c : Page → PageData) (q b : Page) (v : BitVec 8) : Page → PageData :=
  Function.update (Function.update c q (pageOfWord (entryFor b))) b fun j => if j = lastByte then v else c b j

/-- The last byte of the kernel stack is a byte of the trap frame. -/
theorem lastByte_of_tf (h : p.tf k' = p.tf k) : k'.content p.kstack lastByte = k.content p.kstack lastByte := by
  have hss : Fin.ofNat PGSIZE (tfOffset .ss + 3) = lastByte := by decide
  have htop : ∀ x₃ x₂ x₁ x₀ : BitVec 8, byteOf (x₃ ++ x₂ ++ x₁ ++ x₀) 3 = x₃ := by
    intro x₃ x₂ x₁ x₀
    refine BitVec.eq_of_getLsbD_eq fun i hi => ?_
    simp only [byteOf, BitVec.getLsbD_append, BitVec.getLsbD_extractLsb']
    grind
  have hbyte := congrArg (byteOf · 3) (congrFun h .ss)
  unfold Proc.tf at hbyte
  dsimp only at hbyte
  rwa [htop, htop, hss] at hbyte

/-! ## The claim of one call -/

/-- The process has the image that the file describes, up to the arguments on the stack. -/
structure Replaced (p : Proc) (file : List (BitVec 8)) (p' : Proc) (k' : Kmem) : Prop where
  maps : p'.space.MapsExactly p'.space.sz.toNat
  user : ∀ u e, KERNBASE / PGSIZE ≤ u → u < NPAGES → p'.space.pgdir.get u = some e → e.user = false
  area : p'.space.sz.toNat - PGSIZE ≤ (p'.tf k' .esp).toNat ∧ (p'.tf k' .esp).toNat ≤ p'.space.sz.toNat
  bytes : ∃ elf, elfhdr file = some elf ∧
    ∀ x, x < (p'.tf k' .esp).toNat → p'.space.byte k' x = some (fileImage file elf x)
  guard : ∃ e, p'.space.pgdir.get (p'.space.sz.toNat / PGSIZE - 2) = some e ∧ e.user = false
  handlers : ∀ i, p'.sig.signalHandler i = if p.sig.signalHandler i = SIG_IGN then SIG_IGN else SIG_DFL

/-- No panic, no user page above `KERNBASE`, and the process is as it was or replaced. A
fault in `uva2ka` is no panic of the functions that build the image. -/
structure Safe (L : Layout) (k : Kmem) (p : Proc) (path file : List (BitVec 8)) (args : List Arg) : Prop where
  user : ∀ elf d₀ k₀, setupkvm L k = .ok (some d₀, k₀) →
    Ends (fun _ => False) (loadImage L (segments file elf) k₀ d₀) fun r =>
      ∀ u e, KERNBASE / PGSIZE ≤ u → u < NPAGES → r.2.1.get u = some e → e.user = false
  ends : Ends (fun e => e = .uva2ka) (exec L k p path (some file) args) fun r =>
    (r.1 = -1 ∧ r.2.1 = p ∧ p.tf r.2.2 = p.tf k) ∨ (r.1 = 0 ∧ Replaced p file r.2.1 r.2.2)

theorem Ran.replaced {p' : Proc} (h : Ran L p file args p' k') : Replaced p file p' k' := by
  obtain ⟨elf, helf, -, hstacked⟩ := h.stacked
  refine ⟨h.built.image.mapped, fun u e hu hlt he => ?_, ⟨hstacked.low, hstacked.high⟩,
    ⟨elf, helf, fun x hx => hstacked.byte hx⟩, h.built.guard, fun i => ?_⟩
  · rw [h.built.kernel u hu hlt] at he
    exact kernelPte_user he
  · rw [h.sig, Sigs.exec]
    dsimp only
    split_ifs with hne hign hign
    · exact absurd hign hne.1
    · rfl
    · exact hign
    · exact not_not.1 fun hdfl => hne ⟨hign, hdfl⟩

theorem setupkvm_user {elf : Elfhdr} {d₀ : Pgdir} {k₀ : Kmem} (hs : Sound L k 0) (hset : setupkvm L k = .ok (some d₀, k₀)) :
    Ends (fun _ => False) (loadImage L (segments file elf) k₀ d₀) fun r =>
      ∀ u e, KERNBASE / PGSIZE ≤ u → u < NPAGES → r.2.1.get u = some e → e.user = false := by
  have hends := setupkvm_ends hs
  rw [hset] at hends
  obtain ⟨hpages, hfresh, -⟩ := hends
  have hs₀ : Sound L k₀ d₀.owned := hs.of_eq (by rw [add_zero]; exact hpages)
  refine (loadImage_ends file elf (hfresh d₀ rfl) hs₀).mono fun r hr u e hu hlt he => ?_
  rw [hr.1.kernel u hu hlt, (hfresh d₀ rfl).kernel u hlt] at he
  exact kernelPte_user he

theorem safe_of_clear (hs : Sound L k (p.space.pgdir.owned + {p.kstack})) (hargs : ∀ a ∈ args, a.len < KERNBASE)
    (hclear : Clear L k file args) : Safe L k p path file args := by
  refine ⟨fun elf d₀ k₀ hset => setupkvm_user (hs.mono (Multiset.zero_le _)) hset, ?_⟩
  refine ((exec_outcome path file hs hargs).weaken fun _ hno => absurd hclear hno).mono fun r hr => ?_
  obtain ⟨hneg, hp, hconf⟩ | ⟨hzero, hran⟩ := hr
  · refine .inl ⟨hneg, hp, tf_congr (hconf hclear _ ?_)⟩
    rw [add_zero]
    exact hs.not_free (Multiset.mem_add.2 (.inr (Multiset.mem_singleton_self _)))
  · exact .inr ⟨hzero, hran.replaced⟩

/-- With a string that strays there are contents of memory for which a failed `exec` has
changed the trap frame. -/
theorem exists_unsafe (path : List (BitVec 8)) (hs : Sound L k (p.space.pgdir.owned + {p.kstack})) (hsz : p.space.sz.toNat < KERNBASE)
    (hmaps : p.space.MapsExactly p.space.sz.toNat) (hargs : ∀ a ∈ args, a.len < p.space.sz.toNat)
    (hclear : ¬ Clear L k file args) : ∃ c, ¬ Safe L { k with content := c } p path file args := by
  unfold Clear at hclear
  push Not at hclear
  obtain ⟨sz, d, k', hreach, hstray⟩ := hclear
  -- there is a string, so there is a page at address 0
  obtain ⟨a, ha⟩ : ∃ a, a ∈ args := by
    refine List.exists_mem_of_ne_nil args ?_
    rintro rfl
    exact hstray trivial
  obtain ⟨e, he⟩ := Option.isSome_iff_exists.1 ((hmaps 0 (by decide)).2 (lt_pagesUp (a := 0) (Nat.zero_lt_of_lt (hargs a ha))))
  have hown : e.page ∈ p.space.pgdir.owned := Pgdir.mem_owned he (by decide)
  have hks : p.kstack ∈ p.space.pgdir.owned + {p.kstack} := Multiset.mem_add.2 (.inr (Multiset.mem_singleton_self _))
  have hne : e.page ≠ p.kstack := fun heq =>
    Multiset.disjoint_left.1 (Multiset.nodup_add.1 (Multiset.nodup_add.1 hs.nodup).2.1).2.2 hown
      (heq ▸ Multiset.mem_singleton_self _)
  have hbits := entryFor_bits (hs.held hks).2
  -- the byte that goes to the end of the kernel stack
  have hs₀ : Sound L k 0 := hs.mono (Multiset.zero_le _)
  obtain ⟨hb, -⟩ := hreach.built hs₀
  have hto := toNat_size hb.image.size
  obtain ⟨v, hv⟩ := pushArgs_stray (b := p.kstack) hb p.space.pgdir args [] hb.inStack_top
    (fun a ha => (hargs a ha).trans hsz) (by rwa [hto, List.length_nil, Nat.sub_zero])
  let c := aimedAt k.content e.page p.kstack (v + 1)
  obtain ⟨k₁, hreach₁⟩ := hreach.blind (⟨rfl, rfl⟩ : SameList k { k with content := c })
  obtain ⟨-, hs₁, hpages, hconf⟩ := hreach₁.built (hs₀.of_eq rfl)
  have hpages' : k₁.free + d.owned = k.free := hpages
  have hfree : e.page ∉ k.free := hs.not_free (Multiset.mem_add.2 (.inl hown))
  have hfree' : p.kstack ∉ k.free := hs.not_free hks
  have hentry : k₁.content e.page = pageOfWord (entryFor p.kstack) := by
    refine (hconf _ (by rw [add_zero]; exact hfree)).trans ?_
    exact (Function.update_of_ne hne ..).trans (Function.update_self ..)
  have haim : Aimed p.space.pgdir d p.kstack k₁ := by
    refine ⟨⟨e, he, hne, by rwa [hpages'], ?_⟩, (hs.held hks).2, by rwa [hpages']⟩
    rw [hentry, firstWord_pageOfWord]
    exact hbits
  obtain ⟨k₂, hpush, hsame, hbyte⟩ := hv k₁ hs₁ haim
  obtain ⟨elf, -, hexec⟩ := exec_reaches p path args hreach₁
  have hargv : pushArgv p.space.pgdir d args (BitVec.ofNat 32 sz) k₁ = .ok (none, k₂) := by
    unfold pushArgv
    rw [hpush]
    rfl
  obtain ⟨⟨ret, p', k₃⟩, hbad, hneg, -, hconf₂⟩ := (bad_ends (p := p) (hsame.sound hs₁)).ok
  have hrun : exec L { k with content := c } p path (some file) args = .ok (ret, p', k₃) := by
    rw [hexec, hargv]
    exact hbad
  refine ⟨c, fun hsafe => ?_⟩
  have hends := hsafe.ends
  rw [hrun] at hends
  obtain ⟨-, -, htf⟩ | ⟨hzero, -⟩ := hends
  · have hlast := lastByte_of_tf htf
    have hkept : k₃.content p.kstack = k₂.content p.kstack := hconf₂ _ (by rw [hsame.free, hpages']; exact hfree')
    have hold : c p.kstack lastByte = v + 1 := (congrFun (Function.update_self ..) lastByte).trans (if_pos rfl)
    rw [hkept, hbyte] at hlast
    have heq : v = v + 1 := hlast.trans hold
    revert heq
    generalize v = x
    revert x
    decide
  · dsimp only at hneg hzero
    omega

/-- `exec` is safe on a file, for every process with any contents of memory, if and only if
no string of `argv` takes the stack pointer to the gap. -/
theorem exec_safe_iff (path : List (BitVec 8)) (hs : Sound L k (p.space.pgdir.owned + {p.kstack}))
    (hsz : p.space.sz.toNat < KERNBASE) (hmaps : p.space.MapsExactly p.space.sz.toNat)
    (hargs : ∀ a ∈ args, a.len < p.space.sz.toNat) :
    (∀ c, Safe L { k with content := c } p path file args) ↔ Clear L k file args := by
  constructor
  · intro hall
    by_contra hno
    obtain ⟨c, hc⟩ := exists_unsafe path hs hsz hmaps hargs hno
    exact hc (hall c)
  · intro hclear c
    exact safe_of_clear (hs.of_eq rfl) (fun a ha => (hargs a ha).trans hsz) (hclear.blind ⟨rfl, rfl⟩)

theorem one_letter_safe : Safe someLayout manyFree someProc [] bareElf [⟨1, fun _ => 0x61⟩] := by
  have hclear : Clear someLayout manyFree bareElf [⟨1, fun _ => 0x61⟩] := by
    intro sz d k' _
    refine ⟨fun hstray => ?_, fun _ => trivial⟩
    have hlt : sz + (2 ^ 32 - DEVSPACE) < 4 := hstray.1
    unfold DEVSPACE at hlt
    omega
  exact (exec_safe_iff (k := manyFree) (p := someProc) [] someProc_sound (by decide) onePage_wellMapped.mapped
    (by decide)).2 hclear fun _ _ => 0

/-- A process with a little more than 32 MB of memory changes its trap frame by an `exec`
that fails. -/
theorem long_string_changes_tf : ¬ ∀ (L : Layout) (k : Kmem) (p : Proc) (path file : List (BitVec 8)) (args : List Arg),
    Sound L k (p.space.pgdir.owned + {p.kstack}) → p.space.sz.toNat < KERNBASE → p.space.MapsExactly p.space.sz.toNat →
      args.length ≤ MAXARG → (∀ a ∈ args, a.len < p.space.sz.toNat) → Safe L k p path file args := by
  intro hall
  obtain ⟨k, s, hsz, hmaps, hs, hrich⟩ := exists_bigProcess
  obtain ⟨d, k', hreach⟩ := Reaches.bareElf (m := 0) (hs.mono (Multiset.zero_le _)) (hrich.mono (by decide))
  have hargs : ∀ a ∈ [longString], a.len < s.sz.toNat := by
    rw [hsz]
    decide
  have hlt : s.sz.toNat < KERNBASE := by
    rw [hsz]
    decide
  have hno : ¬ Clear someLayout k bareElf [longString] := fun hclear => (hclear _ _ _ hreach).1 longString_strays
  obtain ⟨c, hc⟩ := exists_unsafe (p := ⟨s, 1000, [], .zero⟩) [] hs hlt hmaps hargs hno
  exact hc (hall _ { k with content := c } _ _ _ _ (hs.of_eq rfl) hlt hmaps (by decide) hargs)

end Xv6.Exec
