import Xv6.Umalloc.Malloc
import Xv6.Vm.Image
/-!
# Huge requests

`malloc` over the kernel's own `sbrk`. The number of units of a request is
computed in 32 bits, and their size is handed to `sbrk` as an `int`. Up to
2^31 - 16 bytes that is a positive number; above it is negative or 0, and for the
last seven sizes the sum wraps around and the request is taken for one of 0
bytes.
-/

namespace Xv6.Umalloc

open Outcome Blk

/-- A process, and what it asked `sbrk` for. -/
structure Process where
  kmem : Kmem
  space : Space
  calls : List (BitVec 32)

/-- `sys_sbrk`, and the pages of the process. -/
def kernel (L : Layout) : World Process where
  sbrk e n :=
    match growproc L e.kmem e.space n with
    | .error _ => .error .kernel
    | .ok (r, space, kmem) => .ok (⟨kmem, space, e.calls ++ [n]⟩, if r < 0 then FAILED else e.space.sz.toNat)
  mapped e a :=
    (e.space.pgdir.get (a / PGSIZE)).isSome && (e.space.pgdir.get ((a + 7) / PGSIZE)).isSome && decide (a + 8 ≤ KERNBASE)

/-- The call returned 0, or a block with enough bytes inside the process; it asked `sbrk` for
no negative number of bytes, and the process is not smaller than before. -/
def Clean (nbytes : Nat) (e : Process) (r : Except Stop (Nat × Heap Process)) : Prop :=
  ∃ ap h, r = .ok (ap, h) ∧ (∀ n ∈ h.env.calls, 0 ≤ n.toInt) ∧ e.space.sz.toNat ≤ h.env.space.sz.toNat ∧
    (ap = 0 ∨ nbytes ≤ 8 * (h.size (ap - 8) - 1) ∧ ap + 8 * (h.size (ap - 8) - 1) ≤ h.env.space.sz.toNat)

/-- A process between two calls of its allocator. -/
structure Valid (L : Layout) (base : Nat) (h : Heap Process) (live : List Blk) : Prop where
  pos : 0 < base
  data : base + 8 ≤ h.env.space.sz.toNat
  mapped : h.env.space.WellMapped L h.env.kmem
  calls : h.env.calls = []
  ready : Ready (kernel L) base 1 h.env.space.sz.toNat h live

/-! ## Requests that fit -/

theorem grow_wellMapped {L : Layout} {k : Kmem} {s : Space} {n : BitVec 32} (h : s.WellMapped L k) (hn : 0 < n.toInt) :
    ∃ r, growproc L k s n = .ok r ∧ GrowsExactly k s n.toInt r ∧ r.2.1.WellMapped L r.2.2 := by
  have hsized : s.Sized := ⟨h.size, fun u hle hu => h.unmapped hu hle⟩
  have hsound : Sound L k s.pgdir.owned := ⟨h.nodup, h.valid⟩
  obtain ⟨r, hr, hgrow, hpages, -⟩ := ((h.grow_exact hn).and (growproc_ends hsized hsound)).ok
  obtain ⟨hnodup, hvalid⟩ := hsound.of_eq hpages
  refine ⟨r, hr, hgrow, ?_⟩
  rcases hgrow with ⟨-, -, hlt, hsz, hmap, -⟩ | ⟨-, hsz, hget, -⟩
  · exact ⟨by omega, hmap, hnodup, hvalid⟩
  · refine ⟨hsz ▸ h.size, fun u hu => ?_, hnodup, hvalid⟩
    rw [hget u hu, hsz]
    exact h.mapped u hu

section
variable {L : Layout} {base : Nat} {h : Heap Process} {live : List Blk} {nbytes : Nat}

/-- A process that is not smaller than `sz` and asked for no negative number of bytes. -/
def Intact (L : Layout) (base sz : Nat) (e : Process) : Prop :=
  base + 8 ≤ sz ∧ sz ≤ e.space.sz.toNat ∧ e.space.WellMapped L e.kmem ∧ ∀ n ∈ e.calls, 0 ≤ n.toInt

theorem mapped_below {e : Process} {a : Nat} (h : e.space.WellMapped L e.kmem) (ha : a + 8 ≤ e.space.sz.toNat) :
    (kernel L).mapped e a = true := by
  have hsz := h.size
  have hpage : ∀ x, x < e.space.sz.toNat → (e.space.pgdir.get (x / PGSIZE)).isSome = true := by
    intro x hx
    refine (h.mapped _ ?_).2 (lt_pagesUp hx)
    unfold KERNBASE PGSIZE at *
    omega
  simp only [kernel, hpage a (by omega), hpage (a + 7) (by omega), Bool.true_and, decide_eq_true_eq]
  omega

theorem kernel_grants (L : Layout) (base sz : Nat) :
    Grants (kernel L) (Intact L base sz) (fun e => e.space.sz.toNat) base 1 := by
  have hK : KERNBASE = 2147483648 := rfl
  have hWORD : WORD = 4294967296 := rfl
  refine ⟨fun e he => he.1.trans he.2.1, fun e he => ?_, fun e n he hn _ => ?_⟩
  · have := he.2.2.1.size
    omega
  · obtain ⟨hbase, hle, hmap, hcalls⟩ := he
    have hnat : n.toInt = n.toNat := by
      have hcond := BitVec.toInt_eq_toNat_cond n
      have := n.isLt
      split at hcond <;> omega
    obtain ⟨⟨r, space, kmem⟩, hr, hgrow, hmap'⟩ := grow_wellMapped hmap hn
    have hpages : e.space.sz.toNat ≤ space.sz.toNat ∧
        ∀ u, u < KERNBASE / PGSIZE → (e.space.pgdir.get u).isSome = true → (space.pgdir.get u).isSome = true := by
      rcases hgrow with ⟨-, -, -, hsz, hexact, -⟩ | ⟨-, hsz, hget, -⟩
      · have hge : e.space.sz.toNat ≤ space.sz.toNat := by
          dsimp only at hsz
          omega
        exact ⟨hge, fun u hu hu' => (hexact u hu).2 (((hmap.mapped u hu).1 hu').trans_le (pagesUp_mono hge))⟩
      · dsimp only at hsz hget
        exact ⟨by rw [hsz], fun u hu hu' => by rwa [hget u hu]⟩
    refine ⟨⟨kmem, space, e.calls ++ [n]⟩, if r < 0 then FAILED else e.space.sz.toNat, ?_,
      ⟨hbase, hle.trans hpages.1, hmap', ?_⟩, fun a ha => ?_, hpages.1, ?_⟩
    · simp only [kernel, hr]
    · intro m hm
      rcases List.mem_append.1 hm with hm | hm
      · exact hcalls m hm
      · rw [List.mem_singleton.1 hm]
        exact hn.le
    · simp only [kernel, Bool.and_eq_true, decide_eq_true_eq] at ha ⊢
      have hlt : a / PGSIZE < KERNBASE / PGSIZE ∧ (a + 7) / PGSIZE < KERNBASE / PGSIZE := by
        unfold KERNBASE PGSIZE at *
        omega
      exact ⟨⟨hpages.2 _ hlt.1 ha.1.1, hpages.2 _ hlt.2 ha.1.2⟩, ha.2⟩
    · rcases hgrow with ⟨rfl, -, -, hsz, -⟩ | ⟨rfl, -⟩
      · dsimp only at hsz
        refine .inr ⟨Nat.one_dvd .., le_rfl, ?_, fun j hj => mapped_below hmap' ?_⟩
        · change e.space.sz.toNat + n.toNat ≤ space.sz.toNat
          omega
        · change e.space.sz.toNat + 8 * j + 8 ≤ space.sz.toNat
          omega
      · exact .inl rfl

/-- A request that is small enough is clean. -/
theorem Valid.clean (hv : Valid L base h live) (hn : Small nbytes) :
    Clean nbytes h.env (malloc (kernel L) h base nbytes) := by
  have hI : Intact L base h.env.space.sz.toNat h.env := ⟨hv.data, le_rfl, hv.mapped, by simp [hv.calls]⟩
  obtain ⟨ap, h', fl, hmalloc, ⟨-, hle, -, hcalls⟩, hres⟩ :=
    hv.ready.malloc (kernel_grants L base h.env.space.sz.toNat) (Nat.one_dvd 8) hv.pos hn hI
  refine ⟨ap, h', hmalloc, hcalls, hle, hres.imp (fun h => h.1) ?_⟩
  rintro ⟨c, rfl, hsize, hrep⟩
  have hc := hrep.holds.sizes c (List.mem_append_right _ List.mem_cons_self)
  have hstop := (hrep.lay.used c List.mem_cons_self).le
  rw [Nat.add_sub_cancel, hc]
  unfold stop at hstop
  omega

end

/-! ## Requests that do not fit -/

section
variable {E : Type} {W : World E} {Q : E → Prop} {h : Heap E}

theorem setPtr_env (a v : Nat) : Ends (fun _ => True) (h.setPtr W a v) fun h' => h'.env = h.env := by
  unfold Heap.setPtr Heap.at
  split
  · rfl
  · trivial

theorem setSize_env (a v : Nat) : Ends (fun _ => True) (h.setSize W a v) fun h' => h'.env = h.env := by
  unfold Heap.setSize Heap.at
  split
  · rfl
  · trivial

theorem free_env (ap : Nat) : Ends (fun _ => True) (free W h ap) fun h' => h'.env = h.env := by
  have hupper : ∀ p bp, Ends (fun _ => True) (joinUpper W h p bp) fun h' => h'.env = h.env := by
    intro p bp
    refine Ends.trivial.bind fun n _ => Ends.trivial.bind fun q _ => ?_
    split
    · refine Ends.trivial.bind fun m _ => (setSize_env _ _).bind fun h₁ he₁ => Ends.trivial.bind fun r _ => ?_
      exact (setPtr_env _ _).mono fun h₂ he₂ => he₂.trans he₁
    · exact setPtr_env _ _
  have hlower : ∀ (h : Heap E) p bp, Ends (fun _ => True) (joinLower W h p bp) fun h' => h'.env = h.env := by
    intro h p bp
    refine Ends.trivial.bind fun n _ => ?_
    split
    · refine Ends.trivial.bind fun m _ => (setSize_env _ _).bind fun h₁ he₁ => Ends.trivial.bind fun r _ => ?_
      exact (setPtr_env _ _).mono fun h₂ he₂ => he₂.trans he₁
    · exact setPtr_env _ _
  refine Ends.trivial.bind fun p _ => (hupper _ _).bind fun h₁ he₁ => (hlower h₁ _ _).bind fun h₂ he₂ => ?_
  exact he₂.trans he₁

/-- `morecore` calls `sbrk`, with at least 4096 units, and nothing else of the kernel. -/
theorem morecore_env (nu : Nat) : Ends (fun _ => True) (morecore W h nu) fun r =>
    ∃ p, W.sbrk h.env (BitVec.ofNat 32 ((if nu < 4096 then 4096 else nu) * 8)) = .ok (r.2.env, p) := by
  unfold morecore
  generalize hm : (if nu < 4096 then 4096 else nu) = m
  dsimp only
  cases W.sbrk h.env (BitVec.ofNat 32 (m * 8)) with
  | error e => exact True.intro
  | ok r =>
    obtain ⟨e, p⟩ := r
    change Ends _ (if p = FAILED then _ else _) _
    split
    · exact ⟨p, rfl⟩
    · refine (setSize_env _ _).bind fun h₁ he₁ => (free_env _).bind fun h₂ he₂ => ?_
      exact ⟨p, by rw [he₂, he₁]⟩

/-- What every call of `sbrk` keeps, the loop of `malloc` keeps. -/
theorem mallocLoop_env (hQ : ∀ e n e' p, Q e → W.sbrk e n = .ok (e', p) → Q e') (nunits n : Nat) (prevp p : Nat)
    (hh : Q h.env) : Ends (fun _ => True) (mallocLoop W nunits n h prevp p) fun r => Q r.2.env := by
  induction n generalizing h prevp p with
  | zero => trivial
  | succ n ih =>
    refine Ends.trivial.bind fun m _ => ?_
    split
    · refine Ends.trivial.bind fun m _ => ?_
      split
      · refine Ends.trivial.bind fun q _ => (setPtr_env _ _).bind fun h₁ he₁ => ?_
        change Q h₁.env
        rwa [he₁]
      · refine (setSize_env _ _).bind fun h₁ he₁ => (setSize_env _ _).bind fun h₂ he₂ => ?_
        change Q h₂.env
        rwa [he₂, he₁]
    split
    · refine (morecore_env nunits).bind fun r hr => ?_
      obtain ⟨p', h'⟩ := r
      obtain ⟨q, hs⟩ := hr
      have hr' : Q h'.env := hQ _ _ _ _ hh hs
      dsimp only
      split
      · exact hr'
      · exact Ends.trivial.bind fun q _ => ih _ _ hr'
    · exact Ends.trivial.bind fun q _ => ih _ _ hh

end

/-- A process of one page whose allocator was not called yet. -/
def firstCall : Heap Process := ⟨⟨twoFree, onePage, []⟩, fun _ => 0, fun _ => 0, 0, 0⟩

theorem firstCall_valid : Valid someLayout 8 firstCall [] :=
  ⟨by decide, by decide, onePage_wellMapped, rfl, .inl ⟨rfl, rfl, rfl, by decide +kernel⟩⟩

/-- The first call asks for memory at once. -/
theorem firstCall_more (nbytes : Nat) : ∃ h₁ : Heap Process, h₁.env = firstCall.env ∧
    malloc (kernel someLayout) firstCall 8 nbytes = (do
      let (p, h) ← morecore (kernel someLayout) h₁ (nunits nbytes)
      if p = 0 then .ok (0, h)
      else
        let q ← h.at (kernel someLayout) p (h.ptr p)
        mallocLoop (kernel someLayout) (nunits nbytes) (rounds - 1) h p q) := by
  have hmap : (kernel someLayout).mapped firstCall.env 8 = true := by decide +kernel
  obtain ⟨n, hrounds⟩ : ∃ n, rounds = n + 1 := ⟨rounds - 1, by decide⟩
  have hpred : rounds - 1 = n := by omega
  refine ⟨{ firstCall with ptr := Function.update firstCall.ptr 8 8, freep := 8
                           size := Function.update firstCall.size 8 0 }, rfl, ?_⟩
  have hstart : start (kernel someLayout) firstCall 8 = .ok { firstCall with
      ptr := Function.update firstCall.ptr 8 8, freep := 8, size := Function.update firstCall.size 8 0 } := by
    have hz : firstCall.freep = 0 := rfl
    simp only [start, hz, if_true, Heap.setPtr, Heap.setSize, Heap.at, hmap, ok_bind]
  have hn : ¬ nunits nbytes ≤ 0 := by
    unfold nunits
    omega
  rw [malloc, hstart, hpred, hrounds]
  simp only [ok_bind, Heap.at, hmap, if_true, mallocLoop, Function.update_self, hn, if_false]

/-- `sbrk` is asked for a negative number of bytes. -/
theorem firstCall_negative {nbytes : Nat} (hlow : 2 ^ 31 - 16 < nbytes) (hhigh : nbytes ≤ 2 ^ 32 - 16) :
    ¬ Clean nbytes firstCall.env (malloc (kernel someLayout) firstCall 8 nbytes) := by
  rintro ⟨ap, h, hmalloc, hcalls, -⟩
  obtain ⟨h₁, -, heq⟩ := firstCall_more nbytes
  have hunits : 2 ^ 28 ≤ nunits nbytes ∧ nunits nbytes < 2 ^ 29 := by
    unfold nunits WORD
    omega
  obtain ⟨x, hx⟩ : ∃ x, BitVec.ofNat 32 (nunits nbytes * 8) = x := ⟨_, rfl⟩
  have hneg : x.toInt < 0 := by
    rw [← hx, BitVec.toInt_eq_toNat_cond, BitVec.toNat_ofNat, Nat.mod_eq_of_lt (by omega), if_neg (by omega)]
    omega
  have hlog : ∀ (e : Process) n e' p, (kernel someLayout).sbrk e n = .ok (e', p) → e'.calls = e.calls ++ [n] := by
    intro e n e' p hs
    simp only [kernel] at hs
    split at hs
    · cases hs
    · obtain ⟨rfl, -⟩ := Prod.mk.inj (Except.ok.inj hs)
      rfl
  have hends : Ends (fun _ => True) (malloc (kernel someLayout) firstCall 8 nbytes) fun r => x ∈ r.2.env.calls := by
    rw [heq]
    refine (morecore_env _).bind fun r hr => ?_
    obtain ⟨p, h₂⟩ := r
    obtain ⟨q, hs⟩ := hr
    rw [if_neg (by omega), hx] at hs
    have hmem : x ∈ h₂.env.calls := by
      rw [hlog _ _ _ _ hs]
      simp
    dsimp only
    split
    · exact hmem
    · refine Ends.trivial.bind fun q _ => mallocLoop_env (Q := fun e : Process => x ∈ e.calls) (fun e n e' p he hs => ?_) _ _ _ _ hmem
      rw [hlog _ _ _ _ hs]
      exact List.mem_append_left _ he
  rw [hmalloc] at hends
  have := hcalls x hends
  omega

/-- `sbrk` is asked for 0 bytes, and the header is stored behind the end of the process. -/
theorem firstCall_zero {nbytes : Nat} (hlow : 2 ^ 32 - 16 < nbytes) (hhigh : nbytes ≤ 2 ^ 32 - 8) :
    malloc (kernel someLayout) firstCall 8 nbytes = .error .fault := by
  obtain ⟨h₁, henv, heq⟩ := firstCall_more nbytes
  have hunits : nunits nbytes = 2 ^ 29 := by
    unfold nunits WORD
    omega
  have hsbrk : (kernel someLayout).sbrk h₁.env 0 = .ok (⟨twoFree, onePage, [0]⟩, 4096) := by
    rw [henv]
    rfl
  have hmap : (kernel someLayout).mapped ⟨twoFree, onePage, [0]⟩ 4096 = false := by decide +kernel
  have hbytes : BitVec.ofNat 32 (2 ^ 29 * 8) = 0 := by decide
  have hne : (4096 : Nat) ≠ FAILED := by decide
  have hmore : morecore (kernel someLayout) h₁ (2 ^ 29) = .error .fault := by
    have hnu : (if (2 ^ 29 : Nat) < 4096 then 4096 else 2 ^ 29) = 2 ^ 29 := by decide
    simp only [morecore, hnu, hbytes, hsbrk, ok_bind, hne, if_false, Heap.setSize, Heap.at, hmap]
    rfl
  rw [heq, hunits, hmore]
  rfl

/-- A process of one page with a free block of two units. -/
def twoUnits : Heap Process :=
  ⟨⟨twoFree, onePage, []⟩, Function.update (fun _ => 8) 8 16, Function.update (fun _ => 0) 16 2, 8, 2⟩

theorem twoUnits_valid : Valid someLayout 8 twoUnits [] := by
  refine ⟨by decide, by decide, onePage_wellMapped, rfl, .inr ⟨[⟨16, 2⟩], ?_, ?_, ?_, ?_⟩⟩
  · refine ⟨fun b hb => ?_, nofun, List.pairwise_singleton .., .nil, nofun⟩
    obtain rfl := List.mem_singleton.1 hb
    exact ⟨by decide, Nat.one_dvd .., by decide, by decide⟩
  · exact ⟨rfl, rfl, rfl⟩
  · exact List.mem_cons_self
  · refine ⟨fun b hb => ?_, fun b hb j hj => ?_, rfl, by decide +kernel, rfl⟩
    · obtain rfl := List.mem_singleton.1 hb
      rfl
    · obtain rfl := List.mem_singleton.1 hb
      exact mapped_below onePage_wellMapped (by dsimp only at hj ⊢; have : twoUnits.env.space.sz.toNat = 4096 := rfl; omega)

/-- The last sizes are taken for 0: the block has no room for a byte. -/
theorem twoUnits_wraps {nbytes : Nat} (hlow : 2 ^ 32 - 8 < nbytes) (hhigh : nbytes < 2 ^ 32) :
    ¬ Clean nbytes twoUnits.env (malloc (kernel someLayout) twoUnits 8 nbytes) := by
  have hunits : nunits nbytes = nunits 0 := by
    unfold nunits WORD
    omega
  have hmalloc : malloc (kernel someLayout) twoUnits 8 nbytes = malloc (kernel someLayout) twoUnits 8 0 := by
    rw [malloc, malloc, hunits]
  have heval : (malloc (kernel someLayout) twoUnits 8 0).toOption.map (fun r => (r.1, r.2.size 24)) = some (32, 1) := by
    decide +kernel
  rintro ⟨ap, h, heq, -, -, hres⟩
  rw [← hmalloc, heq] at heval
  obtain ⟨rfl, hsize⟩ : ap = 32 ∧ h.size 24 = 1 := by simpa [Except.toOption] using heval
  rcases hres with h0 | ⟨hle, -⟩
  · omega
  · rw [show 32 - 8 = 24 from rfl, hsize] at hle
    omega

/-- `malloc` of a size is clean in every process and every state of the allocator exactly if
the size is at most 2^31 - 16. -/
theorem malloc_clean_iff {nbytes : Nat} (hword : nbytes < 2 ^ 32) :
    (∀ L base h live, Valid L base h live → Clean nbytes h.env (malloc (kernel L) h base nbytes)) ↔
      nbytes ≤ 2 ^ 31 - 16 := by
  constructor
  · intro hall
    by_contra hlarge
    by_cases hneg : nbytes ≤ 2 ^ 32 - 16
    · exact firstCall_negative (by omega) hneg (hall _ _ _ _ firstCall_valid)
    by_cases hzero : nbytes ≤ 2 ^ 32 - 8
    · obtain ⟨ap, h, hmalloc, -⟩ := hall _ _ _ _ firstCall_valid
      rw [firstCall_zero (by omega) hzero] at hmalloc
      cases hmalloc
    · exact twoUnits_wraps (by omega) hword (hall _ _ _ _ twoUnits_valid)
  · intro hle L base h live hv
    refine hv.clean ?_
    unfold Small
    omega

theorem firstCall_clean : Clean 10 firstCall.env (malloc (kernel someLayout) firstCall 8 10) :=
  (malloc_clean_iff (by decide)).2 (by decide) _ _ _ _ firstCall_valid

/-- `malloc(0xffffffff)` returns a block that has no room for a byte; `malloc(0xffffffe8)` asks
`sbrk` for -16 bytes, which shrinks the process, and stores behind its end. -/
theorem huge_requests :
    (malloc (kernel someLayout) twoUnits 8 0xffffffff).toOption.map (fun r => (r.1, r.2.size (r.1 - 8))) = some (32, 1) ∧
      ((kernel someLayout).sbrk firstCall.env (BitVec.ofNat 32 (nunits 0xffffffe8 * 8))).toOption.map
        (fun r => (r.1.space.sz, r.1.calls.map BitVec.toInt)) = some (4080#32, [-16]) := by
  constructor <;> decide +kernel

end Xv6.Umalloc
