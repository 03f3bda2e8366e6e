import Xv6.Vm.Boot
/-!
# Every page has one owner

The pages behind the kernel are those on the free list, those of the processes
that were not waited for, those of the pipes with an open end, and those that
boot keeps. An argument of `exec` of 32 MB takes the stack pointer around to
addresses without a page table, and then the running process decides where
`copyout` writes.
-/

namespace Xv6

open Outcome Runs

/-- The sum of all pages with their owners; nobody has a page twice. -/
structure Machine.Conserved {P : Type} [Fintype P] (L : Layout) (taken : Taken) (s : Machine P) : Prop where
  total : s.kmem.free + s.processes + s.ft.livePipes.val + taken.pages = L.frames
  nodup : (s.kmem.free + s.processes + s.ft.livePipes.val + taken.pages).Nodup

section

variable {P : Type} [Fintype P] {L : Layout} {taken : Taken} {s : Machine P}

theorem Machine.Inv.conserved (h : s.Inv L taken.pages []) : s.Conserved L taken := by
  have htotal : s.kmem.free + s.processes + s.ft.livePipes.val + taken.pages = L.frames := by
    rw [← h.pages, Machine.used, add_assoc, add_assoc, add_assoc]
  exact ⟨htotal, htotal ▸ L.frames_nodup⟩

end

/-! ## A stack pointer that wraps around -/

section Wrapped

variable {L : Layout} {k k' : Kmem} {d cur : Pgdir} {a b : Page} {e : Pte} {m : Nat} {tail : List Page}

/-- The first page of the string goes to the frame that this word names, and the next one
would be a page of the devices. -/
theorem copyout_wrapped {f : Nat → BitVec 8} {len : Nat} {e' : Pte} (hlen : PGSIZE < len)
    (hgap : uva2ka cur k d 0xFDFFF = .ok (some b)) (hdev : d.get 0xFE000 = some e') (huser : e'.user = false) :
    copyout cur d 0xFDFFF000#32 f len k = .ok (false, k.store b 0 PGSIZE f) := by
  have hva : (0xFDFFF000#32).toNat / PGSIZE = 0xFDFFF ∧ (0xFDFFF000#32).toNat % PGSIZE = 0 := by decide
  have hnext : BitVec.ofNat 32 ((0xFDFFF + 1) * PGSIZE) = 0xFE000000#32 := by decide
  have hva' : (0xFE000000#32).toNat / PGSIZE = 0xFE000 := by decide
  obtain ⟨fuel, rfl⟩ : ∃ fuel, len = fuel + 1 + 1 := ⟨len - 2, by unfold PGSIZE at hlen; omega⟩
  rw [copyout, copyoutLoop, if_neg (Nat.not_le.2 (Nat.succ_pos _)), hva.1, hva.2, hnext, hgap]
  dsimp only [bind, Except.bind]
  rw [Nat.sub_zero, Nat.sub_zero, Nat.min_eq_left hlen.le, Nat.zero_add, copyoutLoop, if_neg (Nat.not_le.2 hlen), hva',
    uva2ka_mapped hdev, huser]
  simp only [Nat.zero_add]
  rfl

theorem upTo_append {l r : List Page} (h : b ∉ l) : upTo b (l ++ b :: r) = l ++ [b] := by
  induction l with
  | nil => rw [List.nil_append, upTo, if_pos rfl, List.nil_append]
  | cons q l ih =>
    obtain ⟨hq, hl⟩ := not_or.1 (List.mem_cons.not.1 h)
    rw [List.cons_append, upTo, if_neg (Ne.symm hq), ih hl, List.cons_append]

/-- A stray store in the last free page but one. -/
theorem store_loses {f : Nat → BitVec 8} (hrich : k.Rich m [b, a]) (hnodup : k.free.Nodup) :
    a ::ₘ (k.store b 0 PGSIZE f).free = k.free := by
  obtain ⟨-, l, hl, -⟩ := hrich
  have hb : b ∉ l := by
    rw [Kmem.free, hl] at hnodup
    exact fun hin => List.disjoint_of_nodup_append hnodup hin (List.mem_cons_self ..)
  have hcut : (k.store b 0 PGSIZE f).freelist = l ++ [b] := by
    unfold Kmem.store
    dsimp only
    rw [if_pos (by decide), hl, upTo_append hb]
  have hperm : (a :: (l ++ [b])).Perm (l ++ [b, a]) := by
    have hmove := (List.perm_append_singleton a (l ++ [b])).symm
    rwa [List.append_assoc] at hmove
  rw [Kmem.free, Kmem.free, hcut, hl, Multiset.cons_coe]
  exact Multiset.coe_eq_coe.2 hperm

/-- A string of this length puts the stack pointer on the last page below the devices. -/
def longArg : Arg := ⟨0x2002FFF, fun _ => 1⟩

theorem pushStack_wrapped {e' : Pte} (hgap : uva2ka cur k d 0xFDFFF = .ok (some b))
    (hdev : d.get 0xFE000 = some e') (huser : e'.user = false) :
    pushStack cur d [longArg] (BitVec.ofNat 32 (2 * PGSIZE)) k =
      .ok (false, k.store b 0 PGSIZE fun i => if i < longArg.len then longArg.byte i else 0) := by
  have hsp : (BitVec.ofNat 32 (2 * PGSIZE) - BitVec.ofNat 32 (longArg.len + 1)) &&& ~~~3#32 = 0xFDFFF000#32 := by decide
  have hlong : PGSIZE < longArg.len + 1 := by decide
  have hcopy := copyout_wrapped (f := fun i => if i < longArg.len then longArg.byte i else 0) hlong hgap hdev huser
  unfold pushStack pushArgs
  rw [if_neg (by decide)]
  dsimp only
  rw [hsp, hcopy]
  rfl

/-- The new image has room for the stack only; the word at address 0 names the free page `b`. -/
theorem fillImage_wrapped {w : BitVec 32} (hfresh : Fresh L d) (hs : Sound L k d.owned) (hrich : k.Rich 4 [b, a])
    (hcur : cur.get 0 = some e) (hfree : e.page ∉ k.free)
    (hword : firstWord (k.content e.page) = w) (hpresent : w.getLsbD 0 = true) (huser : w.getLsbD 2 = true)
    (hb : w.toNat / PGSIZE = b) (htop : b < PHYSTOP / PGSIZE) :
    Ends (fun _ => False) (fillImage L cur ⟨true, []⟩ [longArg] k d) fun r =>
      r.1 = none ∧ Sound L r.2.2 r.2.1.owned ∧ a ::ₘ r.2.2.free + r.2.1.owned = k.free + d.owned := by
  have himg := Image.of_fresh hfresh
  have hround : PGROUNDUP 0 = 0 := by decide
  have hrich' : k.Rich (0 + 2 * (pagesUp (2 * PGSIZE) - pagesUp 0)) [b, a] := hrich.mono (by decide)
  unfold fillImage loadSegs
  refine Ends.bind (Q := (· = (some 0, d, k))) rfl ?_
  rintro _ rfl
  dsimp only
  rw [hround, Nat.zero_add]
  refine ((allocuvm_ends hs fun u hle hlt => himg.none hle hlt).and
    (allocuvm_rich (by decide) (by decide) hrich')).bind fun r hr => ?_
  obtain ⟨sz, d₁, k₁⟩ := r
  obtain ⟨hr, hsz, hrich₁, hpde, htouch⟩ := hr
  obtain rfl : sz = 2 * PGSIZE := hsz
  have himg₁ : Image d₁ (2 * PGSIZE) := himg.grown hr (by decide : 2 * PGSIZE ≠ 0)
  have hs₁ : Sound L k₁ d₁.owned := hs.of_eq hr.pages
  dsimp only
  rw [if_neg (by decide)]
  refine (clearpteu_ends himg₁ (by decide)).bind fun d₂ hd₂ => ?_
  obtain ⟨howned, himg₂, hsome⟩ := hd₂
  have hgap : d₂.pde (PDX 0xFDFFF) = none := by
    have hd : d₁.pde (PDX 0xFDFFF) = none :=
      (hpde _ (not_isUser (by decide) (by decide))).trans (hfresh.gap _ (by decide) (by decide))
    rw [← Option.not_isSome_iff_eq_none, hsome, hd]
    decide
  obtain ⟨e', hdev, hdevUser⟩ := himg₂.devices 0xFE000 (by decide) (by decide)
  have htouch₁ : Untouched k k₁ := htouch (by decide)
  have hword₁ : firstWord (k₁.content e.page) = w := (congrArg firstWord (htouch₁.2 _ hfree)).trans hword
  rw [pushStack_wrapped (uva2ka_gap hgap hcur hword₁ hpresent huser hb htop) hdev hdevUser]
  have hlost := store_loses (f := fun i => if i < longArg.len then longArg.byte i else 0) hrich₁
    (Multiset.nodup_of_le (Multiset.le_add_right ..) hs₁.nodup)
  refine ⟨rfl, (hs₁.of_le (hlost ▸ Multiset.le_cons_self ..)).of_eq (by rw [howned]), ?_⟩
  change a ::ₘ (k₁.store b 0 PGSIZE _).free + d₂.owned = _
  rw [hlost, howned]
  exact hr.pages

/-- `exec` with such an argument fails, and the last free page is gone. -/
theorem exec_wrapped {s : Space} {w : BitVec 32} (hs : Sound L k s.pgdir.owned)
    (hrich : k.Rich (4 + NPDENTRIES / 2 + 1) [b, a]) (hcur : s.pgdir.get 0 = some e) (hfree : e.page ∉ k.free)
    (hword : firstWord (k.content e.page) = w) (hpresent : w.getLsbD 0 = true) (huser : w.getLsbD 2 = true)
    (hb : w.toNat / PGSIZE = b) (htop : b < PHYSTOP / PGSIZE) :
    Ends (fun _ => False) (s.exec L k ⟨true, []⟩ [longArg]) fun r => r.2.1 = s ∧ a ::ₘ r.2.2.free = k.free := by
  unfold Space.exec
  rw [if_neg (by decide)]
  refine ((setupkvm_ends (hs.mono (Multiset.zero_le _))).and setupkvm_untouched).bind fun r hr => ?_
  obtain ⟨x, k₁⟩ := r
  obtain ⟨⟨hpages, hfresh, hok⟩, htouch⟩ := hr
  obtain ⟨⟨d, hd⟩, hrich₁⟩ := hok 4 _ hrich
  obtain rfl : x = some d := hd
  have hpages₁ : k₁.free + d.owned = k.free := hpages
  have htouch₁ : Untouched k k₁ := htouch rfl
  have hs₁ : Sound L k₁ d.owned := (hs.mono (Multiset.zero_le _)).of_eq (by rw [hpages₁, add_zero])
  dsimp only
  refine (fillImage_wrapped (hfresh d rfl) hs₁ hrich₁ hcur (fun hin => hfree (Multiset.mem_of_le htouch₁.1 hin))
    ((congrArg firstWord (htouch₁.2 _ hfree)).trans hword) hpresent huser hb htop).bind fun r hr => ?_
  obtain ⟨sz, d₂, k₂⟩ := r
  obtain ⟨hnone, hs₂, hlost⟩ := hr
  obtain rfl : sz = none := hnone
  refine (freevm_ends hs₂).bind fun k₃ hk₃ => ⟨rfl, ?_⟩
  change a ::ₘ k₃.free = k.free
  rw [hk₃, ← hpages₁, ← hlost, Multiset.cons_add]

theorem growproc_grown {s : Space} (hsz : s.sz = 0x1000#32) (hsized : s.Sized) (hs : Sound L k s.pgdir.owned)
    (hrich : k.Rich (m + 2 * 0x2003) tail) :
    Ends (fun _ => False) (growproc L k s 0x2003000#32) fun r =>
      r.2.1.sz = 0x2004000#32 ∧ r.2.1.pgdir.get 0 = s.pgdir.get 0 ∧ r.2.2.Rich m tail := by
  have hold : s.sz.toNat = PGSIZE := by
    rw [hsz]
    decide
  have hnew : (s.sz + 0x2003000#32).toNat = 0x2004 * PGSIZE := by
    rw [hsz]
    decide
  have hrich' : k.Rich (m + 2 * (pagesUp (0x2004 * PGSIZE) - pagesUp PGSIZE)) tail := by
    have hup : pagesUp (0x2004 * PGSIZE) - pagesUp PGSIZE = 0x2003 := by decide
    rwa [hup]
  unfold growproc
  rw [if_pos (by decide), hold, hnew]
  refine ((allocuvm_ends hs fun u hle hlt => hsized.above u (by rwa [hold]) hlt).and
    (allocuvm_rich (by decide) (by decide) hrich')).bind fun r hr => ?_
  obtain ⟨sz, d, k'⟩ := r
  obtain ⟨hr, hsz', hrich', -⟩ := hr
  obtain rfl : sz = 0x2004 * PGSIZE := hsz'
  dsimp only
  rw [if_neg (by decide)]
  exact ⟨rfl, hr.outside 0 (by decide) (by decide), hrich'⟩

end Wrapped

/-! ## A page is lost -/

namespace Machine

variable {P : Type} [Fintype P] [DecidableEq P] {L : Layout} {o : Multiset Page} {s : Machine P} {p : P} {q : Page}
  {sz : BitVec 32} {m : Nat} {tail : List Page}

/-- A process of size `sz` with its first page mapped to frame `q`, and memory enough. -/
structure Ready (L : Layout) (o : Multiset Page) (p : P) (q : Page) (sz : BitVec 32) (m : Nat) (tail : List Page)
    (s : Machine P) : Prop where
  inv : s.Inv L o []
  rich : s.kmem.Rich m tail
  proc : ∃ x, s.proc p = some x ∧ x.zombie = false ∧ x.space.sz = sz ∧ x.space.pgdir.get 0 = some ⟨q, true, true⟩

omit [Fintype P] in
theorem step_eq {x : Mproc P} {c : Call P} (hx : s.proc p = some x) (hz : x.zombie = false) :
    step L s ⟨p, [], c⟩ = (syscall L { s with kmem := { s.kmem with fails := [] } } p x c).toOption := by
  unfold step
  rw [hx]
  dsimp only
  rw [hz, if_neg (by decide)]

theorem Ready.store (h : Ready L o p q sz m tail s) {a : BitVec 32} (b : BitVec 8) (ha : a.toNat < PGSIZE) :
    ∃ t, step L s ⟨p, [], .store a b⟩ = some t ∧ Ready L o p q sz m tail t ∧
      t.kmem.content q = fun i => if i.val = a.toNat then b else s.kmem.content q i := by
  obtain ⟨x, hx, hz, hsz, hget⟩ := h.proc
  have hpage : x.space.pgdir.get (a.toNat / PGSIZE) = some ⟨q, true, true⟩ := by rwa [Nat.div_eq_of_lt ha]
  have hmay : a.toNat < KERNBASE ∧ true = true ∧ true = true := ⟨ha.trans (by decide), rfl, rfl⟩
  have hstore : ∀ k, Machine.store { s with kmem := k } x a b = { s with kmem := k.store q a.toNat 1 fun _ => b } := by
    intro k
    unfold Machine.store
    rw [hpage]
    dsimp only
    rw [if_pos hmay, Nat.mod_eq_of_lt ha]
  have hstep : step L s ⟨p, [], .store a b⟩ =
      some { s with kmem := Kmem.store { s.kmem with fails := [] } q a.toNat 1 fun _ => b } := by
    rw [step_eq hx hz, syscall, hstore]
    rfl
  have hq : q ∉ s.kmem.freelist := (h.inv.space hx).not_free (Pgdir.mem_owned hget (by decide))
  refine ⟨_, hstep, ⟨step_inv (l := ⟨p, [], .store a b⟩) h.inv trivial hstep, ?_, x, hx, hz, hsz, hget⟩, ?_⟩
  · obtain ⟨-, l, hl, hm⟩ := h.rich
    refine ⟨rfl, l, ?_, hm⟩
    exact (store_sameList (k := { s.kmem with fails := [] }) hq).1.trans hl
  · refine (Function.update_self ..).trans (funext fun i => ?_)
    refine if_congr ?_ rfl rfl
    omega

/-- Four stores put a word at address 0. -/
theorem Ready.word (h : Ready L o p q sz m tail s) (b₀ b₁ b₂ b₃ : BitVec 8) :
    ∃ t, Run (step L) (fun _ _ => True) s t ∧ Ready L o p q sz m tail t ∧
      firstWord (t.kmem.content q) = b₃ ++ b₂ ++ b₁ ++ b₀ := by
  obtain ⟨t₀, hstep₀, h₀, hc₀⟩ := h.store (a := 0) b₀ (by decide)
  obtain ⟨t₁, hstep₁, h₁, hc₁⟩ := h₀.store (a := 1) b₁ (by decide)
  obtain ⟨t₂, hstep₂, h₂, hc₂⟩ := h₁.store (a := 2) b₂ (by decide)
  obtain ⟨t₃, hstep₃, h₃, hc₃⟩ := h₂.store (a := 3) b₃ (by decide)
  refine ⟨t₃, ((((Run.refl s).tail trivial hstep₀).tail trivial hstep₁).tail trivial hstep₂).tail trivial hstep₃, h₃, ?_⟩
  rw [hc₃, hc₂, hc₁, hc₀]
  rfl

/-- `sbrk` of more bytes than the string has. -/
theorem Ready.sbrk (h : Ready L o p q 0x1000#32 (m + 2 * 0x2003) tail s) :
    ∃ t, step L s ⟨p, [], .sbrk 0x2003000#32⟩ = some t ∧ Ready L o p q 0x2004000#32 m tail t := by
  obtain ⟨x, hx, hz, hsz, hget⟩ := h.proc
  have hs := (h.inv.setFails []).space hx
  obtain ⟨-, hrich⟩ := h.rich
  obtain ⟨r, hr, hsz', hget', hrich'⟩ := (growproc_grown hsz (h.inv.procs p x hx).sized hs ⟨rfl, hrich⟩).ok
  have hstep : step L s ⟨p, [], .sbrk 0x2003000#32⟩ =
      some ({ s with kmem := r.2.2 }.setProc p (some { x with space := r.2.1 })) := by
    rw [step_eq hx hz, syscall, Machine.sbrk, hr]
    rfl
  refine ⟨_, hstep, step_inv (l := ⟨p, [], .sbrk 0x2003000#32⟩) h.inv trivial hstep, hrich', _, setProc_self _, hz, hsz',
    hget'.trans hget⟩

/-- The free list of `t` and the owners in `t` are without `a`. -/
theorem Ready.exec {a b : Page} {w : BitVec 32} (h : Ready L o p q sz (4 + NPDENTRIES / 2 + 1) [b, a] s)
    (hword : firstWord (s.kmem.content q) = w) (hpresent : w.getLsbD 0 = true) (huser : w.getLsbD 2 = true)
    (hb : w.toNat / PGSIZE = b) (htop : b < PHYSTOP / PGSIZE) :
    ∃ t, step L s ⟨p, [], .exec ⟨true, []⟩ [longArg]⟩ = some t ∧ a ::ₘ (t.kmem.free + t.used o) = L.frames := by
  obtain ⟨x, hx, hz, hsz, hget⟩ := h.proc
  have hinv := h.inv.setFails []
  obtain ⟨-, hrich⟩ := h.rich
  obtain ⟨r, hr, hspace, hlost⟩ := (exec_wrapped (hinv.space hx) ⟨rfl, hrich⟩ hget
    ((hinv.space hx).not_free (Pgdir.mem_owned hget (by decide))) hword hpresent huser hb htop).ok
  have hsame : ∀ k, ({ s with kmem := k } : Machine P).setProc p (some x) = { s with kmem := k } := by
    intro k
    unfold setProc
    dsimp only
    rw [← hx, Function.update_eq_self]
  have hstep : step L s ⟨p, [], .exec ⟨true, []⟩ [longArg]⟩ = some { s with kmem := r.2.2 } := by
    rw [step_eq hx hz, syscall, Machine.exec, hr]
    dsimp only [Except.mapError, bind, Except.bind]
    rw [hspace]
    exact congrArg some (hsame r.2.2)
  have hused : ({ s with kmem := r.2.2 } : Machine P).used o =
      ({ s with kmem := { s.kmem with fails := [] } } : Machine P).used o := by
    unfold used processes
    rfl
  refine ⟨_, hstep, ?_⟩
  rw [hused, ← Multiset.cons_add, hlost]
  exact hinv.pages

end Machine

theorem boot_ready (initcode : PageData) (content : Page → PageData) : ∃ (s : Machine (Fin 64)) (taken : Taken) (q : Page),
    boot someLayout 1 initcode content 0 = .ok (s, taken) ∧ s.Ready someLayout taken.pages 0 q 0x1000#32 55000 [301, 300] := by
  have hroom : someLayout.first + 2 + (1 + NPDENTRIES / 2 + 1) ≤ lowFrames := by decide +kernel
  have hb : Ends _ (boot someLayout 1 initcode content (0 : Fin 64)) (Booted someLayout 1 2 0) := boot_ends
  obtain ⟨⟨s, taken⟩, hs, hb⟩ := (hb.weaken (E := fun _ => False) fun _ h => Nat.not_lt.2 hroom h).ok
  obtain ⟨x, q, hx, hz, hsz, hget⟩ := hb.init
  exact ⟨s, taken, q, hs, hb.inv, hb.rich hroom, x, hx, hz, hsz, hget⟩

/-- The memory of the first process after `sbrk`. -/
theorem boot_sbrk (initcode : PageData) (content : Page → PageData) :
    ∃ (s₀ s : Machine (Fin 64)) (taken : Taken) (q : Page), boot someLayout 1 initcode content 0 = .ok (s₀, taken) ∧
      Machine.step someLayout s₀ ⟨0, [], .sbrk 0x2003000#32⟩ = some s ∧
      s.Ready someLayout taken.pages 0 q 0x2004000#32 (4 + NPDENTRIES / 2 + 1) [301, 300] := by
  obtain ⟨s₀, taken, q, hboot, h₀⟩ := boot_ready initcode content
  have hready : s₀.Ready someLayout taken.pages 0 q 0x1000#32 (4 + NPDENTRIES / 2 + 1 + 2 * 0x2003) [301, 300] :=
    ⟨h₀.inv, h₀.rich.mono (by decide), h₀.proc⟩
  obtain ⟨s, hstep, h⟩ := hready.sbrk
  exact ⟨s₀, s, taken, q, hboot, hstep, h⟩

/-! ## The pages since boot -/

/-- From boot on, in runs without a long argument of `exec`: in every state the pages are
those of boot, each with one owner, and the next call ends in such a state, or panics on a
page that `fork` misses or because `init` exits. -/
theorem pages_conserved {P : Type} [Fintype P] [DecidableEq P] {L : Layout} {n : Nat} {initcode : PageData}
    {content : Page → PageData} {p : P} {s₀ s : Machine P} {taken : Taken}
    (hboot : boot L n initcode content p = .ok (s₀, taken))
    (hrun : Run (Machine.step L) (fun _ l => l.call.Safe) s₀ s) :
    s.Conserved L taken ∧ ∀ q x fails (c : Machine.Call P), s.proc q = some x → x.zombie = false → c.Safe →
      Ends Machine.Harmless (Machine.syscall L { s with kmem := { s.kmem with fails := fails } } q x c)
        (Machine.Conserved L taken) := by
  have hb : Ends _ (boot L n initcode content p) (Booted L n 0 p) := boot_ends
  rw [hboot] at hb
  have hs : s.Inv L taken.pages [] := hrun.inv (fun s => s.Inv L taken.pages []) (fun _ _ _ => Machine.step_inv) hb.inv
  refine ⟨hs.conserved, fun q x fails c hx hz hc => ?_⟩
  exact (Machine.syscall_ends (hs.setFails fails) hx hz hc).mono fun _ ht => ht.conserved

theorem sbrk_conserves : ∃ (s₀ s : Machine (Fin 64)) (taken : Taken),
    boot someLayout 1 (fun _ => 0) (fun _ _ => 0) 0 = .ok (s₀, taken) ∧
      Machine.step someLayout s₀ ⟨0, [], .sbrk 0x2003000#32⟩ = some s ∧ s.Conserved someLayout taken := by
  obtain ⟨s₀, s, taken, q, hboot, hstep, -⟩ := boot_sbrk (fun _ => 0) (fun _ _ => 0)
  exact ⟨s₀, s, taken, hboot, hstep, (pages_conserved hboot (.single (l := ⟨0, [], .sbrk 0x2003000#32⟩) trivial hstep)).1⟩

/-- The first process takes 32 MB, stores at address 0 an entry for the free page 301, and
calls `exec` with a string that its memory has room for: the call fails, and nobody has
page 300. -/
theorem exec_loses_page : ∃ (s₀ s t : Machine (Fin 64)) (taken : Taken),
    boot someLayout 1 (fun _ => 0) (fun _ _ => 0) 0 = .ok (s₀, taken) ∧
      Run (Machine.step someLayout) (fun _ _ => True) s₀ s ∧
      (∃ x, s.proc 0 = some x ∧ longArg.len < x.space.sz.toNat) ∧
      Machine.step someLayout s ⟨0, [], .exec ⟨true, []⟩ [longArg]⟩ = some t ∧
      300 ∈ someLayout.frames ∧ 300 ∉ t.kmem.free + t.processes + t.ft.livePipes.val + taken.pages := by
  obtain ⟨s₀, s₁, taken, q, hboot, hstep₁, h₁⟩ := boot_sbrk (fun _ => 0) (fun _ _ => 0)
  obtain ⟨s, hrun, h, hword⟩ := h₁.word 0x07 0xD0 0x12 0x00
  obtain ⟨t, hstep, hlost⟩ := h.exec hword (by decide) (by decide) (by decide) (by decide)
  obtain ⟨x, hx, -, hsz, -⟩ := h.proc
  refine ⟨s₀, s, t, taken, hboot, (Run.single trivial hstep₁).trans hrun, ⟨x, hx, ?_⟩, hstep, ?_, ?_⟩
  · rw [hsz]
    decide
  · rw [← hlost]
    exact Multiset.mem_cons_self ..
  · have hnodup := someLayout.frames_nodup
    rw [← hlost, Machine.used, ← add_assoc, ← add_assoc] at hnodup
    exact (Multiset.nodup_cons.1 hnodup).1

end Xv6
