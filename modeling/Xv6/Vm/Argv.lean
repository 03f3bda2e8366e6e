import Xv6.Vm.Load
/-!
# The arguments on the new stack

`exec` takes the stack pointer down by the length of each string and copies it
there with `copyout`, which is stopped by the closed page below the stack: a
string that begins below the stack has to pass it. A stack pointer that has
gone below 0 and around is stopped by the kernel's pages or the devices',
except in the gap between them, where there are no page tables.
-/

namespace Xv6

open Outcome

variable {L : Layout} {k k' : Kmem} {cur d : Pgdir} {e : Pte} {f : Nat → BitVec 8} {len sz g : Nat} {va : BitVec 32}

/-! ## One copy -/

theorem copyoutLoop_done (fuel done : Nat) (h : len ≤ done) : copyoutLoop cur d f len fuel done va k = .ok (true, k) := by
  cases fuel with
  | zero => rfl
  | succ fuel => exact if_pos h

/-- The pages that `uva2ka` looks up in a copy. -/
def copyoutWalks (cur d : Pgdir) (f : Nat → BitVec 8) (len : Nat) : Nat → Nat → BitVec 32 → Kmem → List Nat
  | 0, _, _, _ => []
  | fuel + 1, done, va, k =>
    if len ≤ done then []
    else va.toNat / PGSIZE ::
      match uva2ka cur k d (va.toNat / PGSIZE) with
      | .ok (some p) =>
        let o := va.toNat % PGSIZE
        let n := min (PGSIZE - o) (len - done)
        copyoutWalks cur d f len fuel (done + n) (BitVec.ofNat 32 ((va.toNat / PGSIZE + 1) * PGSIZE))
          (k.store p o n fun i => f (done + i))
      | _ => []

theorem copyoutWalks_done (fuel done : Nat) (h : len ≤ done) : copyoutWalks cur d f len fuel done va k = [] := by
  cases fuel with
  | zero => rfl
  | succ fuel => exact if_pos h

/-- A copy within one page of user memory. -/
theorem copyout_page (cur : Pgdir) (he : d.get (va.toNat / PGSIZE) = some e) (huser : e.user = true) (hlen : 0 < len)
    (hfit : va.toNat % PGSIZE + len ≤ PGSIZE) :
    copyout cur d va f len k = .ok (true, k.store e.page (va.toNat % PGSIZE) len f) ∧
      copyoutWalks cur d f len len 0 va k = [va.toNat / PGSIZE] := by
  obtain ⟨len, rfl⟩ := Nat.exists_eq_succ_of_ne_zero hlen.ne'
  have hn : min (PGSIZE - va.toNat % PGSIZE) (len.succ - 0) = len.succ := by omega
  unfold copyout copyoutLoop copyoutWalks
  rw [if_neg (by omega), if_neg (by omega), uva2ka_mapped he, huser, if_pos rfl]
  dsimp only [bind, Except.bind]
  rw [hn, copyoutLoop_done _ _ (Nat.zero_add _).ge, copyoutWalks_done _ _ (Nat.zero_add _).ge]
  simp only [Nat.zero_add, and_self]

/-- A page that is not the user's stops a copy. -/
theorem copyout_closed (cur : Pgdir) (he : d.get (va.toNat / PGSIZE) = some e) (huser : e.user = false) (hlen : 0 < len) :
    copyout cur d va f len k = .ok (false, k) ∧ copyoutWalks cur d f len len 0 va k = [va.toNat / PGSIZE] := by
  obtain ⟨len, rfl⟩ := Nat.exists_eq_succ_of_ne_zero hlen.ne'
  unfold copyout copyoutLoop copyoutWalks
  rw [if_neg (by omega), if_neg (by omega), uva2ka_mapped he, huser]
  exact ⟨rfl, rfl⟩

/-- What a copy that fails has done to the memory of the directory. -/
def Spoilt (k : Kmem) (d : Pgdir) (k' : Kmem) : Prop := SameList k k' ∧ Confined k d.owned k'

theorem Spoilt.refl (k : Kmem) (d : Pgdir) : Spoilt k d k := ⟨.refl k, fun _ _ => rfl⟩

theorem Spoilt.trans {k'' : Kmem} (h : Spoilt k d k') (h' : Spoilt k' d k'') : Spoilt k d k'' :=
  ⟨h.1.trans h'.1, h.2.trans (congrArg (· + d.owned) h.1.free) h'.2⟩

theorem Spoilt.store {u o n : Nat} (he : d.get u = some e) (hu : u < KERNBASE / PGSIZE) (hs : Sound L k d.owned) :
    Spoilt k d (k.store e.page o n f) := by
  have hmem := Pgdir.mem_owned he hu
  refine ⟨store_sameList (hs.not_free hmem), fun q hq => Function.update_of_ne ?_ ..⟩
  rintro rfl
  exact hq (Multiset.mem_add.2 (.inr hmem))

/-- A copy that begins below the closed page `g` or in it, and goes on behind its start,
fails there. -/
theorem copyoutLoop_guard (cur : Pgdir) (fuel done : Nat) (va : BitVec 32) (himg : Image d sz) (hs : Sound L k d.owned)
    (he : d.get g = some e) (huser : e.user = false) (hg : g < pagesUp sz) (hfuel : len ≤ done + fuel)
    (hva : va.toNat / PGSIZE ≤ g) (hend : g * PGSIZE < va.toNat + (len - done)) (hmore : done < len) :
    (Ends (fun _ => False) (copyoutLoop cur d f len fuel done va k) fun r => r.1 = false ∧ Spoilt k d r.2) ∧
      ∀ v ∈ copyoutWalks cur d f len fuel done va k, v ≤ g := by
  have hgK := hg.trans_le (pagesUp_le himg.size.le)
  induction fuel generalizing k done va with
  | zero => omega
  | succ fuel ih =>
    obtain ⟨e', he', hlt⟩ := himg.some (u := va.toNat / PGSIZE) (by omega)
    unfold copyoutLoop copyoutWalks
    rw [if_neg (by omega), if_neg (by omega), uva2ka_mapped he']
    dsimp only [bind, Except.bind]
    by_cases huser' : e'.user = true
    · have hlow : va.toNat / PGSIZE < g := by
        refine lt_of_le_of_ne hva fun heq => ?_
        rw [heq, he] at he'
        cases he'
        rw [huser] at huser'
        cases huser'
      have hmul : (va.toNat / PGSIZE + 1) * PGSIZE ≤ g * PGSIZE := Nat.mul_le_mul_right _ hlow
      have hnext : (BitVec.ofNat 32 ((va.toNat / PGSIZE + 1) * PGSIZE)).toNat = (va.toNat / PGSIZE + 1) * PGSIZE := by
        refine (BitVec.toNat_ofNat ..).trans (Nat.mod_eq_of_lt (hmul.trans_lt ?_))
        exact (Nat.mul_lt_mul_of_pos_right hgK (by decide)).trans_le (by decide)
      have hn : min (PGSIZE - va.toNat % PGSIZE) (len - done) = PGSIZE - va.toNat % PGSIZE := by
        unfold PGSIZE at *
        omega
      rw [if_pos huser', hn]
      dsimp only
      have hstep := Spoilt.store (f := fun i => f (done + i)) (o := va.toNat % PGSIZE) (n := PGSIZE - va.toNat % PGSIZE)
        he' hlt hs
      have hrest := ih (done + (PGSIZE - va.toNat % PGSIZE)) _ (hstep.1.sound hs) (by unfold PGSIZE at *; omega)
        (by rw [hnext]; unfold PGSIZE at *; omega) (by rw [hnext]; unfold PGSIZE at *; omega)
        (by unfold PGSIZE at *; omega)
      refine ⟨hrest.1.mono fun r hr => ⟨hr.1, hstep.trans hr.2⟩, fun v hv => ?_⟩
      obtain rfl | hv := List.mem_cons.1 hv
      · exact hva
      · exact hrest.2 v hv
    · rw [if_neg huser']
      refine ⟨⟨rfl, .refl k d⟩, fun v hv => ?_⟩
      obtain rfl := List.mem_singleton.1 hv
      exact hva

/-! ## The calls of copyout that exec makes -/

namespace Exec

/-- The arguments of a call. -/
structure Copy where
  va : BitVec 32
  byte : Nat → BitVec 8
  len : Nat

namespace Copy

def run (cur d : Pgdir) (c : Copy) (k : Kmem) : Except VmPanic (Bool × Kmem) := copyout cur d c.va c.byte c.len k

def walks (cur d : Pgdir) (c : Copy) (k : Kmem) : List Nat := copyoutWalks cur d c.byte c.len c.len 0 c.va k

end Copy

/-- The stack pointer below the next string. -/
def below (sp : BitVec 32) (a : Arg) : BitVec 32 := (sp - BitVec.ofNat 32 (a.len + 1)) &&& ~~~3#32

/-- The copy of a string. -/
def argCopy (sp : BitVec 32) (a : Arg) : Copy := ⟨below sp a, fun i => if i < a.len then a.byte i else 0, a.len + 1⟩

/-- The calls in order, if none of them fails. -/
def copies : List Arg → BitVec 32 → List (BitVec 32) → List Copy
  | [], sp, ptrs =>
    let n := (3 + ptrs.length + 1) * 4
    [⟨sp - BitVec.ofNat 32 n, wordBytes (ustack sp ptrs), n⟩]
  | a :: as, sp, ptrs =>
    if MAXARG ≤ ptrs.length then []
    else argCopy sp a :: copies as (below sp a) (ptrs ++ [below sp a])

/-- `P` holds of every call that is made, with the memory it finds: the calls before it
have returned 0. -/
def EachCall (cur d : Pgdir) (P : Copy → Kmem → Prop) : List Copy → Kmem → Prop
  | [], _ => True
  | c :: cs, k => P c k ∧ ∀ k', c.run cur d k = .ok (true, k') → EachCall cur d P cs k'

/-- The calls one after another, up to one that fails. -/
def runCopies (cur d : Pgdir) : List Copy → Kmem → Except VmPanic (Bool × Kmem)
  | [], k => .ok (true, k)
  | c :: cs, k => do
    let (ok, k) ← c.run cur d k
    if ok then runCopies cur d cs k else .ok (false, k)

section

variable {img : Nat → BitVec 8} {sp : BitVec 32} {a : Arg} {c : Copy} {cs : List Copy} {as : List Arg}
  {ptrs : List (BitVec 32)}

/-- `exec` makes these calls, and there was room if they all return 0. -/
theorem pushArgs_copies (as : List Arg) (sp : BitVec 32) (ptrs : List (BitVec 32)) (k : Kmem)
    (hmax : ptrs.length + as.length ≤ MAXARG) :
    (pushArgs cur d as sp ptrs k >>= fun r => match r with
      | (none, k) => .ok (false, k)
      | (some (sp, ptrs), k) => copyout cur d (sp - BitVec.ofNat 32 ((3 + ptrs.length + 1) * 4))
          (wordBytes (ustack sp ptrs)) ((3 + ptrs.length + 1) * 4) k) = runCopies cur d (copies as sp ptrs) k := by
  induction as generalizing sp ptrs k with
  | nil =>
    dsimp only [pushArgs, copies, runCopies, Copy.run, bind, Except.bind]
    cases copyout cur d _ _ _ k with
    | error e => rfl
    | ok r =>
      obtain ⟨ok, k'⟩ := r
      cases ok <;> rfl
  | cons a as ih =>
    rw [List.length_cons] at hmax
    unfold pushArgs copies
    rw [if_neg (by omega), if_neg (by omega)]
    dsimp only [runCopies, Copy.run, argCopy, below, bind, Except.bind]
    cases copyout cur d _ _ _ k with
    | error e => rfl
    | ok r =>
      obtain ⟨ok, k'⟩ := r
      cases ok with
      | false => rfl
      | true => exact ih _ _ k' (by rw [List.length_append, List.length_singleton]; omega)

/-! ## Where a copy may go -/

/-- Nothing but the user's stack page was written. -/
def OnStack (k : Kmem) (d : Pgdir) (sz : Nat) (k' : Kmem) : Prop :=
  ∃ e, d.get (sz / PGSIZE - 1) = some e ∧ e.user = true ∧ SameList k k' ∧ ∀ q, q ≠ e.page → k'.content q = k.content q

/-- No entry that `uva2ka` looks at is behind a null pointer, and the call returns -1 or
has written on the stack page only. -/
structure CopySafe (cur d : Pgdir) (sz : Nat) (c : Copy) (k : Kmem) : Prop where
  walks : ∀ v ∈ c.walks cur d k, (d.pde (PDX v)).isSome
  result : ∃ ok k', c.run cur d k = .ok (ok, k') ∧ (ok = true → OnStack k d sz k')

/-- What is known of a copy to user memory. -/
structure Copied (cur d : Pgdir) (sz : Nat) (c : Copy) (k : Kmem) (r : Bool × Kmem) : Prop where
  spoilt : Spoilt k d r.2
  room : r.1 = true ↔ sz - PGSIZE ≤ c.va.toNat
  shows : r.1 = true → ∀ img, Shows k d (pagesUp sz) img →
    Shows r.2 d (pagesUp sz) (overlay img c.va.toNat c.len c.byte)

theorem pde_of_get {v : Nat} (he : d.get v = some e) : (d.pde (PDX v)).isSome := by
  obtain ⟨t, ht, -⟩ := Pgdir.table_of_get he
  rw [ht]
  rfl

namespace Built

variable (h : Built L d sz)
include h

/-- A copy that ends in the stack page or at the end of the closed page. -/
theorem copy_user (cur : Pgdir) (hs : Sound L k d.owned) (hlen : 0 < c.len) (hend : c.va.toNat + c.len ≤ sz)
    (hreach : sz - PGSIZE ≤ c.va.toNat + c.len + 3) :
    CopySafe cur d sz c k ∧ Ends (fun _ => False) (c.run cur d k) (Copied cur d sz c k) := by
  obtain ⟨n, hsz⟩ := h.round
  have hdiv : sz / PGSIZE = n + 2 := by rw [hsz, Nat.mul_div_cancel _ (by decide)]
  have hup : pagesUp sz = n + 2 := by rw [hsz, pagesUp_mul]
  have hbound := pagesUp_le h.image.size.le
  by_cases hroom : sz - PGSIZE ≤ c.va.toNat
  · obtain ⟨e, he, huser⟩ := h.stack
    have hpage : c.va.toNat / PGSIZE = sz / PGSIZE - 1 := by
      unfold PGSIZE at *
      omega
    have hfit : c.va.toNat % PGSIZE + c.len ≤ PGSIZE := by
      unfold PGSIZE at *
      omega
    have he' : d.get (c.va.toNat / PGSIZE) = some e := by rw [hpage, he]
    have hlt : sz / PGSIZE - 1 < KERNBASE / PGSIZE := by omega
    obtain ⟨hrun, hwalks⟩ := copyout_page cur (k := k) (f := c.byte) he' huser hlen hfit
    have hspoilt := Spoilt.store (f := c.byte) (o := c.va.toNat % PGSIZE) (n := c.len) he hlt hs
    refine ⟨⟨fun v hv => ?_, true, _, hrun, fun _ => ⟨e, he, huser, hspoilt.1, fun q hq => Function.update_of_ne hq ..⟩⟩, ?_⟩
    · rw [Copy.walks, hwalks, List.mem_singleton] at hv
      rw [hv]
      exact pde_of_get he'
    · rw [Copy.run, hrun]
      refine ⟨hspoilt, iff_of_true rfl hroom, fun _ img himg => ?_⟩
      have hstore := himg.store (f := c.byte) (Multiset.nodup_add.1 hs.nodup).2.1 hbound (by omega) he' hfit
      rwa [Nat.div_add_mod'] at hstore
  · obtain ⟨e, he, huser⟩ := h.guard
    rw [hdiv, Nat.add_sub_cancel] at he
    have hva : c.va.toNat / PGSIZE ≤ n := by
      unfold PGSIZE at *
      omega
    have hpast : n * PGSIZE < c.va.toNat + (c.len - 0) := by
      unfold PGSIZE at *
      omega
    obtain ⟨hrun, hwalks⟩ := copyoutLoop_guard cur (f := c.byte) c.len 0 c.va h.image hs he huser (by omega)
      (Nat.zero_add _).ge hva hpast hlen
    obtain ⟨⟨ok, k'⟩, hok, hfalse, hspoilt⟩ := hrun.ok
    dsimp only at hfalse
    subst hfalse
    refine ⟨⟨fun v hv => ?_, false, k', hok, nofun⟩, ?_⟩
    · obtain ⟨e', he', -⟩ := h.image.some (u := v) (by have := hwalks v hv; omega)
      exact pde_of_get he'
    · have hrun' : c.run cur d k = .ok (false, k') := hok
      rw [hrun']
      exact ⟨hspoilt, iff_of_false nofun hroom, nofun⟩

/-- Above `KERNBASE`, but not in the gap, there are pages that are not the user's. -/
theorem closed_of_high {va : BitVec 32} (hva : KERNBASE ≤ va.toNat)
    (hgap : ¬(KERNBASE + PHYSTOP ≤ va.toNat ∧ va.toNat < DEVSPACE)) :
    ∃ e, d.get (va.toNat / PGSIZE) = some e ∧ e.user = false := by
  have hlt := va.isLt
  by_cases hdev : DEVSPACE ≤ va.toNat
  · exact h.image.devices _ (Nat.div_le_div_right hdev) (Nat.div_lt_of_lt_mul (hlt.trans_eq (by decide)))
  · have hle : KERNBASE / PGSIZE ≤ va.toNat / PGSIZE := Nat.div_le_div_right hva
    have hlow : va.toNat / PGSIZE < (KERNBASE + PHYSTOP) / PGSIZE := by
      unfold KERNBASE PHYSTOP PGSIZE at *
      omega
    obtain ⟨e, he⟩ := kernelPte_low L hle hlow
    exact ⟨e, (h.kernel _ hle (hlow.trans (by decide))).trans he, kernelPte_user he⟩

theorem copy_high (cur : Pgdir) (hlen : 0 < c.len) (hva : KERNBASE ≤ c.va.toNat)
    (hgap : ¬(KERNBASE + PHYSTOP ≤ c.va.toNat ∧ c.va.toNat < DEVSPACE)) :
    CopySafe cur d sz c k ∧ c.run cur d k = .ok (false, k) := by
  obtain ⟨e, he, huser⟩ := h.closed_of_high hva hgap
  obtain ⟨hrun, hwalks⟩ := copyout_closed cur (k := k) (f := c.byte) he huser hlen
  refine ⟨⟨fun v hv => ?_, false, k, hrun, nofun⟩, hrun⟩
  rw [Copy.walks, hwalks, List.mem_singleton] at hv
  rw [hv]
  exact pde_of_get he

/-- In the gap the first entry is behind a null pointer. -/
theorem copy_gap (hlen : 0 < c.len) (hlow : KERNBASE + PHYSTOP ≤ c.va.toNat) (hhigh : c.va.toNat < DEVSPACE) :
    ¬ CopySafe cur d sz c k := by
  intro hsafe
  have hgap := h.gap (c.va.toNat / PGSIZE) (Nat.div_le_div_right hlow)
    ((Nat.div_lt_iff_lt_mul (by decide)).2 (hhigh.trans_eq (by decide)))
  have hmem : c.va.toNat / PGSIZE ∈ c.walks cur d k := by
    obtain ⟨len, hlen'⟩ := Nat.exists_eq_succ_of_ne_zero hlen.ne'
    rw [Copy.walks, hlen', copyoutWalks, if_neg (by omega)]
    exact List.mem_cons_self ..
  have := hsafe.walks _ hmem
  rw [hgap] at this
  cases this

end Built

/-! ## The strings -/

/-- How far a string takes the stack pointer down. -/
def room (a : Arg) : Nat := (a.len + 4) / 4 * 4

theorem toNat_below (hsp : sp.toNat % 4 = 0) (ha : a.len < KERNBASE) :
    (below sp a).toNat = if room a ≤ sp.toNat then sp.toNat - room a else 2 ^ 32 + sp.toNat - room a := by
  have hlt := sp.isLt
  have hn : (BitVec.ofNat 32 (a.len + 1)).toNat = a.len + 1 := by
    refine (BitVec.toNat_ofNat ..).trans (Nat.mod_eq_of_lt ?_)
    unfold KERNBASE at ha
    omega
  unfold below room
  rw [toNat_align, BitVec.toNat_sub, hn]
  unfold KERNBASE at ha
  split <;> omega

/-- The string takes the stack pointer around and into the gap. -/
def Strays (sp : Nat) (a : Arg) : Prop :=
  sp + (2 ^ 32 - DEVSPACE) < room a ∧ room a ≤ sp + (2 ^ 32 - (KERNBASE + PHYSTOP))

instance (sp : Nat) (a : Arg) : Decidable (Strays sp a) := inferInstanceAs (Decidable (_ ∧ _))

/-- No string does, up to the first that does not fit between `bottom` and the stack pointer. -/
def NoStray (bottom : Nat) : Nat → List Arg → Prop
  | _, [] => True
  | sp, a :: as => ¬ Strays sp a ∧ (bottom + room a ≤ sp → NoStray bottom (sp - room a) as)

/-- The stack pointer is in the stack page or at one of its ends. -/
structure InStack (sz : Nat) (sp : BitVec 32) : Prop where
  word : sp.toNat % 4 = 0
  low : sz - PGSIZE ≤ sp.toNat
  high : sp.toNat ≤ sz

namespace InStack

variable (hsp : InStack sz sp)
include hsp

/-- Where the next string may go: to user memory, to a closed page above, or to the gap. -/
theorem cases_arg (ha : a.len < KERNBASE) :
    (room a ≤ sp.toNat ∧ (below sp a).toNat = sp.toNat - room a) ∨
      (¬ room a ≤ sp.toNat ∧ ¬ Strays sp.toNat a ∧ KERNBASE ≤ (below sp a).toNat ∧
        ¬(KERNBASE + PHYSTOP ≤ (below sp a).toNat ∧ (below sp a).toNat < DEVSPACE)) ∨
      (Strays sp.toNat a ∧ KERNBASE + PHYSTOP ≤ (below sp a).toNat ∧ (below sp a).toNat < DEVSPACE) := by
  have hbelow := toNat_below hsp.word ha
  have hroom : room a ≤ KERNBASE := by
    unfold room KERNBASE at *
    omega
  by_cases hfit : room a ≤ sp.toNat
  · rw [if_pos hfit] at hbelow
    exact .inl ⟨hfit, hbelow⟩
  · rw [if_neg hfit] at hbelow
    by_cases hstray : Strays sp.toNat a
    · refine .inr (.inr ⟨hstray, ?_, ?_⟩) <;> rw [hbelow] <;> unfold Strays KERNBASE PHYSTOP DEVSPACE at * <;> omega
    · refine .inr (.inl ⟨hfit, hstray, ?_, ?_⟩) <;> rw [hbelow] <;> unfold Strays KERNBASE PHYSTOP DEVSPACE at * <;> omega

omit hsp in
theorem not_strays (hfit : room a ≤ sp.toNat) : ¬ Strays sp.toNat a := by
  unfold Strays
  omega

/-- A string that strays goes on to the devices. -/
theorem stray_end (ha : a.len < KERNBASE) (hstray : Strays sp.toNat a) :
    DEVSPACE < (below sp a).toNat + (a.len + 1 - 0) := by
  have hbelow := toNat_below hsp.word ha
  unfold Strays room DEVSPACE KERNBASE PHYSTOP at *
  split at hbelow <;> omega

/-- The next string, if it fits. -/
theorem next (hfit : sz - PGSIZE + room a ≤ sp.toNat) (hbelow : (below sp a).toNat = sp.toNat - room a) :
    InStack sz (below sp a) := by
  have hword := hsp.word
  have hhigh := hsp.high
  refine ⟨?_, ?_, ?_⟩ <;> rw [hbelow]
  · unfold room at *
    omega
  · omega
  · omega

end InStack

section

variable (h : Built L d sz) (hsp : InStack sz sp)
include h hsp

/-- A string that stays in user memory. -/
theorem Built.copy_arg (cur : Pgdir) (hs : Sound L k d.owned) (hfit : room a ≤ sp.toNat)
    (hbelow : (below sp a).toNat = sp.toNat - room a) :
    CopySafe cur d sz (argCopy sp a) k ∧ Ends (fun _ => False) ((argCopy sp a).run cur d k) (Copied cur d sz (argCopy sp a) k) := by
  have hlow := hsp.low
  have hhigh := hsp.high
  refine h.copy_user cur hs (Nat.succ_pos _) ?_ ?_ <;> dsimp only [argCopy] <;> rw [hbelow] <;> unfold room at * <;> omega

/-- The words below the strings. -/
theorem Built.copy_words (cur : Pgdir) (ptrs : List (BitVec 32)) (hs : Sound L k d.owned) (hptrs : ptrs.length ≤ MAXARG) :
    (sp - BitVec.ofNat 32 ((3 + ptrs.length + 1) * 4)).toNat + (3 + ptrs.length + 1) * 4 = sp.toNat ∧
    CopySafe cur d sz ⟨sp - BitVec.ofNat 32 ((3 + ptrs.length + 1) * 4), f, (3 + ptrs.length + 1) * 4⟩ k ∧
      Ends (fun _ => False) (copyout cur d (sp - BitVec.ofNat 32 ((3 + ptrs.length + 1) * 4)) f ((3 + ptrs.length + 1) * 4) k)
        (Copied cur d sz ⟨sp - BitVec.ofNat 32 ((3 + ptrs.length + 1) * 4), f, (3 + ptrs.length + 1) * 4⟩ k) := by
  obtain ⟨n, hsz⟩ := h.round
  have hlow := hsp.low
  have hhigh := hsp.high
  have hle : (3 + ptrs.length + 1) * 4 ≤ sp.toNat := by
    unfold MAXARG PGSIZE at *
    omega
  have hva : (sp - BitVec.ofNat 32 ((3 + ptrs.length + 1) * 4)).toNat = sp.toNat - (3 + ptrs.length + 1) * 4 := by
    have hlt := sp.isLt
    rw [BitVec.toNat_sub, BitVec.toNat_ofNat]
    omega
  exact ⟨by omega, h.copy_user cur hs (c := ⟨_, f, _⟩) (by dsimp only; omega) (by dsimp only; omega) (by dsimp only; omega)⟩

/-- All calls are safe if and only if no string takes the stack pointer to the gap. -/
theorem eachCall_iff (cur : Pgdir) (as : List Arg) (ptrs : List (BitVec 32)) (hs : Sound L k d.owned) (hptrs : ptrs.length ≤ MAXARG)
    (has : ∀ a ∈ as, a.len < KERNBASE) :
    EachCall cur d (CopySafe cur d sz) (copies as sp ptrs) k ↔
      NoStray (sz - PGSIZE) sp.toNat (as.take (MAXARG - ptrs.length)) := by
  induction as generalizing sp ptrs k with
  | nil =>
    rw [List.take_nil]
    exact iff_of_true ⟨(h.copy_words hsp cur ptrs hs hptrs).2.1, fun _ _ => trivial⟩ trivial
  | cons a as ih =>
    unfold copies
    split
    · rename_i hmax
      rw [Nat.sub_eq_zero_of_le hmax, List.take_zero]
      exact Iff.rfl
    · rename_i hmax
      obtain ⟨m, hm⟩ : ∃ m, MAXARG - ptrs.length = m + 1 := ⟨MAXARG - ptrs.length - 1, by omega⟩
      rw [hm, List.take_succ_cons]
      have ha := has a (List.mem_cons_self ..)
      obtain ⟨hfit, hbelow⟩ | ⟨hno, hstray, hhigh, hgap⟩ | ⟨hstray, hlow, hhigh⟩ := hsp.cases_arg ha
      · obtain ⟨hsafe, hends⟩ := h.copy_arg hsp cur hs hfit hbelow
        obtain ⟨⟨ok, k'⟩, hrun, hcopied⟩ := hends.ok
        have hroom : ok = true ↔ sz - PGSIZE ≤ (below sp a).toNat := hcopied.room
        cases ok with
        | false =>
          refine iff_of_true ⟨hsafe, fun k'' hrun' => ?_⟩ ⟨InStack.not_strays hfit, fun hle => ?_⟩
          · cases hrun.symm.trans hrun'
          · cases hroom.2 (by omega)
        | true =>
          have hle : sz - PGSIZE + room a ≤ sp.toNat := by
            have := hroom.1 rfl
            omega
          have htail := ih (hsp.next hle hbelow) (ptrs ++ [below sp a]) (hcopied.spoilt.1.sound hs)
            (by rw [List.length_append, List.length_singleton]; omega) fun b hb => has b (List.mem_cons_of_mem _ hb)
          rw [List.length_append, List.length_singleton, show MAXARG - (ptrs.length + 1) = m by omega, hbelow] at htail
          refine ⟨fun hall => ⟨InStack.not_strays hfit, fun _ => htail.1 (hall.2 k' hrun)⟩, fun hall => ⟨hsafe, fun k'' hrun' => ?_⟩⟩
          cases hrun.symm.trans hrun'
          exact htail.2 (hall.2 hle)
      · obtain ⟨hsafe, hrun⟩ := h.copy_high cur (k := k) (c := argCopy sp a) (Nat.succ_pos _) hhigh hgap
        refine iff_of_true ⟨hsafe, fun k'' hrun' => ?_⟩ ⟨hstray, fun hle => absurd hle (by omega)⟩
        cases hrun.symm.trans hrun'
      · exact iff_of_false (fun hall => h.copy_gap (c := argCopy sp a) (Nat.succ_pos _) hlow hhigh hall.1) fun hall => hall.1 hstray

end

/-! ## In the gap -/

/-- The page of the gap behind `va`, or the first of the devices. -/
theorem gap_next {done : Nat} (hlow : KERNBASE + PHYSTOP ≤ va.toNat) (hhigh : va.toNat < DEVSPACE)
    (hend : DEVSPACE < va.toNat + (len - done)) :
    (BitVec.ofNat 32 ((va.toNat / PGSIZE + 1) * PGSIZE)).toNat = (va.toNat / PGSIZE + 1) * PGSIZE ∧
      min (PGSIZE - va.toNat % PGSIZE) (len - done) = PGSIZE - va.toNat % PGSIZE ∧
      KERNBASE + PHYSTOP ≤ (va.toNat / PGSIZE + 1) * PGSIZE ∧ (va.toNat / PGSIZE + 1) * PGSIZE ≤ DEVSPACE ∧
      DEVSPACE < (va.toNat / PGSIZE + 1) * PGSIZE + (len - (done + (PGSIZE - va.toNat % PGSIZE))) := by
  have hnext : (va.toNat / PGSIZE + 1) * PGSIZE ≤ DEVSPACE := by
    unfold DEVSPACE PGSIZE at *
    omega
  refine ⟨(BitVec.toNat_ofNat ..).trans (Nat.mod_eq_of_lt (hnext.trans_lt (by decide))), ?_, ?_, hnext, ?_⟩ <;>
    unfold DEVSPACE KERNBASE PHYSTOP PGSIZE at * <;> omega

theorem Built.devices_closed (h : Built L d sz) (hva : va.toNat = DEVSPACE) :
    ∃ e, d.get (va.toNat / PGSIZE) = some e ∧ e.user = false := by
  rw [hva]
  exact h.image.devices _ le_rfl (by decide)

/-- A copy that begins in the gap and goes on to the devices does not return 0. -/
theorem copyoutLoop_gap (h : Built L d sz) (fuel done : Nat) (va : BitVec 32) (hfuel : len ≤ done + fuel)
    (hlow : KERNBASE + PHYSTOP ≤ va.toNat) (hhigh : va.toNat ≤ DEVSPACE) (hend : DEVSPACE < va.toNat + (len - done)) :
    Ends (fun _ => True) (copyoutLoop cur d f len fuel done va k) fun r => r.1 = false := by
  induction fuel generalizing k done va with
  | zero => omega
  | succ fuel ih =>
    unfold copyoutLoop
    rw [if_neg (by omega)]
    obtain hlt | heq := hhigh.lt_or_eq
    · obtain ⟨hnext, hn, hlow', hhigh', hend'⟩ := gap_next hlow hlt hend
      cases uva2ka cur k d (va.toNat / PGSIZE) with
      | error e => trivial
      | ok x =>
        cases x with
        | none => rfl
        | some p =>
          dsimp only [bind, Except.bind]
          rw [hn]
          exact ih _ _ (by unfold PGSIZE at *; omega) (by rwa [hnext]) (by rwa [hnext]) (by rwa [hnext])
    · obtain ⟨e, he, huser⟩ := h.devices_closed heq
      rw [uva2ka_mapped he, huser]
      rfl

/-! ## The strings on the stack -/

/-- The strings `ps` are on the stack, each at its pointer, and below the stack pointer
nothing has changed. -/
structure Pushed (sz : Nat) (base img : Nat → BitVec 8) (sp : Nat) (ps : List (Arg × BitVec 32)) : Prop where
  strings : ∀ x ∈ ps, (∀ j, j < x.1.len → img (x.2.toNat + j) = x.1.byte j) ∧ img (x.2.toNat + x.1.len) = 0
  inside : ∀ x ∈ ps, sp ≤ x.2.toNat ∧ x.2.toNat + x.1.len + 1 ≤ sz
  apart : ps.Pairwise fun x y => y.2.toNat + y.1.len + 1 ≤ x.2.toNat
  rest : ∀ a, a < sp → img a = base a

namespace Pushed

variable {base img : Nat → BitVec 8} {s n : Nat} {ps : List (Arg × BitVec 32)}

theorem nil (sz : Nat) (base : Nat → BitVec 8) : Pushed sz base base sz [] :=
  ⟨nofun, nofun, .nil, fun _ _ => rfl⟩

/-- A copy below the stack pointer. -/
theorem lower {n' : Nat} (h : Pushed sz base img s ps) (hle : n + n' ≤ s) : Pushed sz base (overlay img n n' f) n ps := by
  have hsame : ∀ x, s ≤ x → overlay img n n' f x = img x := fun x hx => if_neg (by omega)
  refine ⟨fun x hx => ⟨fun j hj => ?_, ?_⟩, fun x hx => ?_, h.apart, fun a ha => ?_⟩
  · rw [hsame _ (by have := (h.inside x hx).1; omega)]
    exact (h.strings x hx).1 j hj
  · rw [hsame _ (by have := (h.inside x hx).1; omega)]
    exact (h.strings x hx).2
  · exact ⟨by have := (h.inside x hx).1; omega, (h.inside x hx).2⟩
  · exact (if_neg (by omega)).trans (h.rest a (by omega))

/-- The next string. -/
theorem snoc (h : Pushed sz base img s ps) (hs : s ≤ sz) (hle : (below sp a).toNat + (a.len + 1) ≤ s) :
    Pushed sz base (overlay img (below sp a).toNat (a.len + 1) (argCopy sp a).byte) (below sp a).toNat
      (ps ++ [(a, below sp a)]) := by
  have hlow := h.lower (f := (argCopy sp a).byte) hle
  refine ⟨fun x hx => ?_, fun x hx => ?_, ?_, hlow.rest⟩
  · obtain hx | hx := List.mem_append.1 hx
    · exact hlow.strings x hx
    · obtain rfl := List.mem_singleton.1 hx
      refine ⟨fun j hj => ?_, ?_⟩ <;> dsimp only at * <;> unfold overlay <;> rw [if_pos (by omega), Nat.add_sub_cancel_left]
      · exact if_pos hj
      · exact if_neg (Nat.lt_irrefl _)
  · obtain hx | hx := List.mem_append.1 hx
    · exact hlow.inside x hx
    · obtain rfl := List.mem_singleton.1 hx
      exact ⟨le_rfl, by dsimp only; omega⟩
  · refine List.pairwise_append.2 ⟨h.apart, List.pairwise_singleton .., fun x hx y hy => ?_⟩
    obtain rfl := List.mem_singleton.1 hy
    have := (h.inside x hx).1
    dsimp only
    omega

end Pushed

/-- What is known when the strings have been pushed. -/
structure PushedAll (d : Pgdir) (sz : Nat) (base : Nat → BitVec 8) (args : List Arg) (k : Kmem) (sp : BitVec 32)
    (ptrs : List (BitVec 32)) (k' : Kmem) : Prop where
  spoilt : Spoilt k d k'
  inStack : InStack sz sp
  strings : ∃ ps img, ptrs = ps.map Prod.snd ∧ ps.map Prod.fst = args ∧ ps.length ≤ MAXARG ∧
    Shows k' d (pagesUp sz) img ∧ Pushed sz base img sp.toNat ps

theorem pushArgs_pushed {base img : Nat → BitVec 8} (h : Built L d sz) (cur : Pgdir) (as : List Arg) (ps : List (Arg × BitVec 32))
    (hsp : InStack sz sp) (hs : Sound L k d.owned) (hps : ps.length ≤ MAXARG) (has : ∀ a ∈ as, a.len < KERNBASE)
    (hshows : Shows k d (pagesUp sz) img) (hpush : Pushed sz base img sp.toNat ps) :
    Ends (fun _ => ¬ NoStray (sz - PGSIZE) sp.toNat (as.take (MAXARG - ps.length)))
      (pushArgs cur d as sp (ps.map Prod.snd) k) fun r =>
        (NoStray (sz - PGSIZE) sp.toNat (as.take (MAXARG - ps.length)) → Spoilt k d r.2) ∧
          ∀ x, r.1 = some x → PushedAll d sz base (ps.map Prod.fst ++ as) k x.1 x.2 r.2 := by
  induction as generalizing k sp ps img with
  | nil =>
    refine ⟨fun _ => .refl k d, ?_⟩
    rintro _ ⟨⟩
    exact ⟨.refl k d, hsp, ps, img, rfl, (List.append_nil _).symm, hps, hshows, hpush⟩
  | cons a as ih =>
    unfold pushArgs
    rw [List.length_map]
    split
    · exact ⟨fun _ => .refl k d, fun _ h => by cases h⟩
    · rename_i hmax
      obtain ⟨m, hm⟩ : ∃ m, MAXARG - ps.length = m + 1 := ⟨MAXARG - ps.length - 1, by omega⟩
      rw [hm, List.take_succ_cons]
      have ha := has a (List.mem_cons_self ..)
      change Ends _ ((argCopy sp a).run cur d k >>= fun r => if r.1 then
        pushArgs cur d as (below sp a) (ps.map Prod.snd ++ [below sp a]) r.2 else .ok (none, r.2)) _
      obtain ⟨hfit, hbelow⟩ | ⟨hno, hstray, hhigh, hgap⟩ | ⟨hstray, hlow, hhigh⟩ := hsp.cases_arg ha
      · obtain ⟨-, hends⟩ := h.copy_arg hsp cur hs hfit hbelow
        obtain ⟨⟨ok, k₁⟩, hrun, hcopied⟩ := hends.ok
        rw [hrun]
        have hroom : ok = true ↔ sz - PGSIZE ≤ (below sp a).toNat := hcopied.room
        cases ok with
        | false => exact ⟨fun _ => hcopied.spoilt, fun _ h => by cases h⟩
        | true =>
          have hle : sz - PGSIZE + room a ≤ sp.toNat := by
            have := hroom.1 rfl
            omega
          have hend : (below sp a).toNat + (a.len + 1) ≤ sp.toNat := by
            unfold room at *
            omega
          have hrest := ih (ps ++ [(a, below sp a)]) (hsp.next hle hbelow) (hcopied.spoilt.1.sound hs)
            (by rw [List.length_append, List.length_singleton]; omega) (fun b hb => has b (List.mem_cons_of_mem _ hb))
            (hcopied.shows rfl img hshows) (hpush.snoc hsp.high hend)
          rw [List.length_append, List.length_singleton, show MAXARG - (ps.length + 1) = m by omega, hbelow,
            List.map_append, List.map_append, List.append_assoc] at hrest
          refine (hrest.weaken fun _ hno hall => hno (hall.2 hle)).mono fun r hr => ⟨fun hall => ?_, fun x hx => ?_⟩
          · exact hcopied.spoilt.trans (hr.1 (hall.2 hle))
          · have hall := hr.2 x hx
            exact ⟨hcopied.spoilt.trans hall.spoilt, hall.inStack, hall.strings⟩
      · obtain ⟨-, hrun⟩ := h.copy_high cur (k := k) (c := argCopy sp a) (Nat.succ_pos _) hhigh hgap
        rw [hrun]
        exact ⟨fun _ => .refl k d, fun _ h => by cases h⟩
      · have hend := hsp.stray_end ha hstray
        have hfail : Ends _ ((argCopy sp a).run cur d k) _ :=
          copyoutLoop_gap (f := (argCopy sp a).byte) h (a.len + 1) 0 _ (Nat.zero_add _).ge hlow hhigh.le hend
        refine (hfail.weaken fun _ _ hall => hall.1 hstray).bind fun r hr => ?_
        rw [if_neg (by rw [hr]; decide)]
        exact ⟨fun hall => absurd hstray hall.1, fun _ h => by cases h⟩

/-! ## What main finds -/

/-- The word at a user address. -/
def word (k : Kmem) (s : Space) (a : Nat) : Option (BitVec 32) := do
  let b₀ ← s.byte k a
  let b₁ ← s.byte k (a + 1)
  let b₂ ← s.byte k (a + 2)
  let b₃ ← s.byte k (a + 3)
  some (b₃ ++ b₂ ++ b₁ ++ b₀)

/-- Regions of memory, given by address and length, that do not overlap. -/
def Apart (r r' : Nat × Nat) : Prop := r.1 + r.2 ≤ r'.1 ∨ r'.1 + r'.2 ≤ r.1

/-- The words and strings that the stack holds. -/
def regions (sp argv : Nat) (strs : List (Arg × BitVec 32)) : List (Nat × Nat) :=
  (sp, 12) :: (argv, 4 * (strs.length + 1)) :: strs.map fun x => (x.2.toNat, x.1.len + 1)

/-- The stack when `exec` is done with it. -/
structure Stacked (d : Pgdir) (sz : Nat) (base : Nat → BitVec 8) (args : List Arg) (sp : BitVec 32) (k : Kmem) : Prop where
  low : sz - PGSIZE ≤ sp.toNat
  pushed : ∃ ps img top, ps.map Prod.fst = args ∧ ps.length ≤ MAXARG ∧ InStack sz top ∧ Pushed sz base img top.toNat ps ∧
    sp.toNat + (3 + ps.length + 1) * 4 = top.toNat ∧
    Shows k d (pagesUp sz) (overlay img sp.toNat ((3 + ps.length + 1) * 4) (wordBytes (ustack top (ps.map Prod.snd))))

namespace Stacked

variable {base : Nat → BitVec 8} {args : List Arg}

/-- The pages of user memory are as they were. -/
theorem congr (h : Stacked d sz base args sp k)
    (hcont : ∀ u e, u < pagesUp sz → d.get u = some e → k'.content e.page = k.content e.page) :
    Stacked d sz base args sp k' := by
  obtain ⟨hlow, ps, img, top, hfst, hlen, hin, hpush, hsp, hshows⟩ := h
  exact ⟨hlow, ps, img, top, hfst, hlen, hin, hpush, hsp, hshows.congr hcont⟩

theorem high (h : Stacked d sz base args sp k) : sp.toNat ≤ sz := by
  obtain ⟨-, ps, img, top, -, -, hin, -, hsp, -⟩ := h
  have := hin.high
  omega

/-- Below the stack pointer there is what was there before. -/
theorem byte (h : Stacked d sz base args sp k) {x : Nat} {s : BitVec 32} (hx : x < sp.toNat) :
    Space.byte k ⟨d, s⟩ x = some (base x) := by
  have hhigh := h.high
  obtain ⟨hlow, ps, img, top, hfst, hlen, hin, hpush, hsp, hshows⟩ := h
  rw [hshows.byte (lt_pagesUp (by omega))]
  exact congrArg some ((if_neg (by omega)).trans (hpush.rest x (by omega)))

end Stacked

theorem Built.inStack_top (h : Built L d sz) : InStack sz (BitVec.ofNat 32 sz) := by
  obtain ⟨n, hround⟩ := h.round
  have hto := toNat_size h.image.size
  refine ⟨?_, ?_, ?_⟩ <;> rw [hto]
  · unfold PGSIZE at hround
    omega
  · omega

theorem pushArgv_stacked {base : Nat → BitVec 8} (h : Built L d sz) (cur : Pgdir) (args : List Arg) (hs : Sound L k d.owned)
    (hargs : ∀ a ∈ args, a.len < KERNBASE) (hshows : Shows k d (pagesUp sz) base) :
    Ends (fun _ => ¬ NoStray (sz - PGSIZE) sz (args.take MAXARG)) (pushArgv cur d args (BitVec.ofNat 32 sz) k) fun r =>
      (NoStray (sz - PGSIZE) sz (args.take MAXARG) → Spoilt k d r.2) ∧
        ∀ sp, r.1 = some sp → Spoilt k d r.2 ∧ Stacked d sz base args sp r.2 := by
  have hto := toNat_size h.image.size
  have hnil : Pushed sz base base (BitVec.ofNat 32 sz).toNat [] := by
    rw [hto]
    exact .nil sz base
  have hargs' := pushArgs_pushed h cur args [] h.inStack_top hs (Nat.zero_le _) hargs hshows hnil
  rw [List.length_nil, Nat.sub_zero, hto] at hargs'
  unfold pushArgv
  refine hargs'.bind fun r hr => ?_
  obtain ⟨x, k₁⟩ := r
  obtain ⟨hspoilt, hr⟩ := hr
  cases x with
  | none => exact ⟨hspoilt, nofun⟩
  | some x =>
    obtain ⟨sp, ptrs⟩ := x
    obtain ⟨hspoilt₁, hsp, ps, img, hptrs, hfst, hlen, hshows₁, hpush⟩ := hr _ rfl
    dsimp only at hptrs hspoilt₁ hsp hpush ⊢
    subst hptrs
    obtain ⟨hva, -, hcopy⟩ := h.copy_words (f := wordBytes (ustack sp (ps.map Prod.snd))) hsp cur
      (ps.map Prod.snd) (hspoilt₁.1.sound hs) (by rwa [List.length_map])
    refine (hcopy.weaken fun _ hno => hno.elim).bind fun r hcopied => ?_
    obtain ⟨ok, k₂⟩ := r
    dsimp only
    refine ⟨fun _ => hspoilt₁.trans hcopied.spoilt, fun sp' hsp' => ⟨hspoilt₁.trans hcopied.spoilt, ?_⟩⟩
    cases ok with
    | false => cases hsp'
    | true =>
      obtain rfl := Option.some.inj hsp'
      have hlow := hcopied.room.1 rfl
      have hshows₂ := hcopied.shows rfl img hshows₁
      simp only [List.length_map] at hva hlow hshows₂ ⊢
      exact ⟨hlow, ps, img, sp, hfst, hlen, hsp, hpush, hva, hshows₂⟩

end

/-! ## The image is built -/

/-- `exec` comes to the arguments: the new address space `d` has `sz` bytes, in memory `k'`. -/
def Reaches (L : Layout) (k : Kmem) (file : List (BitVec 8)) (sz : Nat) (d : Pgdir) (k' : Kmem) : Prop :=
  ∃ elf d₀ k₀, elfhdr file = some elf ∧ elf.magic = ELF_MAGIC ∧ setupkvm L k = .ok (some d₀, k₀) ∧
    loadImage L (segments file elf) k₀ d₀ = .ok (some sz, d, k')

theorem Reaches.built {file : List (BitVec 8)} (h : Reaches L k file sz d k') (hs : Sound L k 0) :
    Built L d sz ∧ Sound L k' d.owned ∧ k'.free + d.owned = k.free ∧ Confined k 0 k' := by
  obtain ⟨elf, d₀, k₀, -, -, hset, hload⟩ := h
  have hends := (setupkvm_ends hs).and setupkvm_confined
  rw [hset] at hends
  obtain ⟨⟨hpages, hfresh, -⟩, hconf⟩ := hends
  have hs₀ : Sound L k₀ d₀.owned := hs.of_eq (by rw [add_zero]; exact hpages)
  have hends' := loadImage_ends file elf (hfresh d₀ rfl) hs₀
  rw [hload] at hends'
  refine ⟨(hends'.2 sz rfl).1, hends'.1.sound hs₀, hends'.1.pages.trans hpages, Confined.trans hconf ?_ hends'.1.content⟩
  rw [add_zero]
  exact hpages

/-! ## With memory enough -/

/-- An executable file without segments. -/
def bareElf : List (BitVec 8) := [0x7f, 0x45, 0x4c, 0x46] ++ List.replicate 48 0

theorem elfhdr_bareElf : elfhdr bareElf = some ⟨ELF_MAGIC, 0, 0, 0⟩ := by decide +kernel

theorem Reaches.bareElf {m : Nat} {tail : List Page} (hs : Sound L k 0) (hrich : k.Rich (m + 4 + NPDENTRIES / 2 + 1) tail) :
    ∃ d k', Reaches L k bareElf (2 * PGSIZE) d k' := by
  obtain ⟨⟨x, k₁⟩, hset, hpages, hfresh, hok⟩ := (setupkvm_ends hs).ok
  obtain ⟨⟨d, hd⟩, hrich₁⟩ := hok (m + 4) tail hrich
  obtain rfl : x = some d := hd
  have hpages₁ : k₁.free + d.owned = k.free := hpages
  have hs₁ : Sound L k₁ d.owned := hs.of_eq (by rw [hpages₁, add_zero])
  have hfill : Filled L k₁ d 0 fun _ => 0 := .of_fresh (hfresh d rfl)
  have hround : PGROUNDUP 0 = 0 := by decide
  obtain ⟨⟨sz, d₂, k₂⟩, halloc, ⟨-, hfill₂⟩, hsz, -⟩ := ((hfill.alloc (2 * PGSIZE) hs₁ le_rfl rfl
    fun _ => by decide).and (allocuvm_rich (by decide) (by decide) (hrich₁ : k₁.Rich (m + 2 * (2 - 0)) tail))).ok
  obtain rfl : sz = 2 * PGSIZE := hsz
  have hfill₃ : Filled L k₂ d₂ (2 * PGSIZE) fun _ => 0 := (hfill₂ (by decide : 2 * PGSIZE ≠ 0)).2
  obtain ⟨d₃, hclear, -⟩ := (clearpteu_guard (n := 0) hfill₃ (by decide)).ok
  refine ⟨d₃, k₂, _, d, k₁, elfhdr_bareElf, rfl, hset, ?_⟩
  change loadImage L [] k₁ d = _
  unfold loadImage loadSegs
  dsimp only [bind, Except.bind]
  rw [hround, Nat.zero_add, halloc]
  dsimp only
  rw [if_neg (by decide), hclear]

/-- Much free memory. -/
def manyFree : Kmem := ⟨List.range' 2000 20000, fun _ _ => 0, []⟩

theorem manyFree_sound {a : Multiset Page} (hnd : a.Nodup) (ha : ∀ p ∈ a, 300 ≤ p ∧ p < 2000) :
    Sound someLayout manyFree a := by
  have hfree : ∀ p ∈ manyFree.free, 2000 ≤ p ∧ p < 22000 := by
    intro p hp
    have hp' : p ∈ List.range' 2000 20000 := hp
    simpa using hp'
  refine ⟨Multiset.nodup_add.2 ⟨List.nodup_range' .., hnd, ?_⟩, fun p hp => ?_⟩
  · refine Multiset.disjoint_left.2 fun {p} hp hp' => ?_
    exact Nat.not_le.2 (ha p hp').2 (hfree p hp).1
  · obtain hp | hp := Multiset.mem_add.1 hp
    · exact ⟨le_trans (by decide) (hfree p hp).1, (hfree p hp).2.trans (by decide)⟩
    · exact ⟨(ha p hp).1, (ha p hp).2.trans (by decide)⟩

theorem manyFree_rich : manyFree.Rich 20000 [] :=
  ⟨rfl, List.range' 2000 20000, (List.append_nil _).symm, (List.length_range' ..).ge⟩

/-- A process with 32 MB and 16 KB of memory, and memory enough for another image. -/
theorem exists_bigProcess : ∃ (k : Kmem) (s : Space), s.sz = 0x2004000#32 ∧ s.MapsExactly s.sz.toNat ∧
    Sound someLayout k (s.pgdir.owned + {1000}) ∧ k.Rich 1000 [] := by
  have hs : Sound someLayout manyFree {1000} := manyFree_sound (by decide) (by decide)
  obtain ⟨⟨x, k₁⟩, hset, hpages, hfresh, hok⟩ := (setupkvm_ends (hs.mono (Multiset.zero_le _))).ok
  obtain ⟨⟨d, hd⟩, hrich₁⟩ := hok (3000 + 2 * 0x2004) [] (manyFree_rich.mono (by decide))
  obtain rfl : x = some d := hd
  have hpages₁ : k₁.free + d.owned = manyFree.free := hpages
  have hs₁ : Sound someLayout k₁ d.owned := (hs.mono (Multiset.zero_le _)).of_eq (by rw [hpages₁, add_zero])
  have himg := Image.of_fresh (hfresh d rfl)
  have hends : Ends _ (allocuvm someLayout k₁ d 0 (0x2004 * PGSIZE)) _ := allocuvm_ends hs₁ fun u hu hlt => himg.none hu hlt
  obtain ⟨⟨sz, d₂, k₂⟩, -, hr, hsz, hrich₂, -⟩ := (hends.and (allocuvm_rich (by decide) (by decide) (hrich₁ : k₁.Rich (3000 + 2 * (0x2004 - 0)) []))).ok
  obtain rfl : sz = 0x2004 * PGSIZE := hsz
  have himg₂ : Image d₂ (0x2004 * PGSIZE) := himg.grown hr (by decide : 0x2004 * PGSIZE ≠ 0)
  refine ⟨k₂, ⟨d₂, 0x2004000#32⟩, rfl, himg₂.mapped, hs.of_eq ?_, hrich₂.mono (by decide)⟩
  have hpages₂ : k₂.free + d₂.owned = k₁.free + d.owned := hr.pages
  rw [← add_assoc, hpages₂, hpages₁]

/-! ## Safe for every file -/

/-- Every `copyout` of `exec` returns -1 or writes on the new stack page only, and never
through a null pointer, if and only if no string of `argv` is more than 32 MB longer than
the address the stack pointer is at. -/
theorem copies_stay_on_stack_iff {file : List (BitVec 8)} (old : Space) (args : List Arg) (hs : Sound L k old.pgdir.owned)
    (hold : old.sz.toNat < KERNBASE) (hargs : ∀ a ∈ args, a.len < old.sz.toNat) (hreach : Reaches L k file sz d k') :
    EachCall old.pgdir d (CopySafe old.pgdir d sz) (copies args (BitVec.ofNat 32 sz) []) k' ↔
      NoStray (sz - PGSIZE) sz (args.take MAXARG) := by
  obtain ⟨hbuilt, hs', -⟩ := hreach.built (hs.mono (Multiset.zero_le _))
  have hall := eachCall_iff hbuilt hbuilt.inStack_top old.pgdir args [] hs' (Nat.zero_le _)
    fun a ha => (hargs a ha).trans hold
  rwa [List.length_nil, Nat.sub_zero, toNat_size hbuilt.image.size] at hall

theorem one_letter_stays : ∃ d k', Reaches someLayout manyFree bareElf (2 * PGSIZE) d k' ∧
    EachCall onePage.pgdir d (CopySafe onePage.pgdir d (2 * PGSIZE))
      (copies [⟨1, fun _ => 0x61⟩] (BitVec.ofNat 32 (2 * PGSIZE)) []) k' := by
  have hs : Sound someLayout manyFree onePage.pgdir.owned := by
    rw [onePage_owned]
    exact manyFree_sound (by decide) (by decide)
  obtain ⟨d, k', hreach⟩ := Reaches.bareElf (m := 0) (hs.mono (Multiset.zero_le _)) (manyFree_rich.mono (by decide))
  exact ⟨d, k', hreach, (copies_stay_on_stack_iff onePage _ hs (by decide) (by decide) hreach).2
    ⟨by decide, fun _ => trivial⟩⟩

/-- A string of a little more than 32 MB. -/
def longString : Arg := ⟨0x200203F, fun _ => 1⟩

/-- The stack pointer ends 64 bytes before the devices. -/
theorem longString_strays : Strays (2 * PGSIZE) longString := by decide

/-- A process with memory enough hands such a string to `exec`. -/
theorem long_string_strays : ¬ ∀ (L : Layout) (k : Kmem) (file : List (BitVec 8)) (sz : Nat) (d : Pgdir) (k' : Kmem)
    (old : Space) (args : List Arg), Sound L k old.pgdir.owned → old.sz.toNat < KERNBASE → old.MapsExactly old.sz.toNat →
      args.length ≤ MAXARG → (∀ a ∈ args, a.len < old.sz.toNat) → Reaches L k file sz d k' →
      EachCall old.pgdir d (CopySafe old.pgdir d sz) (copies args (BitVec.ofNat 32 sz) []) k' := by
  intro hall
  obtain ⟨k, s, hsz, hmaps, hs, hrich⟩ := exists_bigProcess
  obtain ⟨d, k', hreach⟩ := Reaches.bareElf (m := 0) (hs.mono (Multiset.zero_le _)) (hrich.mono (by decide))
  have hargs : ∀ a ∈ [longString], a.len < s.sz.toNat := by
    rw [hsz]
    decide
  have heach := hall _ k _ _ d k' s [longString] (hs.mono (Multiset.le_add_right ..)) (by rw [hsz]; decide) hmaps
    (by decide) hargs hreach
  obtain ⟨hbuilt, hs', -⟩ := hreach.built (hs.mono (Multiset.zero_le _))
  have hno := (eachCall_iff hbuilt hbuilt.inStack_top s.pgdir [longString] [] hs' (Nat.zero_le _) (by decide)).1 heach
  rw [toNat_size hbuilt.image.size] at hno
  exact hno.1 longString_strays

end Exec

end Xv6
