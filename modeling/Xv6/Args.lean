import Xv6.Trap.Code
/-!
# Pointers in system call arguments

`argptr` checks that a block of the given size lies in the process's memory, and
each system call passes the size of what it will access. `sys_sigaction` passes
the wrong one: it checks one byte where `sigaction` accesses eight.
-/

namespace Xv6

open Bytes

/-- A block of user memory that the kernel reads or writes, by its first address. -/
structure Region where
  addr : BitVec 32
  len : Nat
  deriving DecidableEq, Repr

/-- Every byte of the block is below `sz`, as the 32-bit address the kernel computes. -/
def Region.Within (r : Region) (sz : Size) : Prop :=
  ∀ k, k < r.len → (r.addr + BitVec.ofNat 32 k).toNat < sz.val.toNat

/-- `sizeof(struct stat)`. -/
def statSize : Nat := 20

/-- `sizeof(struct sigaction)`. -/
def sigactionSize : Nat := 8

namespace Task

variable (t : Task)

/-- `argfd`: the open file that argument `n` names. -/
def argfd (ofile : Fin NOFILE → Option Nat) (n : Nat) : Option Nat := do
  let fd ← t.argint n
  if h : fd.toInt < 0 ∨ (NOFILE : Int) ≤ fd.toInt then none else ofile ⟨fd.toInt.toNat, by omega⟩

/-- The argument checks of `sys_read` and `sys_write`, with the buffer they pass on. -/
def fileArgs (ofile : Fin NOFILE → Option Nat) : Option (List Region) := do
  let _ ← t.argfd ofile 0
  let n ← t.argint 2
  let p ← t.argptr 1 n
  some [⟨p, n.toNat⟩]

def sysRead (ofile : Fin NOFILE → Option Nat) : Option (List Region) := t.fileArgs ofile

def sysWrite (ofile : Fin NOFILE → Option Nat) : Option (List Region) := t.fileArgs ofile

def sysFstat (ofile : Fin NOFILE → Option Nat) : Option (List Region) := do
  let _ ← t.argfd ofile 0
  let st ← t.argptr 1 (BitVec.ofNat 32 statSize)
  some [⟨st, statSize⟩]

def sysPipe : Option (List Region) := do
  let fd ← t.argptr 0 8
  some [⟨fd, 8⟩]

/-- What `sigaction` accesses once `sys_sigaction` has checked its arguments. -/
def sigactionRegions : Option (List Region) := do
  let (_, act, oldact) ← t.sigactionArgs
  some ((if oldact = 0 then [] else [⟨oldact, sigactionSize⟩]) ++ [⟨act, sigactionSize⟩])

end Task

/-- The system calls that take the address of a block. -/
inductive PtrCall where
  | read | write | fstat | pipe | sigaction
  deriving DecidableEq, Repr

/-- The blocks the call accesses, `none` if its argument checks fail. -/
def PtrCall.regions (ofile : Fin NOFILE → Option Nat) (t : Task) : PtrCall → Option (List Region)
  | .read => t.sysRead ofile
  | .write => t.sysWrite ofile
  | .fstat => t.sysFstat ofile
  | .pipe => t.sysPipe
  | .sigaction => t.sigactionRegions

/-- For `sigaction`, `*act` and `*oldact` end below the process's size. -/
def PtrCall.Fits (t : Task) : PtrCall → Prop
  | .sigaction => ∀ act oldact, t.argint 1 = some act → t.argint 2 = some oldact →
      act.toNat + sigactionSize ≤ t.sz.val.toNat ∧ (oldact ≠ 0 → oldact.toNat + sigactionSize ≤ t.sz.val.toNat)
  | _ => True

/-! ## The checks -/

variable {t : Task}

/-- The comparison of `fetchint` does not wrap: memory ends at `KERNBASE`. -/
theorem fetchint_isSome (addr : BitVec 32) : (t.fetchint addr).isSome ↔ addr.toNat + 4 ≤ t.sz.val.toNat := by
  have hsz := t.sz.le
  unfold KERNBASE at hsz
  have hadd : (addr + 4).toNat = (addr.toNat + 4) % 2 ^ 32 := BitVec.toNat_add _ _
  unfold Task.fetchint
  split
  · rename_i h
    rw [BitVec.le_def, BitVec.lt_def, hadd] at h
    simp only [Option.isSome_none, Bool.false_eq_true, false_iff]
    omega
  · rename_i h
    rw [BitVec.le_def, BitVec.lt_def, hadd, not_or] at h
    simp only [Option.isSome_some, true_iff]
    omega

/-- Nor does the one of `argptr`: a size is an `int`. -/
theorem argptr_eq_some {n : Nat} {size i : BitVec 32} :
    t.argptr n size = some i ↔
      t.argint n = some i ∧ 0 ≤ size.toInt ∧ i.toNat < t.sz.val.toNat ∧ i.toNat + size.toNat ≤ t.sz.val.toNat := by
  have hsz := t.sz.le
  unfold KERNBASE at hsz
  refine Option.bind_eq_some_iff.trans ?_
  constructor
  · rintro ⟨j, hj, h⟩
    split at h <;> cases h
    rename_i h
    rw [not_or, not_or, BitVec.le_def, BitVec.lt_def, BitVec.toNat_add] at h
    refine ⟨hj, by omega, by omega, ?_⟩
    have := BitVec.toInt_eq_toNat_cond size
    split at this <;> omega
  · rintro ⟨hj, hs, hlt, hle⟩
    refine ⟨i, hj, if_neg ?_⟩
    rw [not_or, not_or, BitVec.le_def, BitVec.lt_def, BitVec.toNat_add]
    refine ⟨by omega, by omega, by omega⟩

/-- A block below `sz` does not wrap. -/
theorem within_iff {sz : Size} {a : BitVec 32} {n : Nat} (ha : a.toNat < sz.val.toNat) (hn : n < 2 ^ 31) :
    Region.Within ⟨a, n⟩ sz ↔ a.toNat + n ≤ sz.val.toNat := by
  have hsz := sz.le
  unfold KERNBASE at hsz
  have hadd (k : Nat) (hk : k < n) : (a + BitVec.ofNat 32 k).toNat = a.toNat + k := toNat_add_ofNat (by omega)
  constructor
  · intro h
    by_contra hlt
    have := h (n - 1) (by dsimp only; omega)
    rw [hadd (n - 1) (by omega)] at this
    omega
  · intro h k hk
    rw [hadd k hk]
    dsimp only at hk
    omega

/-- A pointer that was checked with the size of the block it is used for. -/
theorem within_argptr {n : Nat} {size i : BitVec 32} (h : t.argptr n size = some i) :
    Region.Within ⟨i, size.toNat⟩ t.sz := by
  obtain ⟨_, hs, hlt, hle⟩ := argptr_eq_some.1 h
  have hsz := t.sz.le
  unfold KERNBASE at hsz
  refine (within_iff hlt ?_).2 hle
  have := BitVec.toInt_eq_toNat_cond size
  split at this <;> omega

theorem within_fileArgs {ofile : Fin NOFILE → Option Nat} {rs : List Region} (h : t.fileArgs ofile = some rs) :
    ∀ r ∈ rs, r.Within t.sz := by
  obtain ⟨_, _, h⟩ := Option.bind_eq_some_iff.1 h
  obtain ⟨n, _, h⟩ := Option.bind_eq_some_iff.1 h
  obtain ⟨p, hp, h⟩ := Option.bind_eq_some_iff.1 h
  cases h
  intro r hr
  rw [List.mem_singleton.1 hr]
  exact within_argptr hp

theorem within_sysFstat {ofile : Fin NOFILE → Option Nat} {rs : List Region} (h : t.sysFstat ofile = some rs) :
    ∀ r ∈ rs, r.Within t.sz := by
  obtain ⟨_, _, h⟩ := Option.bind_eq_some_iff.1 h
  obtain ⟨st, hst, h⟩ := Option.bind_eq_some_iff.1 h
  cases h
  intro r hr
  rw [List.mem_singleton.1 hr]
  exact within_argptr hst

theorem within_sysPipe {rs : List Region} (h : t.sysPipe = some rs) : ∀ r ∈ rs, r.Within t.sz := by
  obtain ⟨fd, hfd, h⟩ := Option.bind_eq_some_iff.1 h
  cases h
  intro r hr
  rw [List.mem_singleton.1 hr]
  exact within_argptr hfd

theorem within_sigaction_iff {rs : List Region} (h : t.sigactionRegions = some rs) :
    (∀ r ∈ rs, r.Within t.sz) ↔ PtrCall.sigaction.Fits t := by
  obtain ⟨⟨i, act, oldact⟩, hargs, h⟩ := Option.bind_eq_some_iff.1 h
  cases h
  obtain ⟨signum, _, hargs⟩ := Option.bind_eq_some_iff.1 hargs
  split at hargs
  · cases hargs
  obtain ⟨_, ha, hargs⟩ := Option.bind_eq_some_iff.1 hargs
  obtain ⟨_, ho, hargs⟩ := Option.bind_eq_some_iff.1 hargs
  cases hargs
  obtain ⟨ha, _, halt, _⟩ := argptr_eq_some.1 ha
  obtain ⟨ho, _, holt, _⟩ := argptr_eq_some.1 ho
  have hact := within_iff (n := sigactionSize) halt (by decide)
  have hold := within_iff (n := sigactionSize) holt (by decide)
  constructor
  · intro h act' oldact' ha' ho'
    rw [ha] at ha'; cases ha'
    rw [ho] at ho'; cases ho'
    refine ⟨hact.1 (h _ (by simp)), fun hne => hold.1 (h _ ?_)⟩
    rw [if_neg hne]
    simp
  · intro h r hr
    obtain ⟨h₁, h₂⟩ := h act oldact ha ho
    rcases List.mem_append.1 hr with hr | hr
    · split at hr
      · cases hr
      · rename_i hne
        rw [List.mem_singleton.1 hr]
        exact hold.2 (h₂ hne)
    · rw [List.mem_singleton.1 hr]
      exact hact.2 h₁

/-- The checks of `fetchint` and `argptr` are those of the natural numbers. Once its
arguments pass, a call accesses bytes of the process's memory only, always for `read`,
`write`, `fstat` and `pipe`, and for `sigaction` exactly when its two blocks end there. -/
theorem accesses_within_iff (t : Task) (ofile : Fin NOFILE → Option Nat) :
    (∀ addr, (t.fetchint addr).isSome ↔ addr.toNat + 4 ≤ t.sz.val.toNat) ∧
    (∀ n size i, t.argptr n size = some i ↔
      t.argint n = some i ∧ 0 ≤ size.toInt ∧ i.toNat < t.sz.val.toNat ∧ i.toNat + size.toNat ≤ t.sz.val.toNat) ∧
    ∀ (call : PtrCall) rs, call.regions ofile t = some rs → ((∀ r ∈ rs, r.Within t.sz) ↔ call.Fits t) := by
  refine ⟨fetchint_isSome, fun _ _ _ => argptr_eq_some, fun call rs h => ?_⟩
  cases call with
  | read | write => exact iff_of_true (within_fileArgs h) trivial
  | fstat => exact iff_of_true (within_sysFstat h) trivial
  | pipe => exact iff_of_true (within_sysPipe h) trivial
  | sigaction => exact within_sigaction_iff h

/-- A process of one page that calls `sigaction(3, act, 0)`. -/
def sigactionCall (act : BitVec 32) : Task where
  mem := store (store (store (fun _ => 0) 0x80002fb4 0x100) 0x104 3) 0x108 act
  regs _ := 0
  tf := ⟨0x80002f70, by decide, by decide⟩
  sz := ⟨0x1000, by decide⟩
  sig := .zero
  uTrapFrameBU := 0
  phase := .user

/-- A `struct sigaction` at the last byte of memory passes the checks. -/
theorem sigactionCall_beyond :
    ¬ ∀ (t : Task) (ofile : Fin NOFILE → Option Nat) (call : PtrCall) rs, call.regions ofile t = some rs →
      ∀ r ∈ rs, r.Within t.sz := by
  intro h
  have hrs : PtrCall.sigaction.regions (fun _ => none) (sigactionCall 0xfff) = some [⟨0xfff, 8⟩] := by decide
  have := h _ _ .sigaction _ hrs ⟨0xfff, 8⟩ (by simp) 1 (by decide)
  exact absurd this (by decide)

/-- One that ends with it is read within memory. -/
theorem sigactionCall_within :
    PtrCall.sigaction.regions (fun _ => none) (sigactionCall 0xff8) = some [⟨0xff8, 8⟩] ∧
      Region.Within ⟨0xff8, 8⟩ (sigactionCall 0xff8).sz := by
  have hrs : PtrCall.sigaction.regions (fun _ => none) (sigactionCall 0xff8) = some [⟨0xff8, 8⟩] := by decide
  refine ⟨hrs, ((accesses_within_iff _ _).2.2 .sigaction _ hrs).2 ?_ _ (by simp)⟩
  intro act oldact ha ho
  have hact : (sigactionCall 0xff8).argint 1 = some 0xff8 := by decide
  have hold : (sigactionCall 0xff8).argint 2 = some 0 := by decide
  rw [hact] at ha; cases ha
  rw [hold] at ho; cases ho
  exact ⟨by decide, fun hne => absurd rfl hne⟩

end Xv6
