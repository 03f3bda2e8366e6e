import Xv6.Lib.Bytes
import Xv6.Proc
/-!
# Traps of one process

What the kernel does to the trap frame, the memory and the signal fields of one
process between the moments it runs in user mode: `alltraps` and `trapret`,
`trap`, `syscall` with the calls that reach the frame, `handle_signals` and
`sigret`. Other processes appear as the signals they send (`Ev.kill`), and
`scheduler` as what continues a stopped process (`Ev.cont`).

Memory is one space of bytes: user memory below `KERNBASE`, and the trap frame
at the top of the process's kernel stack. `handle_signals` and `sigret` take
addresses from the user without looking at them, so the frame must be in the
same memory as the user's stack.
-/

namespace Xv6

open Bytes

/-! ## Trap frames -/

/-- The words of `struct trapframe`. The segment selectors are the low halves of
theirs, with the padding above. -/
inductive Reg where
  | edi | esi | ebp | oesp | ebx | edx | ecx | eax
  | gs | fs | es | ds | trapno | err | eip | cs | eflags | esp | ss
  deriving DecidableEq, Repr

def Reg.index : Reg → Nat
  | .edi => 0 | .esi => 1 | .ebp => 2 | .oesp => 3 | .ebx => 4 | .edx => 5 | .ecx => 6 | .eax => 7
  | .gs => 8 | .fs => 9 | .es => 10 | .ds => 11 | .trapno => 12 | .err => 13 | .eip => 14 | .cs => 15
  | .eflags => 16 | .esp => 17 | .ss => 18

def Reg.ofIndex : Nat → Reg
  | 0 => .edi | 1 => .esi | 2 => .ebp | 3 => .oesp | 4 => .ebx | 5 => .edx | 6 => .ecx | 7 => .eax
  | 8 => .gs | 9 => .fs | 10 => .es | 11 => .ds | 12 => .trapno | 13 => .err | 14 => .eip | 15 => .cs
  | 16 => .eflags | 17 => .esp | _ => .ss

/-- Where the word is in a frame. -/
def Reg.offset (r : Reg) : Nat := 4 * r.index

abbrev Frame := Reg → BitVec 32

/-- `sizeof(struct trapframe)`. -/
def frameSize : Nat := 76

def FL_IF : BitVec 32 := 0x200
def FL_IOPL : BitVec 32 := 0x3000
def FL_VM : BitVec 32 := 0x20000
def DPL_USER : BitVec 32 := 3

/-- `(SEG_UCODE << 3) | DPL_USER` and `(SEG_UDATA << 3) | DPL_USER`. -/
def USER_CS : BitVec 16 := 0x1b
def USER_DS : BitVec 32 := 0x23

def Frame.cs (f : Frame) : BitVec 16 := (f .cs).setWidth 16

/-- What user code can do to the registers it was given: `cs` stays, and of the
flags `IF` changes only if `IOPL` is 3. -/
def Frame.Runs (f f' : Frame) : Prop :=
  f'.cs = f.cs ∧ f' .eflags &&& (FL_IOPL ||| FL_VM) = f .eflags &&& (FL_IOPL ||| FL_VM) ∧
    (f .eflags &&& FL_IOPL = FL_IOPL ∨ f' .eflags &&& FL_IF = f .eflags &&& FL_IF)

instance (f f' : Frame) : Decidable (f.Runs f') := inferInstanceAs (Decidable (_ ∧ _))

/-! ## Processes -/

def KERNBASE : Nat := 0x80000000
def KSTACKSIZE : Nat := 4096
def PGSIZE : Nat := 4096

def PGROUNDUP (n : Nat) : Nat := (n + PGSIZE - 1) / PGSIZE * PGSIZE

/-- Where the trap frame of a process is: at the top of its kernel stack. -/
structure FrameAddr where
  addr : BitVec 32
  low : KERNBASE + KSTACKSIZE ≤ addr.toNat + frameSize
  high : addr.toNat + frameSize < 2 ^ 32

/-- The size of a process's memory; `allocuvm` refuses more. -/
structure Size where
  val : BitVec 32
  le : val.toNat ≤ KERNBASE

theorem PGSIZE_le : (BitVec.ofNat 32 PGSIZE).toNat ≤ KERNBASE := by decide

/-- Where a process is between two steps: in user mode, in `handle_signals` at
signal `i`, in the `yield` of `sh_sigstop` there, or at the pops of `trapret`.
`lost` is a return to anything but 32-bit user mode, after which nothing is
modelled. -/
inductive Phase where
  | user | signals (i : Sig) | stopped (i : Sig) | trapret | lost | exited
  deriving DecidableEq, Repr

structure Task where
  mem : Mem 32
  /-- The registers in user mode. -/
  regs : Frame
  tf : FrameAddr
  sz : Size
  sig : Sigs
  uTrapFrameBU : BitVec 32
  phase : Phase

/-- Byte `k` of a frame. -/
def Frame.byte (f : Frame) (k : Nat) : BitVec 8 := byteOf (f (.ofIndex (k / 4))) (k % 4)

namespace Task

variable (t : Task)

/-- `p->tf->r`. -/
def get (r : Reg) : BitVec 32 := load t.mem (t.tf.addr + BitVec.ofNat 32 r.offset)

def set (r : Reg) (v : BitVec 32) : Task :=
  { t with mem := store t.mem (t.tf.addr + BitVec.ofNat 32 r.offset) v }

/-- A store to a word at an address the user chose. -/
def poke (a v : BitVec 32) : Task := { t with mem := store t.mem a v }

/-- `*p->tf`. -/
def frame : Frame := fun r => t.get r

/-- The kernel can access address `a`: it is on a page of the process, or above
`KERNBASE`. -/
def mapped (a : BitVec 32) : Prop := a.toNat < PGROUNDUP t.sz.val.toNat ∨ KERNBASE ≤ a.toNat

instance (a : BitVec 32) : Decidable (t.mapped a) := inferInstanceAs (Decidable (_ ∨ _))

/-- `exit`, or the panic on a page fault in the kernel. -/
def halt : Task := { t with phase := .exited }

/-- The kernel accesses the `n` bytes at `a` on its way to `t'`. -/
def access (a : BitVec 32) (n : Nat) (t' : Task) : Task :=
  if ∀ k, k < n → t.mapped (a + BitVec.ofNat 32 k) then t' else t.halt

/-- The hardware's and `alltraps`'s pushes. -/
def enter (trapno err : BitVec 32) : Task :=
  let f : Frame := fun
    | .trapno => trapno
    | .err => err
    | .oesp => t.tf.addr + 32
    | r => t.regs r
  { t with mem := write t.mem t.tf.addr frameSize f.byte }

/-! ## Signals -/

/-- The bytes from `sigret_start` to `sigret_end`: `movl $SYS_sigret, %eax; int $T_SYSCALL`. -/
def sigretCode : List (BitVec 8) := [0xb8, 0x18, 0, 0, 0, 0xcd, 0x40]

/-- The frame is saved on the user's stack, with the stack pointer it came with. -/
def saveFrame : Task :=
  let espbu := t.get .esp
  let t := t.set .esp (espbu - BitVec.ofNat 32 frameSize)
  let bu := t.get .esp
  let t := { t with uTrapFrameBU := bu, mem := memmove t.mem bu t.tf.addr frameSize }
  t.poke (bu + BitVec.ofNat 32 Reg.esp.offset) espbu

def injectSigret : Task :=
  let t := t.set .esp (t.get .esp - BitVec.ofNat 32 sigretCode.length)
  { t with mem := write t.mem (t.get .esp) sigretCode.length fun k => sigretCode.getD k 0 }

/-- The handler's argument, and the code to return to. -/
def pushArgs (i : Sig) : Task :=
  let t := t.poke (t.get .esp - 4) (BitVec.ofNat 32 i.val)
  let t := t.poke (t.get .esp - 8) (t.get .esp)
  t.set .esp (t.get .esp - 8)

/-- The user branch of `handle_signals`, after the masks. -/
def callHandler (i : Sig) : Task :=
  let t := (t.saveFrame.injectSigret).pushArgs i
  t.set .eip (t.sig.signalHandler i)

/-- How far below the stack pointer the user branch writes. -/
def handlerRoom : Nat := frameSize + sigretCode.length + 8

/-- The loop of `handle_signals`, from the signal after `i`. -/
def signalsNext (i : Sig) : Task :=
  match nextSig i with
  | some j => { t with phase := .signals j }
  | none => { t with phase := .trapret }

/-- A round of the loop of `handle_signals`. -/
def signalsRound (i : Sig) : Task :=
  if t.sig.pendingSignals = 0 then { t with phase := .trapret }
  else
    let t' := { t with sig := (t.sig.visit i).1 }
    match (t.sig.visit i).2 with
    | .next => t'.signalsNext i
    | .stop => { t' with phase := .stopped i }
    | .user => t.access (t.get .esp - BitVec.ofNat 32 handlerRoom) handlerRoom
        { t'.callHandler i with phase := .trapret }

/-- `handle_signals` is entered. -/
def handleSignals : Task :=
  if t.get .cs &&& 3 ≠ DPL_USER ∨ t.sig.killed then { t with phase := .trapret } else { t with phase := .signals 0 }

/-! ## System calls -/

def fetchint (addr : BitVec 32) : Option (BitVec 32) :=
  if t.sz.val ≤ addr ∨ t.sz.val < addr + 4 then none else some (load t.mem addr)

def argint (n : Nat) : Option (BitVec 32) := t.fetchint (t.get .esp + 4 + BitVec.ofNat 32 (4 * n))

def argptr (n : Nat) (size : BitVec 32) : Option (BitVec 32) := do
  let i ← t.argint n
  if size.toInt < 0 ∨ t.sz.val ≤ i ∨ t.sz.val < i + size then none else some i

def sysSigprocmask : Task :=
  match t.argint 0 with
  | none => t.set .eax (-1)
  | some m => { t with sig := t.sig.sigprocmask m }.set .eax t.sig.signalMask

/-- The first part of `sigaction`: what is stored through `oldact`. -/
def storeOldact (i : Sig) (oldact : BitVec 32) : Task :=
  if oldact = 0 then t
  else (t.poke oldact (t.sig.signalHandler i)).poke (oldact + 4) (t.sig.signalHandlerMasks i)

/-- `sigaction` for signal `i`. -/
def sigaction (i : Sig) (act oldact : BitVec 32) : Task :=
  let t' := t.storeOldact i oldact
  t.access oldact (if oldact = 0 then 0 else 8) <| t.access act 8
    { t' with sig := t'.sig.sigaction i (load t'.mem act) (load t'.mem (act + 4)) }

/-- The argument checks of `sys_sigaction`. One byte of each pointer is checked:
`sizeof(*sigaction)` is the size of a function. -/
def sigactionArgs : Option (Sig × BitVec 32 × BitVec 32) := do
  let signum ← t.argint 0
  if h : signum.toInt = SIGKILL.val ∨ signum.toInt = SIGSTOP.val ∨ signum.toInt < 0 ∨ 32 ≤ signum.toInt then none
  else
    let act ← t.argptr 1 1
    let oldact ← t.argptr 2 1
    some (⟨signum.toInt.toNat, by omega⟩, act, oldact)

def sysSigaction : Task :=
  match t.sigactionArgs with
  | none => t.set .eax (-1)
  | some (i, act, oldact) => (t.sigaction i act oldact).set .eax 0

/-- What `sigret` does, and the store of its result by `syscall`. -/
def restored : Task :=
  { t with sig := t.sig.sigret, mem := memmove t.mem t.tf.addr t.uTrapFrameBU frameSize }.set .eax 0

def sysSigret : Task := t.access t.uTrapFrameBU frameSize t.restored

end Task

/-- What the other system calls may do. -/
inductive Outcome where
  /-- Return `v`, having filled a buffer of the user. -/
  | ret (v buf : BitVec 32) (bytes : List (BitVec 8))
  | sbrk (v : BitVec 32) (sz : Size)
  | exec (entry sp : BitVec 32) (sz : Size) (image : Mem 32)
  /-- `fork`, from here on as seen by the child; `stale` and `bu` are what the
  last user of its slot left there. -/
  | child (tf : FrameAddr) (stale : Sigs) (bu : BitVec 32)
  | exit

/-- The signal fields of a child of `g`, in a slot that held `stale`. -/
def Sigs.fork (g stale : Sigs) : Sigs :=
  { stale with
    pendingSignals := 0
    signalMask := g.signalMask
    signalHandler := g.signalHandler
    signalHandlerMasks := g.signalHandlerMasks }

namespace Task

variable (t : Task)

/-- The other system calls, by number. -/
def sysOther (num : Nat) : Outcome → Option Task
  | .ret v buf bytes =>
    if num ≠ 2 ∧ buf.toNat + bytes.length ≤ t.sz.val.toNat then
      some ({ t with mem := write t.mem buf bytes.length fun k => bytes.getD k 0 }.set .eax v)
    else none
  | .sbrk v sz => if num = 12 then some ({ t with sz := sz }.set .eax v) else none
  | .exec entry sp sz image =>
    if num = 7 then
      let t' := { t with mem := fun x => if x.toNat < KERNBASE then image x else t.mem x, sz := sz, sig := t.sig.exec }
      some (((t'.set .eip entry).set .esp sp).set .eax 0)
    else none
  | .child tf stale bu =>
    if num = 1 then
      some ({ t with tf := tf, mem := copy t.mem tf.addr t.tf.addr frameSize, sig := t.sig.fork stale,
                     uTrapFrameBU := bu }.set .eax 0).handleSignals
    else none
  | .exit => if num = 2 then some t.halt else none

def syscall (o : Outcome) : Option Task :=
  match (t.get .eax).toNat with
  | 0 => some (t.set .eax (-1))
  | 22 => some t.sysSigprocmask
  | 23 => some t.sysSigaction
  | 24 => some t.sysSigret
  | num => if num < 25 then t.sysOther num o else some (t.set .eax (-1))

end Task

/-! ## Steps -/

inductive Ev where
  /-- User code computes, stores a byte, or executes `int $T_SYSCALL`. -/
  | run (f : Frame) | store (a : BitVec 32) (b : BitVec 8) | int (o : Outcome)
  /-- User code is interrupted, or faults. -/
  | trap (trapno err : BitVec 32) (fault : Bool)
  /-- `kill` sets a bit; `scheduler` finds the process continued by signal `j`. -/
  | kill (i : Sig) | cont (j : Sig)
  /-- The kernel goes on. -/
  | step

namespace Task

/-- The end of `trap` if it gets there: exit if killed, else `handle_signals`. A
child starts in `forkret` instead. -/
def trapEnd (t : Task) : Task :=
  if t.phase = .user then if t.sig.killed then t.halt else t.handleSignals else t

/-- The pops of `trapret`, and `iret`. -/
def pop (t : Task) : Task :=
  { t with
    regs := t.frame
    phase := if t.get .cs &&& 3 = DPL_USER ∧ t.get .eflags &&& FL_VM = 0 then .user else .lost }

def step (t : Task) : Ev → Option Task
  | .run f => if t.phase = .user ∧ t.regs.Runs f then some { t with regs := f } else none
  | .store a b =>
    if t.phase = .user ∧ a.toNat < PGROUNDUP t.sz.val.toNat then some { t with mem := Function.update t.mem a b }
    else none
  | .int o =>
    if t.phase = .user then
      if t.sig.killed then some t.halt else ((t.enter 64 0).syscall o).map trapEnd
    else none
  | .trap trapno err fault =>
    if t.phase = .user then
      some ({ t.enter trapno err with sig := { t.sig with killed := t.sig.killed || fault } }.trapEnd)
    else none
  | .kill i => some { t with sig := { t.sig with pendingSignals := t.sig.pendingSignals ||| bit i } }
  | .cont j =>
    if t.sig.frozen ∧ t.sig.continues j ∧ ∀ j' < j, ¬ t.sig.continues j' then
      some { t with sig := { t.sig with pendingSignals := t.sig.pendingSignals ^^^ bit j, frozen := false } }
    else none
  | .step => match t.phase with
    | .signals i => some (t.signalsRound i)
    | .stopped i => if t.sig.frozen then none else some (t.signalsNext i)
    | .trapret => some t.pop
    | _ => none

/-- The frame `userinit` sets up. -/
def initFrame : Frame
  | .cs => USER_CS.setWidth 32
  | .ds | .es | .ss => USER_DS
  | .eflags => FL_IF
  | .esp => BitVec.ofNat 32 PGSIZE
  | _ => 0

/-- `userinit`: `initcode` is in `m`, and `forkret` returns to `trapret`. -/
def userinit (m : Mem 32) (tf : FrameAddr) : Task :=
  handleSignals
    { mem := write m tf.addr frameSize initFrame.byte
      regs := initFrame
      tf := tf
      sz := ⟨BitVec.ofNat 32 PGSIZE, PGSIZE_le⟩
      sig := .zero
      uTrapFrameBU := 0
      phase := .user }

end Task

/-- A trap frame at the top of a kernel stack, for runs on fixed inputs. -/
def kstackFrame : FrameAddr := ⟨0x8dffefb4, by decide, by decide⟩

/-- A frame with `eax` replaced. -/
def withEax (f : Frame) (v : BitVec 32) : Frame := Function.update f .eax v

end Xv6
