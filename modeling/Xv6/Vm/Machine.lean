import Xv6.File.Code
import Xv6.Vm.Exec
/-!
# Memory from boot on (main.c, proc.c, sysfile.c)

The processes with their address spaces, kernel cpuStacks and open files, and the
calls that allocate or free pages: `fork`, `exec`, `sbrk`, `exit`, `wait`, `pipe`
and `close`. Each call runs from entry to return, and for each one it is given
at which of its calls `kalloc` fails. A process may also store in its memory.
What the calls return is left out, and so is the file system: a descriptor is
one of a pipe, and a program is what its file holds.
-/

namespace Xv6

inductive MachinePanic where
  | vm (e : VmPanic)
  | file (e : FilePanic)
  | boot                     -- out of memory before the first process runs
  | exit                     -- "init exiting"
  deriving DecidableEq

structure Mproc (P : Type) where
  space : Space
  kstack : Page
  parent : P
  zombie : Bool
  ofile : Ofile

structure Machine (P : Type) where
  kmem : Kmem
  proc : P → Option (Mproc P)
  ft : Ftable Unit
  initproc : P

/-! ## Boot -/

def freerange (L : Layout) (p : Page) : Nat → Kmem → Except VmPanic Kmem
  | 0, k => .ok k
  | n + 1, k => do
    let k ← k.kfree L p
    freerange L (p + 1) n k

/-- The stacks of `startothers`. -/
def startothers : Nat → Kmem → Except MachinePanic (List Page × Kmem)
  | 0, k => .ok ([], k)
  | n + 1, k =>
    match k.kalloc with
    | (none, _) => .error .boot
    | (some p, k) => do
      let (ps, k) ← startothers n k
      .ok (p :: ps, k)

/-- The address space of the first process: `setupkvm` and `inituvm`, which does not look
whether it got its page and could map it. -/
def initSpace (L : Layout) (initcode : PageData) (k : Kmem) : Except MachinePanic (Space × Kmem) := do
  match ← (setupkvm L k).mapError .vm with
  | (none, _) => .error .boot
  | (some d, k) =>
    match k.kalloc with
    | (none, _) => .error .boot
    | (some p, k) => do
      let (_, d, k) ← (mappages (k.memset p 0) d 0 ⟨p, true, true⟩ 1).mapError .vm
      .ok (⟨d, BitVec.ofNat 32 PGSIZE⟩, { k with content := Function.update k.content p initcode })

/-- The frames of the first 4 MB, which are free before `kvmalloc`. -/
def lowFrames : Nat := 4 * 1024 * 1024 / PGSIZE

variable {P : Type} [DecidableEq P]

/-- What is allocated at boot and never freed: the page directory of the schedulers, and the
stacks of the other processors. -/
structure Taken where
  kpgdir : Pgdir
  cpuStacks : List Page

/-- `main` up to the first process `p`, with `n` other processors; `kalloc` fails only on an
empty list. -/
@[irreducible] def boot (L : Layout) (n : Nat) (initcode : PageData) (content : Page → PageData) (p : P) :
    Except MachinePanic (Machine P × Taken) := do
  let k ← (freerange L L.first (lowFrames - L.first) ⟨[], content, []⟩).mapError .vm
  match ← (setupkvm L k).mapError .vm with
  | (none, _) => .error .boot
  | (some kpgdir, k) =>
    let (cpuStacks, k) ← startothers n k
    let k ← (freerange L lowFrames (PHYSTOP / PGSIZE - lowFrames) k).mapError .vm
    match { k with fails := [] }.kalloc with
    | (none, _) => .error .boot
    | (some kstack, k) =>
      let (space, k) ← initSpace L initcode k
      let ft := ⟨fun _ => ⟨0, .none, false, false, 0⟩, fun _ => none⟩
      .ok (⟨k, fun q => if q = p then some ⟨space, kstack, p, false, fun _ => none⟩ else none, ft, p⟩, ⟨kpgdir, cpuStacks⟩)

/-! ## Calls -/

namespace Machine

def setProc (s : Machine P) (p : P) (x : Option (Mproc P)) : Machine P :=
  { s with proc := Function.update s.proc p x }

/-- `fork`, with the slot `q` of the table that the child gets if it is free. -/
def fork (L : Layout) (s : Machine P) (p : P) (x : Mproc P) (q : P) : Except MachinePanic (Machine P) :=
  if (s.proc q).isSome then .ok s
  else match s.kmem.kalloc with
    | (none, k) => .ok { s with kmem := k }
    | (some kstack, k) => do
      match ← (copyuvm L k x.space.pgdir x.space.sz.toNat).mapError .vm with
      | (none, k) =>
        let k ← (k.kfree L kstack).mapError .vm
        .ok { s with kmem := k }
      | (some d, k) =>
        let ft ← (s.ft.dupAll x.ofile).mapError .file
        .ok ({ s with kmem := k, ft := ft }.setProc q (some ⟨⟨d, x.space.sz⟩, kstack, p, false, x.ofile⟩))

def exec (L : Layout) (s : Machine P) (p : P) (x : Mproc P) (prog : Program) (args : List Arg) :
    Except MachinePanic (Machine P) := do
  let (_, space, k) ← (x.space.exec L s.kmem prog args).mapError .vm
  .ok ({ s with kmem := k }.setProc p (some { x with space := space }))

def sbrk (L : Layout) (s : Machine P) (p : P) (x : Mproc P) (n : BitVec 32) : Except MachinePanic (Machine P) := do
  let (_, space, k) ← (growproc L s.kmem x.space n).mapError .vm
  .ok ({ s with kmem := k }.setProc p (some { x with space := space }))

def fileclose (L : Layout) (s : Machine P) (f : FileId) : Except MachinePanic (Machine P) := do
  match ← (s.ft.fileclose f).mapError .file with
  | (.page q, ft) =>
    let k ← (s.kmem.kfree L q).mapError .vm
    .ok { s with ft := ft, kmem := k }
  | (_, ft) => .ok { s with ft := ft }

/-- `exit`: the files are closed, the children get `init` for a parent. The address space
and the kernel stack stay for `wait`. -/
def exit (L : Layout) (s : Machine P) (p : P) (x : Mproc P) : Except MachinePanic (Machine P) :=
  if p = s.initproc then .error .exit
  else do
    let s ← x.ofile.slots.foldlM (fileclose L) (s.setProc p (some { x with ofile := fun _ => none, zombie := true }))
    .ok { s with proc := fun q => (s.proc q).map fun y => if y.parent = p then { y with parent := s.initproc } else y }

/-- `wait`, with the child `q` that it looks at. -/
def wait (L : Layout) (s : Machine P) (p : P) (q : P) : Except MachinePanic (Machine P) :=
  match s.proc q with
  | none => .ok s
  | some y =>
    if y.parent = p ∧ y.zombie = true then do
      let k ← (s.kmem.kfree L y.kstack).mapError .vm
      let k ← (freevm L k y.space.pgdir).mapError .vm
      .ok ({ s with kmem := k }.setProc q none)
    else .ok s

def pipe (L : Layout) (s : Machine P) (p : P) (x : Mproc P) : Except MachinePanic (Machine P) := do
  match ← (s.ft.pipealloc Kmem.kalloc s.kmem).mapError .file with
  | (none, ft, k) => .ok { s with ft := ft, kmem := k }
  | (some (rf, wf), ft, k) =>
    let s := { s with ft := ft, kmem := k }
    match fdalloc x.ofile with
    | none => do
      let s ← s.fileclose L rf
      s.fileclose L wf
    | some fd0 =>
      let ofile := Function.update x.ofile fd0 (some rf)
      match fdalloc ofile with
      | none => do
        let s ← s.fileclose L rf
        s.fileclose L wf
      | some fd1 => .ok (s.setProc p (some { x with ofile := Function.update ofile fd1 (some wf) }))

def close (L : Layout) (s : Machine P) (p : P) (x : Mproc P) (fd : Fd) : Except MachinePanic (Machine P) :=
  match x.ofile fd with
  | none => .ok s
  | some f => (s.setProc p (some { x with ofile := Function.update x.ofile fd none })).fileclose L f

/-- A store of the process itself in the user half, if its page tables allow it. -/
def store (s : Machine P) (x : Mproc P) (a : BitVec 32) (b : BitVec 8) : Machine P :=
  match x.space.pgdir.get (a.toNat / PGSIZE) with
  | none => s
  | some e =>
    if a.toNat < KERNBASE ∧ e.user ∧ e.write then { s with kmem := s.kmem.store e.page (a.toNat % PGSIZE) 1 fun _ => b } else s

inductive Call (P : Type) where
  | fork (child : P)
  | exec (prog : Program) (args : List Arg)
  | sbrk (n : BitVec 32)
  | exit
  | wait (child : P)
  | pipe
  | close (fd : Fd)
  | store (a : BitVec 32) (b : BitVec 8)

def syscall (L : Layout) (s : Machine P) (p : P) (x : Mproc P) : Call P → Except MachinePanic (Machine P)
  | .fork q => s.fork L p x q
  | .exec prog args => s.exec L p x prog args
  | .sbrk n => s.sbrk L p x n
  | .exit => s.exit L p x
  | .wait q => s.wait L p q
  | .pipe => s.pipe L p x
  | .close fd => s.close L p x fd
  | .store a b => .ok (s.store x a b)

/-- Who calls, where `kalloc` fails during the call, and the call. -/
structure Label (P : Type) where
  p : P
  fails : List Bool
  call : Call P

/-- One call: not enabled if there is no such process or if the call panics. -/
def step (L : Layout) (s : Machine P) (l : Label P) : Option (Machine P) :=
  match s.proc l.p with
  | none => none
  | some x =>
    if x.zombie then none
    else (syscall L { s with kmem := { s.kmem with fails := l.fails } } l.p x l.call).toOption

end Machine

end Xv6
