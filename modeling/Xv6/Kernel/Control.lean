import Xv6.Proc
/-!
# Where a kernel thread stands

One constructor for each place in the code at which a thread makes its next
atomic access to shared memory: a load, a store or a `cas`. A process's
kernel thread has such a place while it runs and keeps one (`resume`) while it
is switched out. A CPU is in `scheduler()` or on the stack of a process.

`Base` lists the places where interrupts are on: there a timer tick may make
the process yield, and the place is kept so that it can go on later.
-/

namespace Xv6

/-! ## Killable wait loops -/

/-- The system calls that sleep in a loop testing `killed`, `wait` apart.
`pipewrite` wakes the pipe's readers, on `&p->nread`, before it sleeps. -/
inductive Loop where
  | piperead | pipewrite (nread : Chan) | sysSleep | consoleread
  deriving DecidableEq, Repr

/-- What a wait loop reads besides `killed`, under the lock it sleeps with. -/
inductive LoopEnv where
  | pipe (nread nwrite : BitVec 32) (readopen writeopen : Bool)
  | clock (ticks ticks0 n : BitVec 32)
  | console (r w : BitVec 32)
  deriving DecidableEq, Repr

/-- `PIPESIZE`. -/
def PIPESIZE : BitVec 32 := 512

/-- The `while` condition of the loop. In `sys_sleep` the comparison
`ticks - ticks0 < n` of a `uint` with an `int` is unsigned. -/
def Loop.blocked : Loop → LoopEnv → Bool
  | .piperead, .pipe nread nwrite _ writeopen => nread = nwrite && writeopen
  | .pipewrite _, .pipe nread nwrite _ _ => nwrite = nread + PIPESIZE
  | .sysSleep, .clock ticks ticks0 n => (ticks - ticks0).ult n
  | .consoleread, .console r w => r = w
  | _, _ => false

/-- The test beside `killed` that makes the loop give up: only `pipewrite` has
one, `p->readopen == 0`. -/
def Loop.hopeless : Loop → LoopEnv → Bool
  | .pipewrite _, .pipe _ _ readopen _ => !readopen
  | _, _ => false

/-! ## Process threads -/

/-- `fork` after `allocproc` has found a slot. -/
inductive ForkPc where
  | nextpid | casPid (pid : Int) | pid (pid : Int) | kalloc | context
  | handlers0 | pending0 | mask0 | copyuvm | undo
  | parent | mask | pending | handlers | publish
  deriving DecidableEq, Repr

/-- `handle_signals`. -/
inductive SignalsPc where
  | killed
  | pending (i : Sig) | bit (i : Sig) | mask (i : Sig) | ign (i : Sig)
  | load (i : Sig) | store (i : Sig) (v : BitVec 32) | act (i : Sig) | stop (i : Sig)
  deriving DecidableEq, Repr

inductive Base where
  /-- User code. -/
  | user
  /-- `trap`, at the first test of `killed` for a system call. -/
  | syscall
  /-- A system call, between the functions modelled here. -/
  | sys
  /-- A system call about to return -1. -/
  | error
  /-- `trap`, at the second test of `killed` for a system call. -/
  | sysret
  /-- `trap` for an interrupt or fault in user mode, and its later tests. -/
  | trap | killed1 | timer | killed2
  /-- `exit` before it changes the process state (closing files). -/
  | exiting
  | forkret
  | fork (np : Slot) (k : ForkPc)
  | signals (k : SignalsPc)
  /-- The test of a killable wait loop that sleeps on `ch` with lock `l`, and
  its call of `sleep`. -/
  | loop (L : Loop) (ch : Chan) (l : Lock)
  | loopSleep (L : Loop) (ch : Chan) (l : Lock)
  deriving DecidableEq, Repr

/-- A caller of `sched`, with what it needs afterwards. -/
inductive Cont where
  | yield (b : Base)
  | sleep (b : Base) (ch : Chan) (l : Lock)
  | wait
  | exit
  deriving DecidableEq, Repr

/-- What `p->context` of a switched out process points into. -/
inductive Ctx where
  | forkret
  | cont (k : Cont)
  deriving DecidableEq, Repr

inductive SleepPc where
  | cas | release | chan | acquire
  deriving DecidableEq, Repr

/-- `wakeup1` at one entry of the table: the test of `chan`, the two tests of
`state`, the spin, the `cas` to `-RUNNABLE`, the store to `chan` and the `cas`
to `RUNNABLE`. -/
inductive WakeupPc where
  | chan | sleeping | negSleeping | spin | cas | clear | runnable
  deriving DecidableEq, Repr

/-- The caller of `wakeup1`: `wakeup`, `exit` for its parent, or `exit` for
`initproc` on handing over the child in slot `i`. -/
inductive Ret where
  | base (b : Base)
  | exitParent
  | exitChild (i : Slot)
  deriving DecidableEq, Repr

inductive KillPc where
  | pid | state | handler | load | store (v : BitVec 32)
  | sleeping | negSleeping | mask | handler2 | spin | cas
  deriving DecidableEq, Repr

inductive ExitPc where
  | cas | parent
  | scan (i : Slot) | reparent (i : Slot) | spin (i : Slot) | zombie (i : Slot)
  deriving DecidableEq, Repr

/-- `wait`; the flag is `havekids`. -/
inductive WaitPc where
  | cas | chan
  | scan (i : Slot) (havekids : Bool) | spin (i : Slot) | reap (i : Slot)
  | pid (i : Slot) | parent (i : Slot) | killed (i : Slot) | run (i : Slot) | free (i : Slot)
  | check (havekids : Bool) | fail | clear
  deriving DecidableEq, Repr

inductive Pc where
  | base (b : Base)
  | yield (b : Base)
  | sched (k : Cont)
  | swtch (k : Cont)
  | resume (k : Ctx)
  | sleep (b : Base) (ch : Chan) (l : Lock) (k : SleepPc)
  | wakeup1 (r : Ret) (ch : Chan) (i : Slot) (k : WakeupPc)
  | kill (pid : Int) (sig : Sig) (i : Slot) (k : KillPc)
  | exit (k : ExitPc)
  | wait (k : WaitPc)
  | allocproc (i : Slot)
  | panic
  deriving DecidableEq, Repr

/-- In a call of `wait`. -/
def Pc.inWait : Pc → Bool
  | .wait _ | .sched .wait | .swtch .wait | .resume (.cont .wait) => true
  | _ => false

/-! ## CPUs -/

/-- `check_cont_sig` at one signal; the flag is `def`. -/
inductive ContPc where
  | dfl | bit (d : Bool) | mask (d : Bool) | handler (d : Bool) | load | store (v : BitVec 32)
  deriving DecidableEq, Repr

/-- `scheduler`. `top` is its window with interrupts on, `intr` a `wakeup` made
by an interrupt there. `claim`, `begin` and `enter` lead onto a process's
stack; `runnable`, `sleeping` and `zombie` are the three `cas` after it. -/
inductive SchedPc where
  | top
  | intr (ch : Chan) (i : Slot) (k : WakeupPc)
  | frozen (i : Slot) | cont (i : Slot) (j : Sig) (k : ContPc) | unfreeze (i : Slot)
  | claim (i : Slot) | begin (i : Slot) | enter (i : Slot)
  | runnable (i : Slot) | sleeping (i : Slot) | zombie (i : Slot)
  deriving DecidableEq, Repr

inductive Cpu where
  | sched (k : SchedPc)
  | running (p : Slot)
  | panic
  deriving DecidableEq, Repr

/-! ## Choices the code does not determine -/

inductive Act where
  /-- Go on; at a call that allocates, it succeeds. -/
  | step
  /-- The allocation fails. -/
  | fail
  | acquire (l : Lock) | release (l : Lock) | wakeup (ch : Chan)
  /-- A timer tick. -/
  | yield
  | sleep (ch : Chan) (l : Lock) | wait | exit | kill (pid signum : Int) | fork
  | loop (L : Loop) (ch : Chan) (l : Lock) | env (e : LoopEnv)
  | sigprocmask (m : BitVec 32) | sigaction (i : Sig) (h : Handler) (m : BitVec 32) | sigret | exec
  /-- User code makes a system call, is interrupted, or faults. -/
  | syscall | trap | fault
  deriving Repr

end Xv6
