import Xv6.Kernel.Control
/-!
# The kernel's process code, one atomic access at a time

Each function below follows one function of `proc.c` (with `trap`, and the wait
loops of `pipe.c`, `sysproc.c` and `console.c`). At each place it says which
single store the thread makes, if any, and where it goes on; loads and `cas`
look at the current state. `step` runs one such access on one CPU, so a list
of CPUs and choices is an interleaving.

The code between these functions may call them in any order the kernel allows:
`sleep` with its lock held, `yield` with no spinlock held, and so on.
-/

namespace Xv6

structure Proc where
  state : PState
  chan : Chan
  parent : Option Slot
  pid : Int
  /-- How many spinlocks the process's CPU holds. -/
  ncli : Nat
  sig : Sigs

structure Kernel (C : Type) where
  proc : Slot → Proc
  /-- Where each process's kernel thread stands. -/
  pc : Slot → Pc
  cpu : C → Cpu
  /-- `lk->locked` and `lk->cpu`, as the process that CPU runs. -/
  lock : Lock → Option Slot
  nextpid : Int

/-- After `userinit`, with every CPU about to run `scheduler`. -/
def Kernel.init (C : Type) : Kernel C where
  proc p := ⟨if p = initproc then .runnable else .unused, .null, none,
    if p = initproc then 2 else 0, 0, .zero⟩
  pc _ := .resume .forkret
  cpu _ := .sched .top
  lock _ := none
  nextpid := 2

variable {C : Type}

/-! ## Stores -/

/-- A store to one word of shared memory (`sig` also stores whole handler
tables, which no other thread writes). -/
inductive Store where
  | skip
  | state (q : Slot) (v : PState)
  | chan (q : Slot) (v : Chan)
  | parent (q : Slot) (v : Option Slot)
  | pid (q : Slot) (v : Int)
  | sig (q : Slot) (f : Sigs → Sigs)
  | acquire (p : Slot) (l : Lock)
  | release (p : Slot) (l : Lock)
  | nextpid (v : Int)
  /-- `p->context->eip = forkret`. -/
  | context (q : Slot)

namespace Kernel

def setProc (s : Kernel C) (q : Slot) (f : Proc → Proc) : Kernel C :=
  { s with proc := Function.update s.proc q (f (s.proc q)) }

def setPc (s : Kernel C) (q : Slot) (k : Pc) : Kernel C :=
  { s with pc := Function.update s.pc q k }

def setCpu [DecidableEq C] (s : Kernel C) (c : C) (k : Cpu) : Kernel C :=
  { s with cpu := Function.update s.cpu c k }

def store (s : Kernel C) : Store → Kernel C
  | .skip => s
  | .state q v => s.setProc q fun p => { p with state := v }
  | .chan q v => s.setProc q fun p => { p with chan := v }
  | .parent q v => s.setProc q fun p => { p with parent := v }
  | .pid q v => s.setProc q fun p => { p with pid := v }
  | .sig q f => s.setProc q fun p => { p with sig := f p.sig }
  | .acquire p l =>
    { s.setProc p fun p => { p with ncli := p.ncli + 1 } with lock := Function.update s.lock l (some p) }
  | .release p l =>
    { s.setProc p fun p => { p with ncli := p.ncli - 1 } with lock := Function.update s.lock l none }
  | .nextpid v => { s with nextpid := v }
  | .context q => s.setPc q (.resume .forkret)

abbrev state (s : Kernel C) (q : Slot) : PState := (s.proc q).state
abbrev chan (s : Kernel C) (q : Slot) : Chan := (s.proc q).chan
abbrev parent (s : Kernel C) (q : Slot) : Option Slot := (s.proc q).parent
abbrev sig (s : Kernel C) (q : Slot) : Sigs := (s.proc q).sig

end Kernel

/-- `cas(&q->state, old, new)`. -/
def cas {κ : Type} (s : Kernel C) (q : Slot) (old new : PState) (ok fail : κ) : Store × κ :=
  if s.state q = old then (.state q new, ok) else (.skip, fail)

/-! ## `wakeup1` -/

/-- What a step of `wakeup1` leads to: a place in it, its return, or its panic. -/
inductive Wakeup where
  | place (i : Slot) (k : WakeupPc)
  | done
  | panic

def wakeup1 (s : Kernel C) (ch : Chan) (i : Slot) : WakeupPc → Store × Wakeup
  | .chan => (.skip, if s.chan i = ch then .place i .sleeping else next)
  | .sleeping => (.skip, if s.state i = .sleeping then .place i .spin else .place i .negSleeping)
  | .negSleeping => (.skip, if s.state i = .negSleeping then .place i .spin else next)
  | .spin => (.skip, if s.state i = .negSleeping then .place i .spin else .place i .cas)
  | .cas => cas s i .sleeping .negRunnable (.place i .clear) next
  | .clear => (.chan i .null, .place i .runnable)
  | .runnable => cas s i .negRunnable .runnable next .panic
where
  next : Wakeup := match nextSlot i with
    | some j => .place j .chan
    | none => .done

/-! ## Functions a process calls -/

/-- `sleep(chan, lk)` up to `sched`, and its end; no caller passes `ptable.lock`. -/
def sleepCode (s : Kernel C) (p : Slot) (b : Base) (ch : Chan) (l : Lock) : SleepPc → Store × Pc
  | .cas => cas s p .running .negSleeping (.sleep b ch l .release) .panic
  | .release => if s.lock l = some p then (.release p l, .sleep b ch l .chan) else (.skip, .panic)
  | .chan => (.chan p ch, .sched (.sleep b ch l))
  | .acquire => match s.lock l with
    | none => (.acquire p l, .base b)
    | some q => (.skip, if q = p then .panic else .sleep b ch l .acquire)

/-- `kill(pid, signum)` for a signal number in range. -/
def killCode (s : Kernel C) (pid : Int) (sig : Sig) (i : Slot) : KillPc → Store × Pc
  | .pid => (.skip, if (s.proc i).pid = pid then .kill pid sig i .state else next)
  | .state => (.skip, if s.state i ≠ .unused then .kill pid sig i .handler else next)
  | .handler => (.skip, if (s.sig i).signalHandler sig = SIG_IGN then .base .sys else .kill pid sig i .load)
  | .load => (.skip, .kill pid sig i (.store (s.sig i).pendingSignals))
  | .store v => (.sig i fun g => { g with pendingSignals := v ||| bit sig }, .kill pid sig i .sleeping)
  | .sleeping => (.skip, .kill pid sig i (if s.state i = .sleeping then .mask else .negSleeping))
  | .negSleeping => (.skip, if s.state i = .negSleeping then .kill pid sig i .mask else .base .sys)
  | .mask => (.skip,
      if sig = SIGKILL then .kill pid sig i .spin
      else if (s.sig i).masked sig then .base .sys
      else .kill pid sig i .handler2)
  | .handler2 => (.skip,
      if (s.sig i).signalHandler sig = .ofSig SIGKILL ∨ (s.sig i).signalHandler sig = SIG_DFL
      then .kill pid sig i .spin else .base .sys)
  | .spin => (.skip, .kill pid sig i (if s.state i = .negSleeping then .spin else .cas))
  | .cas => cas s i .sleeping .runnable (.base .sys) (.base .sys)
where
  next : Pc := match nextSlot i with
    | some j => .kill pid sig j .pid
    | none => .base .error

/-- The loop of `exit` over the table, from the entry after `i`. -/
def exitNext (i : Slot) : Pc :=
  match nextSlot i with
  | some j => .exit (.scan j)
  | none => .sched .exit

/-- `exit` from its `cas` on. A failed `cas` is only reported. -/
def exitCode (s : Kernel C) (p : Slot) : ExitPc → Store × Pc
  | .cas => cas s p .running .negZombie (.exit .parent) (.exit .parent)
  | .parent => (.skip, .wakeup1 .exitParent (match s.parent p with | some q => .proc q | none => .null) 0 .chan)
  | .scan i => (.skip, if s.parent i = some p then .exit (.reparent i) else exitNext i)
  | .reparent i => (.parent i (some initproc), .exit (.spin i))
  | .spin i => (.skip, if s.state i = .negZombie then .exit (.spin i) else .exit (.zombie i))
  | .zombie i => (.skip,
      if s.state i = .zombie then .wakeup1 (.exitChild i) (.proc initproc) 0 .chan else exitNext i)

/-- The loop of `wait` over the table, from the entry after `i`. -/
def waitNext (i : Slot) (havekids : Bool) : Pc :=
  match nextSlot i with
  | some j => .wait (.scan j havekids)
  | none => .wait (.check havekids)

/-- `wait`. A failed first `cas` is only reported. -/
def waitCode (s : Kernel C) (p : Slot) : WaitPc → Store × Pc
  | .cas => cas s p .running .negSleeping (.wait .chan) (.wait .chan)
  | .chan => (.chan p (.proc p), .wait (.scan 0 false))
  | .scan i h => (.skip, if s.parent i = some p then .wait (.spin i) else waitNext i h)
  | .spin i => (.skip, if s.state i = .negZombie then .wait (.spin i) else .wait (.reap i))
  | .reap i => cas s i .zombie .preUnused (.wait (.pid i)) (waitNext i true)
  | .pid i => (.pid i 0, .wait (.parent i))
  | .parent i => (.parent i none, .wait (.killed i))
  | .killed i => (.sig i fun g => { g with killed := false }, .wait (.run i))
  | .run i => cas s p .negSleeping .running (.wait (.free i)) .panic
  | .free i => cas s i .preUnused .unused (.base .sys) .panic
  | .check h => (.skip, if h = false ∨ (s.sig p).killed then .wait .fail else .sched .wait)
  | .fail => cas s p .negSleeping .running (.wait .clear) .panic
  | .clear => (.chan p .null, .base .error)

/-- `allocproc`'s search for an `UNUSED` slot. -/
def allocCode (s : Kernel C) (i : Slot) : Store × Pc :=
  cas s i .unused .embryo (.base (.fork i .nextpid)) <| match nextSlot i with
    | some j => .allocproc j
    | none => .base .error

/-- The rest of `allocproc`, with `allocpid`, and of `fork`. -/
def forkCode (s : Kernel C) (p np : Slot) (fails : Bool) : ForkPc → Store × Pc
  | .nextpid => (.skip, .base (.fork np (.casPid s.nextpid)))
  | .casPid v =>
    if s.nextpid = v then (.nextpid (v + 1), .base (.fork np (.pid (v + 1))))
    else (.skip, .base (.fork np .nextpid))
  | .pid v => (.pid np v, .base (.fork np .kalloc))
  | .kalloc => (.skip, .base (.fork np (if fails then .undo else .context)))
  | .context => (.context np, .base (.fork np .handlers0))
  | .handlers0 => (.sig np fun g => { g with signalHandler := fun _ => SIG_DFL, signalHandlerMasks := fun _ => 0 },
      .base (.fork np .pending0))
  | .pending0 => (.sig np fun g => { g with pendingSignals := 0 }, .base (.fork np .mask0))
  | .mask0 => (.sig np fun g => { g with signalMask := 0 }, .base (.fork np .copyuvm))
  | .copyuvm => (.skip, .base (.fork np (if fails then .undo else .parent)))
  | .undo => (.state np .unused, .base .error)
  | .parent => (.parent np (some p), .base (.fork np .mask))
  | .mask => (.sig np fun g => { g with signalMask := (s.sig p).signalMask }, .base (.fork np .pending))
  | .pending => (.sig np fun g => { g with pendingSignals := 0 }, .base (.fork np .handlers))
  | .handlers => (.sig np fun g => { g with
        signalHandler := (s.sig p).signalHandler
        signalHandlerMasks := (s.sig p).signalHandlerMasks }, .base (.fork np .publish))
  | .publish => cas s np .embryo .runnable (.base .sys) .panic

/-- The loop of `handle_signals`, from the signal after `i`. -/
def signalsNext (i : Sig) : Base :=
  match nextSig i with
  | some j => .signals (.pending j)
  | none => .user

/-- `handle_signals` for a trap from user mode. What the user branch does to the
trap frame is in `Xv6.Trap.Code`. -/
def signalsCode (s : Kernel C) (p : Slot) : SignalsPc → Store × Pc
  | .killed => (.skip, .base (if (s.sig p).killed then .user else .signals (.pending 0)))
  | .pending i => (.skip, .base (if (s.sig p).pendingSignals ≠ 0 then .signals (.bit i) else .user))
  | .bit i => (.skip, .base (if (s.sig p).pending i then .signals (.mask i) else signalsNext i))
  | .mask i => (.skip, .base (if (s.sig p).masked i ∧ blockable i then signalsNext i else .signals (.ign i)))
  | .ign i => (.skip, .base
      (if (s.sig p).signalHandler i = SIG_IGN ∧ blockable i then signalsNext i else .signals (.load i)))
  | .load i => (.skip, .base (.signals (.store i (s.sig p).pendingSignals)))
  | .store i v => (.sig p fun g => { g with pendingSignals := v &&& ~~~bit i }, .base (.signals (.act i)))
  | .act i => match sigAct ((s.sig p).signalHandler i) i with
    | .stop => (.sig p fun g => { g with frozen := true }, .base (.signals (.stop i)))
    | .cont => (.sig p fun g => { g with frozen := false }, .base (signalsNext i))
    | .kill => (.sig p fun g => { g with killed := true }, .base (signalsNext i))
    | .user => (.sig p fun g => { g with
        signalMaskBU := g.signalMask
        signalMask := g.signalHandlerMasks i }, .base .user)
  | .stop i => (.skip, .yield (signalsNext i))

/-- `kill` is entered: it refuses signal numbers out of range. -/
def killEntry (pid signum : Int) : Pc :=
  if h : 0 ≤ signum ∧ signum < 32 then .kill pid ⟨signum.toNat, by omega⟩ 0 .pid else .base .error

/-- `exit` is entered; `init` may not. -/
def exitEntry (p : Slot) : Pc := if p = initproc then .panic else .base .exiting

/-- One round of a killable wait loop: leave it, give up with -1, or sleep
again (`pipewrite` wakes the readers first). -/
def loopCode (s : Kernel C) (p : Slot) (L : Loop) (ch : Chan) (l : Lock) (e : LoopEnv) : Store × Pc :=
  if L.blocked e then
    if L.hopeless e ∨ (s.sig p).killed then
      if s.lock l = some p then (.release p l, .base .error) else (.skip, .panic)
    else (.skip, match L with
      | .pipewrite nread => .wakeup1 (.base (.loopSleep L ch l)) nread 0 .chan
      | _ => .base (.loopSleep L ch l))
  else (.skip, .base .sys)

/-- What kernel code may do anywhere: take and release spinlocks, call
`wakeup`, and be made to yield by a timer tick when it holds no lock. -/
def kernelCode (s : Kernel C) (p : Slot) (b : Base) : Act → Option (Store × Pc)
  | .acquire l => some <| match s.lock l with
    | none => (.acquire p l, .base b)
    | some q => (.skip, if q = p then .panic else .base b)
  | .release l => some <| if s.lock l = some p then (.release p l, .base b) else (.skip, .panic)
  | .wakeup ch => some (.skip, .wakeup1 (.base b) ch 0 .chan)
  | .yield => if (s.proc p).ncli = 0 ∧ s.state p = .running then some (.skip, .yield b) else none
  | _ => none

/-- Going on to `k`, which the code does with no spinlock held. -/
def unlocked (s : Kernel C) (p : Slot) (k : Store × Pc) : Option (Store × Pc) :=
  if (s.proc p).ncli = 0 then some k else none

/-- The system calls, each up to the functions above. -/
def sysCode (s : Kernel C) (p : Slot) : Act → Option (Store × Pc)
  | .sleep ch l => if s.lock l = some p then some (.skip, .sleep .sys ch l .cas) else none
  | .loop L ch l => if s.lock l = some p then some (.skip, .base (.loop L ch l)) else none
  | .wait => unlocked s p (.skip, .wait .cas)
  | .exit => unlocked s p (.skip, exitEntry p)
  | .fork => unlocked s p (.skip, .allocproc 0)
  | .kill pid signum => unlocked s p (.skip, killEntry pid signum)
  | .sigprocmask m => some (.sig p (Sigs.sigprocmask m), .base .sys)
  | .sigaction i h m => some <|
      if i = SIGKILL ∨ i = SIGSTOP then (.skip, .base .error) else (.sig p (Sigs.sigaction i h m), .base .sys)
  | .sigret => some (.sig p Sigs.sigret, .base .sys)
  | .exec => some (.sig p Sigs.exec, .base .sys)
  | .step => unlocked s p (.skip, .base .sysret)
  | a => kernelCode s p .sys a

def baseCode (s : Kernel C) (p : Slot) (a : Act) : Base → Option (Store × Pc)
  | .user => match a with
    | .syscall => some (.skip, .base .syscall)
    | .trap => some (.skip, .base .trap)
    | _ => none
  | .syscall => some (.skip, if (s.sig p).killed then exitEntry p else .base .sys)
  | .sys => sysCode s p a
  | .error => some (.skip, .base .sysret)
  | .sysret => some (.skip, if (s.sig p).killed then exitEntry p else .base (.signals .killed))
  | .trap => match a with
    | .fault => some (.sig p fun g => { g with killed := true }, .base .trap)
    | .step => unlocked s p (.skip, .base .killed1)
    | .yield => none
    | a => kernelCode s p .trap a
  | .killed1 => some (.skip, if (s.sig p).killed then exitEntry p else .base .timer)
  | .timer => match a with
    | .yield => some (.skip, if s.state p = .running then .yield .killed2 else .base .killed2)
    | _ => some (.skip, .base .killed2)
  | .killed2 => some (.skip, if (s.sig p).killed then exitEntry p else .base (.signals .killed))
  | .exiting => match a with
    | .sleep ch l => if s.lock l = some p then some (.skip, .sleep .exiting ch l .cas) else none
    | .step => unlocked s p (.skip, .exit .cas)
    | a => kernelCode s p .exiting a
  | .forkret => match a with
    | .sleep ch l => if s.lock l = some p then some (.skip, .sleep .forkret ch l .cas) else none
    | .step => unlocked s p (.skip, .base (.signals .killed))
    | a => kernelCode s p .forkret a
  | .fork np k => match a with
    | .step => unlocked s p (forkCode s p np false k)
    | .fail => unlocked s p (forkCode s p np true k)
    | a => kernelCode s p (.fork np k) a
  | .signals k => match a with
    | .step => unlocked s p (signalsCode s p k)
    | a => kernelCode s p (.signals k) a
  | .loop L ch l => match a with
    | .env e => some (loopCode s p L ch l e)
    | _ => none
  | .loopSleep L ch l => some (.skip, .sleep (.loop L ch l) ch l .cas)

/-- The return of `wakeup1`. -/
def Ret.done : Ret → Pc
  | .base b => .base b
  | .exitParent => .exit (.scan 0)
  | .exitChild i => exitNext i

/-- Where the thread that called `wakeup1` stands after a step of it. -/
def Wakeup.pc (r : Ret) (ch : Chan) : Wakeup → Pc
  | .place i k => .wakeup1 r ch i k
  | .done => r.done
  | .panic => .panic

def procCode (s : Kernel C) (p : Slot) (a : Act) : Pc → Option (Store × Pc)
  | .base b => baseCode s p a b
  | .yield b => some (cas s p .running .negRunnable (.sched (.yield b)) .panic)
  | .sched k => some (.skip, if (s.proc p).ncli ≠ 0 ∨ s.state p = .running then .panic else .swtch k)
  | .swtch _ => none
  | .resume .forkret => some (.skip, .base .forkret)
  | .resume (.cont (.yield b)) => some (.skip, .base b)
  | .resume (.cont (.sleep b ch l)) => some (.chan p .null, .sleep b ch l .acquire)
  | .resume (.cont .wait) => some (.skip, .wait .cas)
  | .resume (.cont .exit) => some (.skip, .panic)
  | .sleep b ch l k => some (sleepCode s p b ch l k)
  | .wakeup1 r ch i k => some ((wakeup1 s ch i k).1, (wakeup1 s ch i k).2.pc r ch)
  | .kill pid sig i k => some (killCode s pid sig i k)
  | .exit k => some (exitCode s p k)
  | .wait k => some (waitCode s p k)
  | .allocproc i => some (allocCode s i)
  | .panic => none

/-! ## `scheduler` -/

/-- The loop of `scheduler` over the table, from the entry after `i`. -/
def schedNext (i : Slot) : Cpu :=
  match nextSlot i with
  | some j => .sched (.frozen j)
  | none => .sched .top

/-- `check_cont_sig` on the process in slot `i`, at signal `j`. -/
def contCode (s : Kernel C) (i : Slot) (j : Sig) : ContPc → Store × Cpu
  | .dfl => (.skip, .sched (.cont i j (.bit (j = SIGCONT && (s.sig i).signalHandler j = SIG_DFL))))
  | .bit d => (.skip, if (s.sig i).pending j then .sched (.cont i j (.mask d)) else next)
  | .mask d => (.skip, if (s.sig i).masked j then next else .sched (.cont i j (.handler d)))
  | .handler d => (.skip,
      if (s.sig i).signalHandler j = .ofSig SIGCONT ∨ d then .sched (.cont i j .load) else next)
  | .load => (.skip, .sched (.cont i j (.store (s.sig i).pendingSignals)))
  | .store v => (.sig i fun g => { g with pendingSignals := v ^^^ bit j }, .sched (.unfreeze i))
where
  next : Cpu := match nextSig j with
    | some j => .sched (.cont i j .dfl)
    | none => schedNext i

/-- Where an idle CPU stands after a step of a `wakeup1` made by an interrupt. -/
def Wakeup.cpu (ch : Chan) : Wakeup → Cpu
  | .place i k => .sched (.intr ch i k)
  | .done => .sched .top
  | .panic => .panic

def schedCode (s : Kernel C) (a : Act) : SchedPc → Option (Store × Cpu)
  | .top => match a with
    | .wakeup ch => some (.skip, .sched (.intr ch 0 .chan))
    | .step => some (.skip, .sched (.frozen 0))
    | _ => none
  | .intr ch i k => some ((wakeup1 s ch i k).1, (wakeup1 s ch i k).2.cpu ch)
  | .frozen i => some (.skip, if (s.sig i).frozen then .sched (.cont i 0 .dfl) else .sched (.claim i))
  | .cont i j k => some (contCode s i j k)
  | .unfreeze i => some (.sig i fun g => { g with frozen := false }, .sched (.claim i))
  | .claim i => some (cas s i .runnable .negRunning (.sched (.begin i)) (schedNext i))
  | .begin i => some (cas s i .negRunning .running (.sched (.enter i)) (.sched (.enter i)))
  | .enter i => some (.skip, .running i)
  | .runnable i => some (cas s i .negRunnable .runnable (.sched (.sleeping i)) (.sched (.sleeping i)))
  | .sleeping i => some (cas s i .negSleeping .sleeping (.sched (.zombie i)) (.sched (.zombie i)))
  | .zombie i => some (cas s i .negZombie .zombie (schedNext i) (schedNext i))

/-- One atomic access by CPU `l.1`, with the choice `l.2` where there is one.
`swtch` in `sched` leaves the process's stack for `scheduler`. -/
def step [DecidableEq C] (s : Kernel C) (l : C × Act) : Option (Kernel C) :=
  match s.cpu l.1 with
  | .sched k => (schedCode s l.2 k).map fun i => (s.store i.1).setCpu l.1 i.2
  | .running p => match s.pc p with
    | .swtch k => some ((s.setPc p (.resume (.cont k))).setCpu l.1 (.sched (.runnable p)))
    | k => (procCode s p l.2 k).map fun i => (s.store i.1).setPc p i.2
  | .panic => none

end Xv6
