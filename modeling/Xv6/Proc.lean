import Mathlib.Data.BitVec
/-!
# Process table entries

The constants of `param.h` and `types.h` and the part of `struct proc` that
the process and signal code reads and writes. The fields that signals use are
a record of their own (`Sigs`): they are the same in the model of the process
table, where other CPUs change them between any two steps, and in the model of
one process's trap frame.
-/

namespace Xv6

/-- `NPROC`. -/
def NPROC : Nat := 64

/-- `NOFILE`. -/
def NOFILE : Nat := 16

/-- An index into `ptable.proc`, standing for a `struct proc *`. -/
abbrev Slot := Fin NPROC

instance : NeZero NPROC := ⟨by decide⟩

/-- `p++` in a loop over the process table, `none` past its end. -/
def nextSlot (i : Slot) : Option Slot :=
  if h : i.val + 1 < NPROC then some ⟨i.val + 1, h⟩ else none

/-- `userinit` runs first, so `initproc` is the first slot `allocproc` finds. -/
def initproc : Slot := 0

/-- `enum procstate`, and the negated values that mark a transition under way. -/
inductive PState where
  | unused | embryo | sleeping | runnable | running | zombie | preUnused
  | negSleeping | negRunnable | negRunning | negZombie
  deriving DecidableEq, Repr

/-- A sleep channel: null, a process table entry (`wait`), or another kernel
address. -/
inductive Chan where
  | null
  | proc (p : Slot)
  | addr (a : Nat)
  deriving DecidableEq, Repr

/-- The address of a spinlock. -/
abbrev Lock := Nat

/-! ## Signals -/

/-- A signal number, below `SIGNAL_HANDLERS_SIZE`. -/
abbrev Sig := Fin 32

instance instNeZeroSig : NeZero 32 := ⟨by decide⟩

def SIGKILL : Sig := 9
def SIGSTOP : Sig := 17
def SIGCONT : Sig := 19

/-- A handler word (`void *`): one of `SIG_DFL`, `SIG_IGN`, a signal number
that stands for its default action, or a user address. -/
abbrev Handler := BitVec 32

def SIG_DFL : Handler := 0
def SIG_IGN : Handler := 1

/-- A signal number used as a handler word, as in `(void*)SIGSTOP`. -/
def Handler.ofSig (i : Sig) : Handler := BitVec.ofNat 32 i.val

/-- `i++` in a loop over the signals, `none` past the last. -/
def nextSig (i : Sig) : Option Sig :=
  if h : i.val + 1 < 32 then some ⟨i.val + 1, h⟩ else none

/-- `1 << i`. -/
def bit (i : Sig) : BitVec 32 := 1#32 <<< i.val

/-- The fields of `struct proc` that the signal code uses. -/
structure Sigs where
  pendingSignals : BitVec 32
  signalMask : BitVec 32
  signalMaskBU : BitVec 32
  signalHandler : Sig → Handler
  signalHandlerMasks : Sig → BitVec 32
  killed : Bool
  frozen : Bool

/-- A zeroed `struct proc`: `SIG_DFL` is 0. -/
def Sigs.zero : Sigs where
  pendingSignals := 0
  signalMask := 0
  signalMaskBU := 0
  signalHandler _ := SIG_DFL
  signalHandlerMasks _ := 0
  killed := false
  frozen := false

/-- `p->pendingSignals & (1 << i)`. -/
def Sigs.pending (g : Sigs) (i : Sig) : Prop := g.pendingSignals &&& bit i ≠ 0

/-- `p->signalMask & (1 << i)`. -/
def Sigs.masked (g : Sigs) (i : Sig) : Prop := g.signalMask &&& bit i ≠ 0

instance (g : Sigs) (i : Sig) : Decidable (g.pending i) := inferInstanceAs (Decidable (_ ≠ _))
instance (g : Sigs) (i : Sig) : Decidable (g.masked i) := inferInstanceAs (Decidable (_ ≠ _))

/-- `sigprocmask`, without the old mask it returns. -/
def Sigs.sigprocmask (m : BitVec 32) (g : Sigs) : Sigs := { g with signalMask := m }

/-- `sigaction`, once the handler has been accepted. -/
def Sigs.sigaction (i : Sig) (h : Handler) (m : BitVec 32) (g : Sigs) : Sigs :=
  { g with
    signalHandler := fun j => if j = i then h else g.signalHandler j
    signalHandlerMasks := fun j => if j = i then m else g.signalHandlerMasks j }

/-- What `sigret` does besides restoring the trap frame. -/
def Sigs.sigret (g : Sigs) : Sigs := { g with signalMask := g.signalMaskBU }

/-- The signal fields after `exec`. -/
def Sigs.exec (g : Sigs) : Sigs :=
  { g with signalHandler := fun i =>
      if g.signalHandler i ≠ SIG_IGN ∧ g.signalHandler i ≠ SIG_DFL then SIG_DFL else g.signalHandler i }

/-- `blockable` in `handle_signals`. -/
def blockable (i : Sig) : Bool := i ≠ SIGKILL && i ≠ SIGSTOP

/-- The branches `handle_signals` chooses from. -/
inductive SigAct where
  | stop | cont | kill | user
  deriving DecidableEq, Repr

/-- The branch `handle_signals` takes for signal `i` with handler word `h`. -/
def sigAct (h : Handler) (i : Sig) : SigAct :=
  if h = .ofSig SIGSTOP ∨ i = SIGSTOP then .stop
  else if h = .ofSig SIGCONT ∨ (i = SIGCONT ∧ h = SIG_DFL) then .cont
  else if h = .ofSig SIGKILL ∨ h = SIG_DFL then .kill
  else .user

/-- What becomes of a signal that the loop of `handle_signals` comes to: the loop
goes on, it yields first, or it sets up a call of a handler and returns. -/
inductive Visit where
  | next | stop | user
  deriving DecidableEq, Repr

/-- One round of the loop of `handle_signals`, as far as the signal fields go. -/
def Sigs.visit (g : Sigs) (i : Sig) : Sigs × Visit :=
  if ¬ g.pending i then (g, .next)
  else if g.masked i ∧ blockable i then (g, .next)
  else if g.signalHandler i = SIG_IGN ∧ blockable i then (g, .next)
  else
    let g := { g with pendingSignals := g.pendingSignals &&& ~~~bit i }
    match sigAct (g.signalHandler i) i with
    | .stop => ({ g with frozen := true }, .stop)
    | .cont => ({ g with frozen := false }, .next)
    | .kill => ({ g with killed := true }, .next)
    | .user => ({ g with signalMaskBU := g.signalMask, signalMask := g.signalHandlerMasks i }, .user)

/-- The test of `check_cont_sig` for signal `j`. -/
def Sigs.continues (g : Sigs) (j : Sig) : Prop :=
  g.pending j ∧ ¬ g.masked j ∧
    (g.signalHandler j = .ofSig SIGCONT ∨ (j = SIGCONT ∧ g.signalHandler j = SIG_DFL))

instance (g : Sigs) (j : Sig) : Decidable (g.continues j) := inferInstanceAs (Decidable (_ ∧ _))

/-! ## Loops over the table -/

theorem nextSlot_val {i j : Slot} (h : nextSlot i = some j) : j.val = i.val + 1 := by
  unfold nextSlot at h
  split at h
  · cases h; rfl
  · cases h

theorem le_of_nextSlot_none {i : Slot} (h : nextSlot i = none) (q : Slot) : q ≤ i := by
  unfold nextSlot at h
  split at h
  · cases h
  · have := q.isLt
    exact Fin.le_def.2 (by omega)

/-- A slot beyond `i` is not passed by stepping from `i` to the next one. -/
theorem le_of_nextSlot {i j q : Slot} (h : nextSlot i = some j) (hq : i < q) : j ≤ q := by
  have := nextSlot_val h
  exact Fin.le_def.2 (by have := Fin.lt_def.1 hq; omega)

end Xv6
