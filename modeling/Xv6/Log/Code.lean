import Xv6.Bio.Code
/-!
# The redo log (log.c)

File system calls bracket their updates with `begin_op` and `end_op`, and hand
every changed block to `log_write`; the last call to leave commits all of them
together. Any number of processes run the code below, one atomic step at a
time: what a function does under `log.lock` is one step, each unlocked test of
`log_write` is one step, and each write of a disk block is one step.

Of the buffer cache only its contents are seen: `cached b` are the bytes that
`bread` of block `b` returns. A crash loses everything but the disk, at any
point; `recover` is what `initlog` then runs, and `recoverUpTo` what is left of
it when it is cut short itself.
-/

namespace Xv6

variable {P D : Type}

/-! ## The disk -/

def LOGSIZE : Nat := MAXOPBLOCKS * 3

/-- The super block's `logstart` and `nlog` as `mkfs` builds them: the boot block and
the super block come first, and the log's header block is one of the `nlog`. -/
def logstart : Nat := 2
def nlog : Nat := LOGSIZE

/-- `log.start + tail + 1`, the block of the on-disk log for the `tail`th logged block. -/
def logBlock (tail : Nat) : Nat := logstart + tail + 1

/-- The block is not one of the log's. -/
def Home (b : Nat) : Prop := b < logstart ∨ logstart + nlog ≤ b

instance (b : Nat) : Decidable (Home b) := inferInstanceAs (Decidable (_ ∨ _))

/-- The disk: the block numbers in the log's header block, and the bytes of every
other block. -/
structure Disk (D : Type) where
  head : List Nat
  data : Nat → D

namespace Disk

/-- One `bwrite`. -/
def write (d : Disk D) (b : Nat) (v : D) : Disk D :=
  { d with data := Function.update d.data b v }

/-- The first `n` rounds of `install_trans`, with the block numbers `l` in `log.lh`. -/
def installTrans (l : List Nat) : Nat → Disk D → Disk D
  | 0, d => d
  | n + 1, d =>
    let d := d.installTrans l n
    match l[n]? with
    | some b => d.write b (d.data (logBlock n))
    | none => d

/-- `recover_from_log`: read the header, install what it lists, clear it. -/
def recover (d : Disk D) : Disk D :=
  { d.installTrans d.head d.head.length with head := [] }

end Disk

/-! ## The processes -/

inductive Panic
  | tooBig        -- "too big a transaction"
  | outside       -- "log_write outside of trans"
  | committing    -- "log.committing"
  deriving DecidableEq

/-- Where a process is in the log's code. -/
inductive LogPc
  | idle
  | op                          -- between begin_op and end_op
  | check (b : Nat)             -- log_write, before the test of log.lh.n
  | inTrans (b : Nat)           -- before the test of log.outstanding
  | append (b : Nat)            -- before acquire(&log.lock)
  | writeLog (tail : Nat)       -- commit, in write_log
  | writeHead                   -- before the write_head that commits
  | install (tail : Nat)        -- in install_trans
  | erase                       -- before the write_head that clears the header
  | finish                      -- back in end_op, before log.committing = 0
  | panic (m : Panic)
  deriving DecidableEq

/-- What a process does next: a call, or the next step of the call it is in. A write is
the caller's change of `b->data` that `log_write` then follows. -/
inductive LogAct (D : Type)
  | beginOp
  | write (b : Nat) (v : D)
  | endOp
  | next
  deriving DecidableEq

structure Log (P D : Type) where
  lh : List Nat                 -- log.lh.block, of length log.lh.n
  outstanding : Int
  committing : Bool
  pc : P → LogPc
  cached : Nat → D
  disk : Disk D

namespace Log

variable [DecidableEq P]

def goto (s : Log P D) (p : P) (k : LogPc) : Log P D :=
  { s with pc := Function.update s.pc p k }

/-- A change of a cached block. -/
def modify (s : Log P D) (b : Nat) (v : D) : Log P D :=
  { s with cached := Function.update s.cached b v }

/-- `memmove` into the buffer of block `b`, then `bwrite`. -/
def bwrite (s : Log P D) (b : Nat) (v : D) : Log P D :=
  { s.modify b v with disk := s.disk.write b v }

/-- `write_head`. -/
def writeHead (s : Log P D) : Log P D :=
  { s with disk := { s.disk with head := s.lh } }

def beginOp (s : Log P D) (p : P) : Option (Log P D) :=
  if s.committing then none
  else if s.lh.length + (s.outstanding + 1) * MAXOPBLOCKS > LOGSIZE then none
  else some ({ s with outstanding := s.outstanding + 1 }.goto p .op)

/-- `end_op` up to the release of `log.lock`; the last one goes on to `commit`, which does
nothing when the log is empty. -/
def endOp (s : Log P D) (p : P) : Log P D :=
  let s := { s with outstanding := s.outstanding - 1 }
  if s.committing then s.goto p (.panic .committing)
  else if s.outstanding = 0 then
    { s with committing := true }.goto p (if 0 < s.lh.length then .writeLog 0 else .finish)
  else s.goto p .idle

/-- The next step of the call the process is in. -/
def next (s : Log P D) (p : P) : Option (Log P D) :=
  match s.pc p with
  | .check b =>
    some (s.goto p (if s.lh.length ≥ LOGSIZE ∨ s.lh.length ≥ nlog - 1 then .panic .tooBig else .inTrans b))
  | .inTrans b => some (s.goto p (if s.outstanding < 1 then .panic .outside else .append b))
  | .append b =>
    -- a block that is in the log already keeps its place: log absorption
    some ({ s with lh := if b ∈ s.lh then s.lh else s.lh ++ [b] }.goto p .op)
  | .writeLog tail =>
    match s.lh[tail]? with
    | some b => some ((s.bwrite (logBlock tail) (s.cached b)).goto p (.writeLog (tail + 1)))
    | none => some (s.goto p .writeHead)
  | .writeHead => some (s.writeHead.goto p (.install 0))
  | .install tail =>
    match s.lh[tail]? with
    | some b => some ((s.bwrite b (s.cached (logBlock tail))).goto p (.install (tail + 1)))
    | none => some ({ s with lh := [] }.goto p .erase)
  | .erase => some (s.writeHead.goto p .finish)
  | .finish => some ({ s with committing := false }.goto p .idle)
  | .idle | .op | .panic _ => none

def step (s : Log P D) (l : P × LogAct D) : Option (Log P D) :=
  match s.pc l.1, l.2 with
  | .idle, .beginOp => s.beginOp l.1
  | .op, .write b v => some ((s.modify b v).goto l.1 (.check b))
  | .op, .endOp => some (s.endOp l.1)
  | _, .next => s.next l.1
  | _, _ => none

/-- The log once `initlog` has returned. -/
def init (d : Disk D) : Log P D where
  lh := []
  outstanding := 0
  committing := false
  pc _ := .idle
  cached := d.data
  disk := d

end Log

end Xv6
