import Mathlib.Data.List.FinRange
import Xv6.Lib.Ring
/-!
# The buffer cache (bio.c)

`NBUF` buffers on a doubly linked list, most recently used first. `bread` finds
the buffer of a block or takes over an unused one, waits for its sleep-lock and
reads the disk if the buffer is not valid; `brelse` gives it back.

The code is run by any number of users, each of which has at most one buffer at
a time; a process that holds two buffers, as the commit does while it copies a
block from or to the log, is two users. What is done under `bcache.lock` is one
step, and so is a transfer by `iderw`. A user changes `b->data` only while it
holds the buffer, and hands a change to `log_write` or to `bwrite` before it
releases the buffer.
-/

namespace Xv6

def MAXOPBLOCKS : Nat := 10
def NBUF : Nat := MAXOPBLOCKS * 3

abbrev Buf := Fin NBUF

/-- A block: its device and its number there. -/
abbrev BlockId := Nat × Nat

/-- Where a user is. -/
inductive BioPc
  | idle
  | asleep (b : Buf) (k : BlockId)    -- in bget, before or in acquiresleep
  | locked (b : Buf) (k : BlockId)    -- in bread, before the test of B_VALID
  | hold (b : Buf) (k : BlockId)      -- bread of k has returned b
  | changed (b : Buf) (k : BlockId)   -- has written b->data
  | writing (b : Buf) (k : BlockId)   -- in bwrite, before iderw
  | drop (b : Buf)                    -- in brelse, after releasesleep
  | panic
  deriving DecidableEq

/-- What a user does next: a call, a store to `b->data`, or the next step of its call.
`copy u` is a `memmove` from the buffer that `u` holds. -/
inductive BioAct (U D : Type)
  | bread (k : BlockId)
  | modify (v : D)
  | copy (u : U)
  | logWrite
  | bwrite
  | brelse
  | next

structure Bcache (U D : Type) where
  key : Buf → BlockId           -- dev and blockno
  valid : Buf → Bool            -- B_VALID
  dirty : Buf → Bool            -- B_DIRTY
  refcnt : Buf → Nat
  lock : Buf → Option U         -- who holds the sleep-lock
  data : Buf → D
  links : Links Buf             -- next and prev; the head is none
  pc : U → BioPc
  disk : BlockId → D

namespace Bcache

variable {U D : Type} [DecidableEq U]

def goto (s : Bcache U D) (u : U) (k : BioPc) : Bcache U D :=
  { s with pc := Function.update s.pc u k }

/-- The first loop of `bget`. -/
def cachedAt (s : Bcache U D) (k : BlockId) : Option Buf :=
  Links.walk s.links.next (fun b => s.key b = k) NBUF (s.links.next none)

/-- The second loop of `bget`, from the least recently used end. -/
def unused (s : Bcache U D) : Option Buf :=
  Links.walk s.links.prev (fun b => s.refcnt b = 0 ∧ s.dirty b = false) NBUF (s.links.prev none)

/-- `bget` takes over an unused buffer. -/
def recycle (s : Bcache U D) (b : Buf) (k : BlockId) : Bcache U D :=
  { s with
    key := Function.update s.key b k
    valid := Function.update s.valid b false
    dirty := Function.update s.dirty b false
    refcnt := Function.update s.refcnt b 1 }

/-- `bget` up to the release of `bcache.lock`. -/
def bget (s : Bcache U D) (u : U) (k : BlockId) : Bcache U D :=
  match s.cachedAt k with
  | some b => { s with refcnt := Function.update s.refcnt b (s.refcnt b + 1) }.goto u (.asleep b k)
  | none =>
    match s.unused with
    | some b => (s.recycle b k).goto u (.asleep b k)
    | none => s.goto u .panic

/-- `iderw`, with the transfer done: to the disk if the buffer is dirty, else from it. -/
def iderw (s : Bcache U D) (b : Buf) : Bcache U D :=
  let s :=
    if s.dirty b then { s with disk := Function.update s.disk (s.key b) (s.data b) }
    else { s with data := Function.update s.data b (s.disk (s.key b)) }
  { s with valid := Function.update s.valid b true, dirty := Function.update s.dirty b false }

/-- `iderw` called by `u`, with its own checks; then `k`. -/
def transfer (s : Bcache U D) (u : U) (b : Buf) (k : BioPc) : Bcache U D :=
  if s.lock b ≠ some u ∨ s.valid b = true ∧ s.dirty b = false then s.goto u .panic
  else (s.iderw b).goto u k

/-- `brelse` under `bcache.lock`. -/
def release (s : Bcache U D) (b : Buf) : Bcache U D :=
  let s := { s with refcnt := Function.update s.refcnt b (s.refcnt b - 1) }
  if s.refcnt b = 0 then { s with links := (s.links.unlink b).push b } else s

def next (s : Bcache U D) (u : U) : Option (Bcache U D) :=
  match s.pc u with
  | .asleep b k =>
    if s.lock b = none then some ({ s with lock := Function.update s.lock b (some u) }.goto u (.locked b k))
    else none
  | .locked b k => some (if s.valid b then s.goto u (.hold b k) else s.transfer u b (.hold b k))
  | .writing b k => some (s.transfer u b (.hold b k))
  | .drop b => some ((s.release b).goto u .idle)
  | _ => none

/-- The user stores `v` into the buffer it holds. -/
def store (s : Bcache U D) (u : U) (b : Buf) (k : BlockId) (v : D) : Bcache U D :=
  { s with data := Function.update s.data b v }.goto u (.changed b k)

/-- The user calls `log_write`, of which the cache sees that it sets `B_DIRTY`. -/
def logWrite (s : Bcache U D) (u : U) (b : Buf) (k : BlockId) : Bcache U D :=
  { s with dirty := Function.update s.dirty b true }.goto u (.hold b k)

def bwrite (s : Bcache U D) (u : U) (b : Buf) (k : BlockId) : Bcache U D :=
  if s.lock b ≠ some u then s.goto u .panic
  else { s with dirty := Function.update s.dirty b true }.goto u (.writing b k)

/-- `brelse` up to `releasesleep`. -/
def brelse (s : Bcache U D) (u : U) (b : Buf) : Bcache U D :=
  if s.lock b ≠ some u then s.goto u .panic
  else { s with lock := Function.update s.lock b none }.goto u (.drop b)

/-- The bytes in the buffer that `u` holds. -/
def source (s : Bcache U D) (u : U) : Option D :=
  match s.pc u with
  | .hold b _ | .changed b _ => some (s.data b)
  | _ => none

def step (s : Bcache U D) (l : U × BioAct U D) : Option (Bcache U D) :=
  match s.pc l.1, l.2 with
  | .idle, .bread k => some (s.bget l.1 k)
  | .hold b k, .modify v | .changed b k, .modify v => some (s.store l.1 b k v)
  | .hold b k, .copy u | .changed b k, .copy u => (s.source u).map (s.store l.1 b k)
  | .hold b k, .logWrite | .changed b k, .logWrite => some (s.logWrite l.1 b k)
  | .hold b k, .bwrite | .changed b k, .bwrite => some (s.bwrite l.1 b k)
  | .hold b _, .brelse => some (s.brelse l.1 b)
  | _, .next => s.next l.1
  | _, _ => none

/-- `binit`, over a zeroed `bcache`. -/
def binit (disk : BlockId → D) (bytes : Buf → D) : Bcache U D where
  key _ := (0, 0)
  valid _ := false
  dirty _ := false
  refcnt _ := 0
  lock _ := none
  data := bytes
  links := (List.finRange NBUF).foldl Links.push ⟨fun _ => none, fun _ => none⟩
  pc _ := .idle
  disk := disk

end Bcache

end Xv6
