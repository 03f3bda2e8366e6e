import Xv6.Lib.Fifo
import Xv6.Lib.Runs
import Xv6.Kernel.Control
/-!
# Pipes (pipe.c)

One pipe and any number of threads that read, write and close it. A step is
what a thread does between taking `p->lock` and giving it up, by returning or
by going to sleep; a thread that sleeps may be woken at any moment and then
looks again. Beside the pipe the state keeps what was stored in it and what
was delivered from it. Once both ends are closed the pipe is freed and no
thread uses it any more.
-/

namespace Xv6

open Fifo Runs

/-- `PIPESIZE`, as the size of the array. -/
def pipeSize : Nat := PIPESIZE.toNat

theorem pipeSize_eq : pipeSize = 512 := rfl

instance : NeZero pipeSize := ⟨by decide⟩

structure Pipe where
  data : Fin pipeSize → BitVec 8
  nread : BitVec 32
  nwrite : BitVec 32
  readopen : Bool
  writeopen : Bool

/-- A thread outside, with what its last call returned, or asleep in `pipewrite` with the
bytes it has still to store, or in `piperead`. -/
inductive PipePc where
  | out (ret : Int)
  | writing (n : Int) (rest : List (BitVec 8))
  | reading (n : Int)

inductive PipeAct where
  | write (addr : Nat → BitVec 8) (n : Int)
  | read (n : Int)
  | close (writable : Bool)
  | wake
  | kill

structure PipeSys (T : Type) where
  pipe : Pipe
  freed : Bool
  pc : T → PipePc
  killed : T → Bool
  stored : List (BitVec 8)
  delivered : List (BitVec 8)

namespace Pipe

/-- `p->data[p->nwrite++ % PIPESIZE] = b`. -/
def put (p : Pipe) (b : BitVec 8) : Pipe :=
  { p with data := Function.update p.data (Fin.ofNat pipeSize p.nwrite.toNat) b, nwrite := p.nwrite + 1 }

/-- The loop of `pipewrite` until it is through or finds the pipe full: what it stores and
what is left. -/
def fill (p : Pipe) : List (BitVec 8) → Pipe × List (BitVec 8) × List (BitVec 8)
  | [] => (p, [], [])
  | b :: rest =>
    if p.nwrite = p.nread + PIPESIZE then (p, [], b :: rest)
    else
      let r := (p.put b).fill rest
      (r.1, b :: r.2.1, r.2.2)

/-- The copying loop of `piperead`, with the bytes it stores at `addr`. -/
def drain (p : Pipe) : Nat → Pipe × List (BitVec 8)
  | 0 => (p, [])
  | n + 1 =>
    if p.nread = p.nwrite then (p, [])
    else
      let r := { p with nread := p.nread + 1 }.drain n
      (r.1, p.data (Fin.ofNat pipeSize p.nread.toNat) :: r.2)

/-- What is in the pipe. -/
def queued (p : Pipe) : List (BitVec 8) := window p.data p.nread.toNat (p.nwrite - p.nread).toNat

end Pipe

namespace PipeSys

variable {T : Type} [DecidableEq T]

def goto (s : PipeSys T) (t : T) (pc : PipePc) : PipeSys T := { s with pc := Function.update s.pc t pc }

/-- `pipewrite` from the test for a full pipe on, with `rest` still to store. -/
def pipewrite (s : PipeSys T) (t : T) (n : Int) (rest : List (BitVec 8)) : PipeSys T :=
  let (p, bytes, left) := s.pipe.fill rest
  let s := { s with pipe := p, stored := s.stored ++ bytes }
  if left = [] then s.goto t (.out n)
  else if p.readopen = false ∨ s.killed t then s.goto t (.out (-1))
  else s.goto t (.writing n left)

/-- `piperead` from the test for an empty pipe on. -/
def piperead (s : PipeSys T) (t : T) (n : Int) : PipeSys T :=
  if s.pipe.nread = s.pipe.nwrite ∧ s.pipe.writeopen then
    if s.killed t then s.goto t (.out (-1)) else s.goto t (.reading n)
  else
    let (p, bytes) := s.pipe.drain n.toNat
    { s with pipe := p, delivered := s.delivered ++ bytes }.goto t (.out bytes.length)

def pipeclose (s : PipeSys T) (writable : Bool) : PipeSys T :=
  let p := if writable then { s.pipe with writeopen := false } else { s.pipe with readopen := false }
  { s with pipe := p, freed := p.readopen = false ∧ p.writeopen = false }

def step (s : PipeSys T) : T × PipeAct → Option (PipeSys T)
  | (t, .kill) => some { s with killed := Function.update s.killed t true }
  | (t, a) =>
    if s.freed then none
    else match s.pc t, a with
      | .out _, .write addr n => some (s.pipewrite t n ((List.range n.toNat).map addr))
      | .out _, .read n => some (s.piperead t n)
      | .out _, .close writable => some (s.pipeclose writable)
      | .writing n rest, .wake => some (s.pipewrite t n rest)
      | .reading n, .wake => some (s.piperead t n)
      | _, _ => none

/-- `pipealloc`, in a page that holds anything. -/
def init (data : Fin pipeSize → BitVec 8) : PipeSys T where
  pipe := ⟨data, 0, 0, true, true⟩
  freed := false
  pc _ := .out 0
  killed _ := false
  stored := []
  delivered := []

end PipeSys

/-! ## What a pipe holds -/

/-- The counters count what went in and what came out, and the pipe holds the rest. -/
structure Pipe.Flow (p : Pipe) (stored delivered : List (BitVec 8)) : Prop where
  nread : p.nread = BitVec.ofNat 32 delivered.length
  nwrite : p.nwrite = BitVec.ofNat 32 stored.length
  room : stored.length ≤ delivered.length + pipeSize
  rest : stored = delivered ++ window p.data delivered.length (stored.length - delivered.length)

namespace Pipe.Flow

variable {p : Pipe} {stored delivered : List (BitVec 8)}

theorem length_le (h : p.Flow stored delivered) : delivered.length ≤ stored.length := by
  rw [h.rest, List.length_append]
  omega

/-- The test for an empty pipe is right although the counters wrap around. -/
theorem empty_iff (h : p.Flow stored delivered) : p.nread = p.nwrite ↔ stored.length = delivered.length := by
  obtain ⟨d, hd⟩ := Nat.exists_eq_add_of_le h.length_le
  have hroom := h.room
  have hcount := counters_eq_iff (w := 32) (a := delivered.length) (d := 0) (e := d) (by omega)
    (by rw [pipeSize_eq] at hroom; omega)
  rw [h.nread, h.nwrite, hd]
  exact hcount.trans ⟨by omega, by omega⟩

/-- So is the test for a full one. -/
theorem full_iff (h : p.Flow stored delivered) :
    p.nwrite = p.nread + PIPESIZE ↔ stored.length = delivered.length + pipeSize := by
  obtain ⟨d, hd⟩ := Nat.exists_eq_add_of_le h.length_le
  have hroom := h.room
  have hcount := counters_eq_iff (w := 32) (a := delivered.length) (d := d) (e := pipeSize)
    (by rw [pipeSize_eq] at hroom; omega) (by decide)
  rw [h.nread, h.nwrite, hd, show PIPESIZE = BitVec.ofNat 32 pipeSize from rfl, ← BitVec.ofNat_add]
  exact hcount.trans ⟨by omega, by omega⟩

theorem queued_eq (h : p.Flow stored delivered) : stored = delivered ++ p.queued := by
  obtain ⟨d, hd⟩ := Nat.exists_eq_add_of_le h.length_le
  have hroom := h.room
  have hsub := counters_sub (w := 32) (a := delivered.length) (d := d) (by rw [pipeSize_eq] at hroom; omega)
  have hrest := h.rest
  rw [hd, Nat.add_sub_cancel_left] at hrest
  rw [queued, h.nread, h.nwrite, hd, hsub, window_ofNat (by decide)]
  exact hrest

theorem put (h : p.Flow stored delivered) (b : BitVec 8) (hfull : stored.length ≠ delivered.length + pipeSize) :
    (p.put b).Flow (stored ++ [b]) delivered := by
  obtain ⟨d, hd⟩ := Nat.exists_eq_add_of_le h.length_le
  have hroom := h.room
  refine ⟨h.nread, ?_, ?_, ?_⟩
  · rw [Pipe.put, h.nwrite, List.length_append, BitVec.ofNat_add]
    rfl
  · rw [List.length_append, List.length_singleton]
    omega
  · have hrest := h.rest
    rw [hd, Nat.add_sub_cancel_left] at hrest
    have hlen : (stored ++ [b]).length - delivered.length = d + 1 := by
      rw [List.length_append, List.length_singleton]
      omega
    rw [hlen, Pipe.put]
    dsimp only
    rw [h.nwrite, cell_ofNat (by decide), hd, window_push (by omega), ← List.append_assoc, ← hrest]

theorem get (h : p.Flow stored delivered) (hne : stored.length ≠ delivered.length) :
    { p with nread := p.nread + 1 }.Flow stored
      (delivered ++ [p.data (Fin.ofNat pipeSize p.nread.toNat)]) := by
  obtain ⟨d, hd⟩ := Nat.exists_eq_add_of_le h.length_le
  obtain ⟨d, rfl⟩ := Nat.exists_eq_add_of_lt (show 0 < d by omega)
  have hroom := h.room
  refine ⟨?_, h.nwrite, ?_, ?_⟩
  · rw [h.nread, List.length_append, BitVec.ofNat_add]
    rfl
  · rw [List.length_append]
    omega
  · have hrest := h.rest
    have hlen : stored.length - delivered.length = d + 1 := by omega
    have hlen' : stored.length - (delivered.length + 1) = d := by omega
    rw [hlen, window_pop] at hrest
    rw [h.nread, cell_ofNat (by decide), List.append_assoc, List.length_append, List.length_singleton, hlen']
    exact hrest

/-- The writing loop stores a first part of what it is given. -/
theorem fill (h : p.Flow stored delivered) (bytes : List (BitVec 8)) :
    (p.fill bytes).1.Flow (stored ++ (p.fill bytes).2.1) delivered := by
  induction bytes generalizing p stored with
  | nil => simpa [Pipe.fill] using h
  | cons b rest ih =>
    unfold Pipe.fill
    split
    · simpa using h
    · rename_i hfull
      have := ih (h.put b fun hlen => hfull (h.full_iff.2 hlen))
      rwa [List.append_assoc] at this

theorem drain (h : p.Flow stored delivered) (n : Nat) :
    (p.drain n).1.Flow stored (delivered ++ (p.drain n).2) := by
  induction n generalizing p delivered with
  | zero => simpa [Pipe.drain] using h
  | succ n ih =>
    unfold Pipe.drain
    split
    · simpa using h
    · rename_i hne
      have := ih (h.get fun hlen => hne (h.empty_iff.2 hlen))
      rwa [List.append_assoc] at this

end Pipe.Flow

/-! ## Runs -/

namespace PipeSys

variable {T : Type} [DecidableEq T] {s s' : PipeSys T} {t : T} {n : Int}

/-- What went in and came out, of a state. -/
def Flows (s : PipeSys T) : Prop := s.pipe.Flow s.stored s.delivered

theorem Flows.pipewrite (h : s.Flows) (rest : List (BitVec 8)) : (s.pipewrite t n rest).Flows := by
  have hfill := Pipe.Flow.fill h rest
  dsimp only [PipeSys.pipewrite]
  split
  · exact hfill
  · split
    · exact hfill
    · exact hfill

theorem Flows.piperead (h : s.Flows) : (s.piperead t n).Flows := by
  have hdrain := Pipe.Flow.drain h n.toNat
  dsimp only [PipeSys.piperead]
  split
  · split
    · exact h
    · exact h
  · exact hdrain

omit [DecidableEq T] in
theorem Flows.pipeclose (h : s.Flows) (writable : Bool) : (s.pipeclose writable).Flows := by
  cases writable
  · exact ⟨h.nread, h.nwrite, h.room, h.rest⟩
  · exact ⟨h.nread, h.nwrite, h.room, h.rest⟩

theorem Flows.step {l : T × PipeAct} (h : s.Flows) (hs : s.step l = some s') : s'.Flows := by
  obtain ⟨t, a⟩ := l
  unfold PipeSys.step at hs
  split at hs
  · cases hs
    exact h
  · split at hs
    · cases hs
    · split at hs <;> cases hs
      · exact h.pipewrite _
      · exact h.piperead
      · exact h.pipeclose _
      · exact h.pipewrite _
      · exact h.piperead

theorem flows_of_run {data : Fin pipeSize → BitVec 8} (h : Run step (fun _ _ => True) (init data) s) : s.Flows :=
  h.inv Flows (fun _ _ _ hf _ hs => hf.step hs) ⟨rfl, rfl, by simp [init], by simp [init, window]⟩

/-- Thread `t` runs `piperead` for `n` bytes, from its start or after a sleep. -/
def Reads (s : PipeSys T) (t : T) (a : PipeAct) (n : Int) : Prop :=
  a = .read n ∨ a = .wake ∧ s.pc t = .reading n

theorem Reads.eq {a : PipeAct} (h : s.Reads t a n) (hs : s.step (t, a) = some s') : s' = s.piperead t n := by
  obtain rfl | ⟨rfl, hpc⟩ := h
  · simp only [PipeSys.step] at hs
    split at hs
    · cases hs
    · split at hs <;> simp_all
  · simp only [PipeSys.step, hpc] at hs
    split at hs
    · cases hs
    · exact (Option.some.inj hs).symm

/-- `piperead` finds nothing only in an empty pipe that no one can write to. -/
theorem Flows.end_of_file (h : s.Flows) (hn : 0 < n) (hret : (s.piperead t n).pc t = .out 0) :
    (s.piperead t n).pipe.writeopen = false ∧ (s.piperead t n).delivered = s.stored := by
  obtain ⟨k, hk⟩ : ∃ k, n.toNat = k + 1 := ⟨n.toNat - 1, by omega⟩
  unfold PipeSys.piperead at hret ⊢
  split at hret
  · split at hret <;> simp [goto] at hret
  · rename_i hopen
    rw [if_neg hopen]
    have hnil : (s.pipe.drain n.toNat).2 = [] := by
      simpa [goto] using hret
    have hempty : s.pipe.nread = s.pipe.nwrite := by
      by_contra hne
      simp [hk, Pipe.drain, hne] at hnil
    have hdrain : s.pipe.drain n.toNat = (s.pipe, []) := by
      rw [hk, Pipe.drain, if_pos hempty]
    have hlen := (Pipe.Flow.empty_iff h).1 hempty
    have hrest := h.rest
    rw [hlen, Nat.sub_self] at hrest
    simp only [hdrain, goto, List.append_nil]
    refine ⟨by simpa [hempty] using hopen, ?_⟩
    rw [hrest]
    simp [window]

end PipeSys

/-- A pipe delivers the bytes in the order they were stored, each once, with at most
`PIPESIZE` on the way, however often the counters have wrapped around; and a read
returns 0 only at the end of what was written. -/
theorem pipe_fifo {T : Type} [DecidableEq T] {data : Fin pipeSize → BitVec 8} {s : PipeSys T}
    (h : Run PipeSys.step (fun _ _ => True) (.init data) s) :
    s.delivered <+: s.stored ∧ s.stored = s.delivered ++ s.pipe.queued ∧ s.pipe.queued.length ≤ pipeSize ∧
      ∀ t a n s', s.Reads t a n → 0 < n → s.step (t, a) = some s' → s'.pc t = .out 0 →
        s'.pipe.writeopen = false ∧ s'.delivered = s'.stored := by
  have hf := PipeSys.flows_of_run h
  have hq := Pipe.Flow.queued_eq hf
  refine ⟨⟨_, hq.symm⟩, hq, ?_, ?_⟩
  · have hlen := congrArg List.length hq
    have hroom := hf.room
    rw [List.length_append] at hlen
    omega
  · intro t a n s' hr hn hs hret
    have hstored : s'.stored = s.stored := by
      rw [hr.eq hs]
      unfold PipeSys.piperead
      split
      · split <;> rfl
      · rfl
    rw [hstored]
    rw [hr.eq hs] at hret ⊢
    exact hf.end_of_file hn hret

/-- Thread 0 writes two bytes and closes its end; thread 1 reads one, the other, and the end. -/
def twoBytes : List (Fin 2 × PipeAct) :=
  [(1, .read 1), (0, .write (fun k => BitVec.ofNat 8 (k + 7)) 2), (0, .close true), (1, .wake), (1, .read 5)]

theorem twoBytes_delivered :
    ∃ s, exec PipeSys.step (.init fun _ => 0) twoBytes = some s ∧ s.delivered = [7, 8] ∧ s.delivered <+: s.stored ∧
      ∀ s', s.step (1, .read 5) = some s' → s'.pc 1 = .out 0 → s'.pipe.writeopen = false ∧ s'.delivered = s'.stored := by
  have hrun : (exec (checked PipeSys.step fun _ _ => true) (.init fun _ => 0) twoBytes).map (fun s => s.delivered) =
    some [7, 8] := by decide +kernel
  obtain ⟨s, hs, hd⟩ := Option.map_eq_some_iff.1 hrun
  have hfifo := pipe_fifo (run_of_checked (fun _ _ _ => trivial) hs)
  refine ⟨s, exec_of_checked hs, hd, hfifo.1, fun s' hstep hret => ?_⟩
  exact hfifo.2.2.2 1 (.read 5) 5 s' (.inl rfl) (by decide) hstep hret

end Xv6
