import Xv6.Lib.Fifo
import Xv6.Lib.Runs
/-!
# The console's line discipline (console.c)

`consoleintr` puts what is typed into a ring of 128 characters and edits the
last line in it; `consoleread` hands out the lines that were committed. A step
is one character under `cons.lock`, or what the one reader does between taking
the lock and returning or going to sleep; it may be woken at any moment and
then looks again. `Terminal` says what the discipline is for, without a ring:
the line being typed, what was committed and what of it no read took yet. The
ring refines it, also when its three counters wrap.
-/

namespace Xv6.Console

open Fifo Runs

def INPUT_BUF : Nat := 128

instance : NeZero INPUT_BUF := ⟨by decide⟩

abbrev Byte : Type := BitVec 8

/-- `C(x)`: control-x. -/
def ctrl (x : Char) : Byte := BitVec.ofNat 8 (x.toNat - '@'.toNat)

def nl : Byte := BitVec.ofNat 8 '\n'.toNat

def cr : Byte := BitVec.ofNat 8 '\r'.toNat

/-- The end-of-file character, `^D`. -/
def eof : Byte := ctrl 'D'

/-! ## The code -/

structure Input where
  buf : Fin INPUT_BUF → Byte
  r : BitVec 32
  w : BitVec 32
  e : BitVec 32

namespace Input

def init : Input := ⟨fun _ => 0, 0, 0, 0⟩

/-- `input.buf[k % INPUT_BUF]`. -/
def get (i : Input) (k : BitVec 32) : Byte := i.buf (Fin.ofNat INPUT_BUF k.toNat)

/-- The loop of `^U`; `e` is at most `e - w` places behind `w`. -/
def killLine : Nat → Input → Input
  | 0, i => i
  | k + 1, i => if i.e ≠ i.w ∧ i.get (i.e - 1) ≠ nl then killLine k { i with e := i.e - 1 } else i

/-- The body of the loop of `consoleintr`, for the character `c`. -/
def consoleintr (i : Input) (c : Byte) : Input :=
  if c = ctrl 'P' then i
  else if c = ctrl 'U' then i.killLine (i.e - i.w).toNat
  else if c = ctrl 'H' ∨ c = 0x7f then
    if i.e ≠ i.w then { i with e := i.e - 1 } else i
  else if c ≠ 0 ∧ (i.e - i.r).toNat < INPUT_BUF then
    let c := if c = cr then nl else c
    let i := { i with buf := Function.update i.buf (Fin.ofNat INPUT_BUF i.e.toNat) c, e := i.e + 1 }
    if c = nl ∨ c = ctrl 'D' ∨ i.e = i.r + BitVec.ofNat 32 INPUT_BUF then { i with w := i.e } else i
  else i

end Input

/-- A `consoleread` that has not returned: what it was asked for, what is left of it, and the
bytes stored at `dst`. -/
structure Reader where
  target : Int
  n : Int
  dst : List Byte

/-- A `consoleread` that has returned. -/
structure Read where
  n : Int
  dst : List Byte
  ret : Int
  deriving DecidableEq

/-- The loop of `consoleread`, from where it holds the lock; `false` where it goes to sleep. -/
def readLoop : Nat → Input → Reader → Input × Reader × Bool
  | 0, i, rd => (i, rd, true)
  | k + 1, i, rd =>
    if i.r = i.w then (i, rd, false)
    else
      let c := i.get i.r
      let i := { i with r := i.r + 1 }
      if c = ctrl 'D' then (if rd.n < rd.target then { i with r := i.r - 1 } else i, rd, true)
      else
        let rd := { rd with n := rd.n - 1, dst := rd.dst ++ [c] }
        if c = nl then (i, rd, true) else readLoop k i rd

inductive Act where
  | typed (c : Byte)
  | read (n : Int)
  | wake

structure Sys where
  input : Input
  reader : Option Reader
  reads : List Read

namespace Sys

def init : Sys := ⟨.init, none, []⟩

def consoleread (s : Sys) (rd : Reader) : Sys :=
  match readLoop rd.n.toNat s.input rd with
  | (i, rd, true) => ⟨i, none, s.reads ++ [⟨rd.target, rd.dst, rd.target - rd.n⟩]⟩
  | (i, rd, false) => ⟨i, some rd, s.reads⟩

def step (s : Sys) : Act → Option Sys
  | .typed c => some { s with input := s.input.consoleintr c }
  | .read n => if s.reader.isNone then some (s.consoleread ⟨n, n, []⟩) else none
  | .wake => s.reader.map s.consoleread

end Sys

/-! ## What it is for -/

/-- A terminal: everything committed so far, what of it was not read yet, the line being
edited, the read that waits (how much it wants, what it has) and the reads that returned. -/
structure Terminal where
  committed : List Byte
  unread : List Byte
  line : List Byte
  reader : Option (Int × List Byte)
  reads : List (Int × List Byte)

namespace Terminal

def init : Terminal := ⟨[], [], [], none, []⟩

def got (t : Terminal) : List Byte := (t.reader.map Prod.snd).getD []

def commit (t : Terminal) : Terminal :=
  { t with committed := t.committed ++ t.line, unread := t.unread ++ t.line, line := [] }

/-- A character that is kept; a line is committed by a newline, by `^D`, and when there is no
more room. -/
def put (t : Terminal) (c : Byte) : Terminal :=
  if c = nl ∨ c = eof ∨ t.unread.length + t.line.length + 1 = INPUT_BUF then commit { t with line := t.line ++ [c] }
  else { t with line := t.line ++ [c] }

def typed (t : Terminal) (c : Byte) : Terminal :=
  if c = ctrl 'P' then t
  else if c = ctrl 'U' then { t with line := [] }
  else if c = ctrl 'H' ∨ c = 0x7f then { t with line := t.line.dropLast }
  else if c ≠ 0 ∧ t.unread.length + t.line.length < INPUT_BUF then t.put (if c = cr then nl else c)
  else t

/-- What a read of `n` that already has `got` takes of what is not read yet, and whether it is
done. -/
def serve (n : Int) (got : List Byte) : List Byte → List Byte × List Byte × Bool
  | [] => (got, [], decide (n ≤ got.length))
  | c :: rest =>
    if n ≤ got.length then (got, c :: rest, true)
    else if c = eof then (got, if got = [] then rest else c :: rest, true)
    else if c = nl then (got ++ [c], rest, true)
    else serve n (got ++ [c]) rest

def read (t : Terminal) (n : Int) (got : List Byte) : Terminal :=
  match serve n got t.unread with
  | (got, rest, true) => { t with unread := rest, reader := none, reads := t.reads ++ [(n, got)] }
  | (got, rest, false) => { t with unread := rest, reader := some (n, got) }

def step (t : Terminal) : Act → Option Terminal
  | .typed c => some (t.typed c)
  | .read n => if t.reader.isNone then some (t.read n []) else none
  | .wake => t.reader.map fun rd => t.read rd.1 rd.2

end Terminal

/-! ## What reads return -/

/-- A read of `n` from `stream` returns `got` and leaves `rest`: it stops after `n` bytes, after
a newline or before a `^D`, and takes a `^D` only where there is nothing before it. -/
def Takes (n : Int) (stream got rest : List Byte) : Prop :=
  if n ≤ 0 then got = [] ∧ rest = stream
  else (got = [] ∧ stream = eof :: rest) ∨
    (got ≠ [] ∧ stream = got ++ rest ∧ eof ∉ got ∧ nl ∉ got.dropLast ∧ (got.length : Int) ≤ n ∧
      ((got.length : Int) = n ∨ got.getLast? = some nl ∨ rest.head? = some eof))

/-- Successive reads of `stream`, up to `rest`. -/
inductive Served (stream : List Byte) : List (Int × List Byte) → List Byte → Prop
  | nil : Served stream [] stream
  | snoc {reads rest n got rest'} : Served stream reads rest → Takes n rest got rest' →
      Served stream (reads ++ [(n, got)]) rest'

/-- The reads of a positive size that returned nothing. -/
def ends (reads : List (Int × List Byte)) : Nat := reads.countP fun r => decide (0 < r.1) && r.2.isEmpty

theorem Takes.append {n : Int} {stream got rest : List Byte} (h : Takes n stream got rest) (more : List Byte) :
    Takes n (stream ++ more) got (rest ++ more) := by
  unfold Takes at h ⊢
  split
  · rw [if_pos ‹_›] at h
    exact ⟨h.1, by rw [h.2]⟩
  · rw [if_neg ‹_›] at h
    rcases h with ⟨hg, hs⟩ | ⟨hg, hs, heof, hnl, hlen, hstop⟩
    · exact .inl ⟨hg, by rw [hs, List.cons_append]⟩
    · refine .inr ⟨hg, by rw [hs, List.append_assoc], heof, hnl, hlen, hstop.imp_right (Or.imp_right ?_)⟩
      intro hhead
      rw [List.head?_append, hhead, Option.some_or]

theorem Served.append {stream rest : List Byte} {reads : List (Int × List Byte)} (h : Served stream reads rest)
    (more : List Byte) : Served (stream ++ more) reads (rest ++ more) := by
  induction h with
  | nil => exact .nil
  | snoc _ htake ih => exact .snoc ih (htake.append more)

/-- A read takes a `^D` exactly if it returns nothing. -/
theorem Takes.count {n : Int} {stream got rest : List Byte} (h : Takes n stream got rest) :
    stream.count eof = ends [(n, got)] + rest.count eof := by
  unfold Takes at h
  split at h
  · obtain ⟨rfl, rfl⟩ := h
    simp [ends, show ¬ 0 < n by omega]
  · rcases h with ⟨rfl, rfl⟩ | ⟨hg, rfl, heof, -⟩
    · simp [ends, show 0 < n by omega, Nat.add_comm]
    · simp [ends, hg, List.count_eq_zero_of_not_mem heof]

/-- Every `^D` of the stream is answered by one read that returns nothing, or is still there. -/
theorem Served.count {stream rest : List Byte} {reads : List (Int × List Byte)} (h : Served stream reads rest) :
    stream.count eof = ends reads + rest.count eof := by
  induction h with
  | nil => simp [ends]
  | @snoc reads rest n got rest' _ htake ih =>
    have happ : ends (reads ++ [(n, got)]) = ends reads + ends [(n, got)] := List.countP_append
    rw [ih, htake.count, happ, Nat.add_assoc]

namespace Terminal

/-- A read that may go on: it has no newline and no `^D`, and not more than it wants. -/
def Waits (n : Int) (got : List Byte) : Prop := eof ∉ got ∧ nl ∉ got ∧ (got = [] ∨ (got.length : Int) ≤ n)

theorem Waits.takes {n : Int} {got : List Byte} (h : Waits n got) (hn : n ≤ got.length) (rest : List Byte) :
    Takes n (got ++ rest) got rest := by
  obtain ⟨heof, hnl, hlen⟩ := h
  unfold Takes
  split
  · have hg : got = [] := by
      rcases hlen with hg | hlen
      · exact hg
      · exact List.length_eq_zero_iff.1 (by omega)
    exact ⟨hg, by rw [hg, List.nil_append]⟩
  · have hg : got ≠ [] := by
      rintro rfl
      simp only [List.length_nil, Int.natCast_zero] at hn
      omega
    have hle := hlen.resolve_left hg
    exact .inr ⟨hg, rfl, heof, fun hm => hnl (List.dropLast_subset _ hm), hle, .inl (by omega)⟩

/-- A read that meets a `^D`. -/
theorem Waits.takes_eof {n : Int} {got rest : List Byte} (h : Waits n got) (hn : ¬ n ≤ got.length) :
    Takes n (got ++ eof :: rest) got (if got = [] then rest else eof :: rest) := by
  obtain ⟨heof, hnl, hlen⟩ := h
  unfold Takes
  rw [if_neg (show ¬ n ≤ 0 by omega)]
  split
  · next hg =>
    subst hg
    exact .inl ⟨rfl, rfl⟩
  · exact .inr ⟨‹_›, rfl, heof, fun hm => hnl (List.dropLast_subset _ hm), by omega, .inr (.inr rfl)⟩

/-- A read that meets a newline. -/
theorem Waits.takes_nl {n : Int} {got rest : List Byte} (h : Waits n got) (hn : ¬ n ≤ got.length) :
    Takes n (got ++ nl :: rest) (got ++ [nl]) rest := by
  obtain ⟨heof, hnl, hlen⟩ := h
  have hne : eof ≠ nl := by decide
  unfold Takes
  rw [if_neg (show ¬ n ≤ 0 by omega)]
  refine .inr ⟨by simp, by simp, by simp [heof, hne], by simpa using hnl, ?_, .inr (.inl (by simp))⟩
  rw [List.length_append, List.length_singleton]
  omega

theorem Waits.snoc {n : Int} {got : List Byte} {c : Byte} (h : Waits n got) (hn : ¬ n ≤ got.length)
    (heof : c ≠ eof) (hnl : c ≠ nl) : Waits n (got ++ [c]) := by
  refine ⟨by simp [h.1, heof.symm], by simp [h.2.1, hnl.symm], .inr ?_⟩
  rw [List.length_append, List.length_singleton]
  omega

theorem serve_spec {n : Int} {got : List Byte} (h : Waits n got) (unread : List Byte) :
    let (got', rest, done) := serve n got unread
    if done then Takes n (got ++ unread) got' rest else got' ++ rest = got ++ unread ∧ Waits n got' := by
  induction unread generalizing got with
  | nil =>
    by_cases hn : n ≤ got.length
    · simpa [serve, hn] using h.takes hn []
    · simpa [serve, hn] using h
  | cons c rest ih =>
    simp only [serve]
    by_cases hn : n ≤ got.length
    · simpa [hn] using h.takes hn (c :: rest)
    by_cases heof : c = eof
    · subst heof
      simpa [hn] using h.takes_eof hn
    by_cases hnl : c = nl
    · subst hnl
      simpa [hn, heof] using h.takes_nl hn
    simpa [hn, heof, hnl] using ih (h.snoc hn heof hnl)

/-- What was committed is what the reads returned, in order, then what the waiting read has and
what nobody read yet. -/
structure Delivered (t : Terminal) : Prop where
  served : Served t.committed t.reads (t.got ++ t.unread)
  waits : ∀ rd ∈ t.reader, Waits rd.1 rd.2

theorem Delivered.commit {t : Terminal} (h : t.Delivered) : t.commit.Delivered := by
  refine ⟨?_, h.waits⟩
  have := h.served.append t.line
  rwa [List.append_assoc] at this

theorem Delivered.setLine {t : Terminal} (h : t.Delivered) (line : List Byte) : Delivered { t with line } :=
  ⟨h.served, h.waits⟩

theorem Delivered.put {t : Terminal} (h : t.Delivered) (c : Byte) : (t.put c).Delivered := by
  unfold Terminal.put
  split
  · exact (h.setLine _).commit
  · exact h.setLine _

theorem Delivered.typed {t : Terminal} (h : t.Delivered) (c : Byte) : (t.typed c).Delivered := by
  unfold Terminal.typed
  split_ifs <;> first | exact h | exact h.setLine _ | exact h.put _

theorem Delivered.read {t : Terminal} {n : Int} {got : List Byte} (hw : Waits n got)
    (h : Served t.committed t.reads (got ++ t.unread)) : (t.read n got).Delivered := by
  have hspec := serve_spec hw t.unread
  unfold Terminal.read
  rcases hs : serve n got t.unread with ⟨got', rest, done⟩
  rw [hs] at hspec
  cases done with
  | true => exact ⟨.snoc h hspec, by simp⟩
  | false =>
    obtain ⟨heq, hw'⟩ : got' ++ rest = got ++ t.unread ∧ Waits n got' := hspec
    exact ⟨by simpa [Terminal.got, heq] using h, by simpa using hw'⟩

theorem delivered_step (t : Terminal) (l : Act) (u : Terminal) (h : t.Delivered) (hs : t.step l = some u) :
    u.Delivered := by
  cases l with
  | typed c =>
    cases hs
    exact h.typed c
  | read n =>
    simp only [Terminal.step, Option.ite_none_right_eq_some, Option.some.injEq, Option.isNone_iff_eq_none] at hs
    obtain ⟨hnone, rfl⟩ := hs
    refine Delivered.read ⟨by simp, by simp, .inl rfl⟩ ?_
    simpa [got, hnone] using h.served
  | wake =>
    obtain ⟨rd, hrd, rfl⟩ := Option.map_eq_some_iff.1 hs
    refine Delivered.read (h.waits rd hrd) ?_
    simpa [got, hrd] using h.served

/-- What is committed stays committed. -/
theorem committed_step {t u : Terminal} {l : Act} (hs : t.step l = some u) : t.committed <+: u.committed := by
  have hread : ∀ n got, (t.read n got).committed = t.committed := by
    intro n got
    unfold Terminal.read
    split <;> rfl
  cases l with
  | typed c =>
    cases hs
    unfold Terminal.typed Terminal.put
    split_ifs <;> first | exact List.prefix_rfl | exact List.prefix_append _ _
  | read n =>
    simp only [Terminal.step, Option.ite_none_right_eq_some, Option.some.injEq] at hs
    rw [← hs.2, hread]
  | wake =>
    obtain ⟨rd, -, rfl⟩ := Option.map_eq_some_iff.1 hs
    rw [hread]

end Terminal

/-! ## The ring -/

/-- The ring from position `R` on: what is not read yet, then the line being edited. -/
structure Ring (i : Input) (unread line : List Byte) (R : Nat) : Prop where
  r : i.r = BitVec.ofNat 32 R
  w : i.w = BitVec.ofNat 32 (R + unread.length)
  e : i.e = BitVec.ofNat 32 (R + (unread.length + line.length))
  room : unread.length + line.length ≤ INPUT_BUF
  bytes : window i.buf R (unread.length + line.length) = unread ++ line
  plain : nl ∉ line

namespace Ring

variable {i : Input} {unread line : List Byte} {R : Nat} {c : Byte}

theorem lt_size (h : Ring i unread line R) : unread.length + line.length < 2 ^ 32 := by
  have := h.room
  have : INPUT_BUF = 128 := rfl
  omega

theorem used (h : Ring i unread line R) : (i.e - i.r).toNat = unread.length + line.length := by
  rw [h.e, h.r, counters_sub h.lt_size]

theorem ready (h : Ring i unread line R) : (i.w - i.r).toNat = unread.length := by
  have := h.lt_size
  rw [h.w, h.r, counters_sub (by omega)]

theorem edited (h : Ring i unread line R) : (i.e - i.w).toNat = line.length := by
  have := h.lt_size
  rw [h.e, h.w, ← Nat.add_assoc, counters_sub (by omega)]

theorem ew_iff (h : Ring i unread line R) : i.e = i.w ↔ line = [] := by
  have := h.lt_size
  rw [h.e, h.w, counters_eq_iff (by omega) (by omega), ← List.length_eq_zero_iff]
  omega

theorem rw_iff (h : Ring i unread line R) : i.r = i.w ↔ unread = [] := by
  have hlt := h.lt_size
  rw [h.r, h.w, ← List.length_eq_zero_iff]
  exact (counters_eq_iff (d := 0) (by omega) (by omega)).trans eq_comm

theorem get_ofNat (i : Input) (k : Nat) : i.get (BitVec.ofNat 32 k) = i.buf (Fin.ofNat INPUT_BUF k) := by
  rw [Input.get, cell_ofNat (by decide)]

/-- `e` goes back by one: the last character of the line is gone. -/
theorem back (h : Ring i unread (line ++ [c]) R) :
    i.get (i.e - 1) = c ∧ Ring { i with e := i.e - 1 } unread line R := by
  have hlen : unread.length + (line ++ [c]).length = unread.length + line.length + 1 := by simp; omega
  have he : i.e - 1 = BitVec.ofNat 32 (R + (unread.length + line.length)) := by
    rw [h.e, hlen, ← Nat.add_assoc R, counter_pred]
  have hbytes := h.bytes
  rw [hlen, window_succ, ← List.append_assoc] at hbytes
  obtain ⟨hbytes, hc⟩ := List.append_inj' hbytes rfl
  refine ⟨?_, h.r, h.w, he, ?_, hbytes, fun hm => h.plain (List.mem_append_left _ hm)⟩
  · rw [he, get_ofNat]
    exact List.singleton_inj.1 hc
  · have := h.room
    omega

/-- `^U`: the whole line, since there is no newline in it. -/
theorem killLine (h : Ring i unread line R) : Ring (i.killLine line.length) unread [] R := by
  induction line using List.reverseRecOn generalizing i with
  | nil => exact h
  | append_singleton line c ih =>
    obtain ⟨hget, hback⟩ := h.back
    have hne : i.e ≠ i.w := fun he => by simpa using h.ew_iff.1 he
    have hc : c ≠ nl := fun he => h.plain (by simp [he])
    rw [List.length_append, List.length_singleton, Input.killLine, if_pos ⟨hne, by rwa [hget]⟩]
    exact ih hback

theorem backspace (h : Ring i unread line R) :
    Ring (if i.e ≠ i.w then { i with e := i.e - 1 } else i) unread line.dropLast R := by
  induction line using List.reverseRecOn with
  | nil => rwa [if_neg (by simpa using h.ew_iff.2 rfl)]
  | append_singleton line c =>
    rw [if_pos fun he => by simpa using h.ew_iff.1 he, List.dropLast_concat]
    exact h.back.2

/-- A character is stored; a newline is committed with it. -/
theorem store (h : Ring i unread line R) (hroom : unread.length + line.length < INPUT_BUF) :
    let i' := { i with buf := Function.update i.buf (Fin.ofNat INPUT_BUF i.e.toNat) c, e := i.e + 1 }
    Ring { i' with w := i'.e } (unread ++ (line ++ [c])) [] R ∧ (c ≠ nl → Ring i' unread (line ++ [c]) R) := by
  have hlen : unread.length + (line ++ [c]).length = unread.length + line.length + 1 := by simp; omega
  have he : i.e + 1 = BitVec.ofNat 32 (R + (unread.length + (line ++ [c]).length)) := by
    rw [h.e, counter_succ, hlen, Nat.add_assoc]
  have hbytes : window (Function.update i.buf (Fin.ofNat INPUT_BUF i.e.toNat) c) R
      (unread.length + (line ++ [c]).length) = unread ++ (line ++ [c]) := by
    rw [h.e, cell_ofNat (by decide), hlen, window_push hroom, h.bytes, List.append_assoc]
  refine ⟨⟨h.r, ?_, ?_, ?_, ?_, by simp⟩, fun hc => ⟨h.r, h.w, he, by omega, hbytes, ?_⟩⟩
  · rw [List.length_append]
    exact he
  · rw [List.length_append, List.length_nil, Nat.add_zero]
    exact he
  · rw [List.length_append, List.length_nil]
    omega
  · rw [List.length_append, List.length_nil, Nat.add_zero, List.append_nil]
    exact hbytes
  · simp [h.plain, hc.symm]

/-- The oldest character is taken. -/
theorem pop (h : Ring i (c :: unread) line R) :
    i.get i.r = c ∧ Ring { i with r := i.r + 1 } unread line (R + 1) := by
  have hlen : (c :: unread).length + line.length = unread.length + line.length + 1 := by
    rw [List.length_cons]
    omega
  have hbytes := h.bytes
  rw [hlen, window_pop, List.cons_append] at hbytes
  obtain ⟨hc, hbytes⟩ := List.cons.inj hbytes
  refine ⟨by rw [h.r, get_ofNat, hc], ?_, ?_, ?_, ?_, hbytes, h.plain⟩
  · rw [h.r, counter_succ]
  · rw [h.w, List.length_cons]
    congr 1
    omega
  · rw [h.e, hlen]
    congr 1
    omega
  · have := h.room
    omega

end Ring

/-! ## Refinement -/

/-- What the console shows of a terminal. -/
structure Sim (s : Sys) (t : Terminal) : Prop where
  ring : ∃ R, Ring s.input t.unread t.line R
  reader : s.reader = t.reader.map fun rd => ⟨rd.1, rd.1 - rd.2.length, rd.2⟩
  reads : s.reads = t.reads.map fun rd => ⟨rd.1, rd.2, rd.2.length⟩

theorem Ring.consoleintr {i : Input} {t : Terminal} {R : Nat} (h : Ring i t.unread t.line R) (c : Byte) :
    Ring (i.consoleintr c) (t.typed c).unread (t.typed c).line R := by
  unfold Input.consoleintr Terminal.typed
  split
  · exact h
  split
  · rw [h.edited]
    exact h.killLine
  split
  · exact h.backspace
  rw [h.used]
  split
  · next hc =>
    generalize (if c = cr then nl else c) = c'
    obtain ⟨hnl, hplain⟩ := h.store (c := c') hc.2
    have hfull : i.e + 1 = i.r + BitVec.ofNat 32 INPUT_BUF ↔ t.unread.length + t.line.length + 1 = INPUT_BUF := by
      have : INPUT_BUF = 128 := rfl
      rw [h.e, h.r, counter_succ, Nat.add_assoc R, ← BitVec.ofNat_add, counters_eq_iff (by omega) (by omega)]
    simp only [hfull]
    unfold Terminal.put
    split
    · rw [if_pos ‹_›]
      exact hnl
    · next hcond =>
      rw [if_neg ‹_›]
      exact hplain fun hc => hcond (.inl hc)
  · exact h

/-- The loop of `consoleread` serves the reader. -/
theorem Ring.readLoop {i : Input} {unread line : List Byte} {R : Nat} (h : Ring i unread line R) (n : Int)
    (got : List Byte) :
    let (i', rd, done) := readLoop (n - got.length).toNat i ⟨n, n - got.length, got⟩
    let (got', rest, done') := Terminal.serve n got unread
    (∃ R', Ring i' rest line R') ∧ rd = ⟨n, n - got'.length, got'⟩ ∧ done = done' := by
  induction unread generalizing i R got with
  | nil =>
    have hempty := h.rw_iff.2 rfl
    by_cases hn : n ≤ got.length
    · have hz : (n - got.length).toNat = 0 := by omega
      simpa [Console.readLoop, Terminal.serve, hz, hn] using ⟨R, h⟩
    · obtain ⟨k, hk⟩ : ∃ k, (n - got.length).toNat = k + 1 := ⟨(n - got.length).toNat - 1, by omega⟩
      simpa [Console.readLoop, Terminal.serve, hk, hn, hempty] using ⟨R, h⟩
  | cons c rest ih =>
    have hne : i.r ≠ i.w := fun he => by simpa using h.rw_iff.1 he
    obtain ⟨hget, hpop⟩ := h.pop
    by_cases hn : n ≤ got.length
    · have hz : (n - got.length).toNat = 0 := by omega
      simpa [Console.readLoop, Terminal.serve, hz, hn] using ⟨R, h⟩
    obtain ⟨k, hk⟩ : ∃ k, (n - got.length).toNat = k + 1 := ⟨(n - got.length).toNat - 1, by omega⟩
    have hlen : n - ((got ++ [c]).length : Int) = n - got.length - 1 := by simp; omega
    simp only [Console.readLoop, Terminal.serve, hk, hn, hne, hget, if_false]
    by_cases heof : c = eof
    · have hback : i.r + 1 - 1 = i.r := BitVec.add_sub_cancel ..
      simp only [heof, eof, if_true, hback]
      by_cases hg : got = []
      · simpa [hg] using ⟨_, hpop⟩
      · have : 0 < got.length := List.length_pos_iff.2 hg
        rw [heof] at h
        simpa [hg, this] using ⟨_, h⟩
    by_cases hnl : c = nl
    · rw [← hlen]
      simpa [hnl, show ¬ nl = ctrl 'D' by decide, show ¬ nl = eof by decide] using ⟨_, hpop⟩
    · have hk' : k = (n - ((got ++ [c]).length : Int)).toNat := by omega
      rw [← hlen, hk']
      simpa [show ¬ c = ctrl 'D' from heof, heof, hnl] using ih hpop (got ++ [c])

theorem Sim.consoleread {s : Sys} {t : Terminal} (h : Sim s t) (n : Int) (got : List Byte) :
    Sim (s.consoleread ⟨n, n - got.length, got⟩) (t.read n got) := by
  obtain ⟨R, hring⟩ := h.ring
  have hloop := hring.readLoop n got
  unfold Sys.consoleread Terminal.read
  rcases hr : readLoop (n - got.length).toNat s.input ⟨n, n - got.length, got⟩ with ⟨i', rd, done⟩
  rcases hs : Terminal.serve n got t.unread with ⟨got', rest, done'⟩
  rw [hr, hs] at hloop
  obtain ⟨hring', rfl, rfl⟩ := hloop
  cases done with
  | true => exact ⟨hring', rfl, by simp [h.reads]⟩
  | false => exact ⟨hring', rfl, h.reads⟩

theorem Terminal.typed_reads (t : Terminal) (c : Byte) :
    (t.typed c).reader = t.reader ∧ (t.typed c).reads = t.reads := by
  unfold Terminal.typed Terminal.put Terminal.commit
  split_ifs <;> exact ⟨rfl, rfl⟩

theorem sim_step (s : Sys) (t : Terminal) (l : Act) (s' : Sys) (h : Sim s t) (hs : s.step l = some s') :
    ∃ t', t.step l = some t' ∧ Sim s' t' := by
  cases l with
  | typed c =>
    cases hs
    obtain ⟨R, hring⟩ := h.ring
    obtain ⟨hreader, hreads⟩ := t.typed_reads c
    exact ⟨_, rfl, ⟨R, hring.consoleintr c⟩, by rw [hreader]; exact h.reader, by rw [hreads]; exact h.reads⟩
  | read n =>
    simp only [Sys.step, Option.ite_none_right_eq_some, Option.some.injEq] at hs
    obtain ⟨hnone, rfl⟩ := hs
    have hnone' : t.reader.isNone := by simpa [h.reader] using hnone
    refine ⟨t.read n [], if_pos hnone', ?_⟩
    simpa using h.consoleread n []
  | wake =>
    obtain ⟨rd, hrd, rfl⟩ := Option.map_eq_some_iff.1 hs
    rw [h.reader] at hrd
    obtain ⟨⟨n, got⟩, ht, rfl⟩ := Option.map_eq_some_iff.1 hrd
    exact ⟨t.read n got, by simp [Terminal.step, ht], h.consoleread n got⟩

/-- What the state of the console says of the terminal it implements, in wrapping arithmetic:
the counters are in order, the ring holds what is not read yet and then the line, and reads
returned what the terminal's did, with its length. -/
structure Shows (s : Sys) (t : Terminal) : Prop where
  ordered : (s.input.w - s.input.r).toNat ≤ (s.input.e - s.input.r).toNat
  bounded : (s.input.e - s.input.r).toNat ≤ INPUT_BUF
  unread : window s.input.buf s.input.r.toNat (s.input.w - s.input.r).toNat = t.unread
  line : window s.input.buf s.input.w.toNat (s.input.e - s.input.w).toNat = t.line
  reads : s.reads = t.reads.map fun rd => ⟨rd.1, rd.2, rd.2.length⟩

theorem Sim.shows {s : Sys} {t : Terminal} (h : Sim s t) : Shows s t := by
  obtain ⟨R, hring⟩ := h.ring
  have hbytes := hring.bytes
  rw [window_add] at hbytes
  obtain ⟨hunread, hline⟩ := List.append_inj hbytes (by simp)
  refine ⟨?_, ?_, ?_, ?_, h.reads⟩
  · rw [hring.ready, hring.used]
    omega
  · rw [hring.used]
    exact hring.room
  · rw [hring.ready, hring.r, window_ofNat (by decide), hunread]
  · rw [hring.edited, hring.w, window_ofNat (by decide), hline]

theorem Terminal.committed_along {ls : List Act} {t t' : Terminal} (hs : exec Terminal.step t ls = some t') :
    Along Terminal.step t ls fun u => u.committed <+: t'.committed := by
  rintro pre u ⟨post, rfl⟩ hu
  rw [exec_append, hu] at hs
  exact exec_inv (fun v => u.committed <+: v.committed) (fun _ _ _ hv hs => hv.trans (committed_step hs)) hs
    List.prefix_rfl

/-- After any characters and reads the console is as the terminal is after them: what was
committed at any time stays committed, reads return it in order, each stopping where it should,
and each `^D` is answered by one read that returns nothing, or is not read yet. -/
theorem console_line_discipline {ls : List Act} {s : Sys} (h : exec Sys.step .init ls = some s) :
    ∃ t, exec Terminal.step .init ls = some t ∧ Shows s t ∧
      Along Terminal.step .init ls (fun u => u.committed <+: t.committed) ∧
      Served t.committed t.reads (t.got ++ t.unread) ∧
      t.committed.count eof = ends t.reads + (t.got ++ t.unread).count eof := by
  have h0 : Sim .init .init := ⟨⟨0, rfl, rfl, rfl, by decide, rfl, by simp [Terminal.init]⟩, rfl, rfl⟩
  have hd : Terminal.init.Delivered := ⟨.nil, by simp [Terminal.init]⟩
  obtain ⟨t, ht, hsim⟩ := exec_sim Sim sim_step h h0
  have hserved := (exec_inv Terminal.Delivered Terminal.delivered_step ht hd).served
  exact ⟨t, ht, hsim.shows, Terminal.committed_along ht, hserved, hserved.count⟩

/-- `a`, rubbed out, `b`, `^D`: a read of 5 takes `b`, the next one nothing. -/
theorem console_line_discipline_eof :
    ∃ s, exec Sys.step .init [.typed 97, .read 5, .typed 0x7f, .typed 98, .typed eof, .wake, .read 5] = some s ∧
      s.reads = [⟨5, [98], 1⟩, ⟨5, [], 0⟩] ∧
      ∃ t, exec Terminal.step .init [.typed 97, .read 5, .typed 0x7f, .typed 98, .typed eof, .wake, .read 5] = some t ∧
        Shows s t := by
  have hrun : (exec Sys.step .init
      [.typed 97, .read 5, .typed 0x7f, .typed 98, .typed eof, .wake, .read 5]).map (·.reads) =
      some [⟨5, [98], 1⟩, ⟨5, [], 0⟩] := by decide +kernel
  obtain ⟨s, hs, hreads⟩ := Option.map_eq_some_iff.1 hrun
  obtain ⟨t, ht, hshows, -⟩ := console_line_discipline hs
  exact ⟨s, hs, hreads, t, ht, hshows⟩

end Xv6.Console
