import Xv6.Lib.Bytes
import Xv6.Lib.Loops
/-!
# The MP configuration table

mp.c: the search for the firmware's floating pointer, the tests of the table it
points to, and `mpinit`, which goes through the entries of the table and counts
the processors. Addresses are the kernel's virtual ones; positions in the table
are offsets from its start. The `break` in the default branch of `mpinit`'s
switch leaves the switch and not the loop, so an entry of an unknown type is
looked at again and again.
-/

namespace Xv6.Mp
open Bytes Loops

def NCPU : Nat := 8

variable {mem : Mem 32} {a conf : BitVec 32}

/-! ## The search -/

def p2v (a : BitVec 32) : BitVec 32 := a + 0x80000000

/-- Byte `i` of what lies at `a`. -/
def byte (mem : Mem 32) (a : BitVec 32) (i : Nat) : BitVec 8 := mem (a + BitVec.ofNat 32 i)

/-- The low byte of the sum of the bytes. -/
def sum (mem : Mem 32) (addr : BitVec 32) (len : Nat) : BitVec 8 :=
  BitVec.ofNat 8 ((List.range len).map fun i => (byte mem addr i).toNat).sum

/-- `memcmp(a, s, n) == 0`, with `n` the length of `s`. -/
def same (mem : Mem 32) (a : BitVec 32) (s : List (BitVec 8)) : Bool :=
  (List.range s.length).map (byte mem a) = s

/-- "_MP_" -/
def mpSignature : List (BitVec 8) := [0x5f, 0x4d, 0x50, 0x5f]

/-- "PCMP" -/
def confSignature : List (BitVec 8) := [0x50, 0x43, 0x4d, 0x50]

/-- `sizeof(struct mp)` -/
def MPSIZE : Nat := 16

/-- Look for an MP structure in the `len` bytes at `a`. -/
def mpsearch1 (mem : Mem 32) (a : BitVec 32) (len : Nat) : Option (BitVec 32) :=
  ((List.range (len / MPSIZE)).map fun i => p2v a + BitVec.ofNat 32 (MPSIZE * i)).find? fun p =>
    same mem p mpSignature && sum mem p MPSIZE == 0

/-- In the first KB of the EBDA if there is one, otherwise in the last KB of base memory, and then in the ROM. -/
def mpsearch (mem : Mem 32) : Option (BitVec 32) :=
  let bda := byte mem (p2v 0x400)
  let p := (bda 0x0f ++ bda 0x0e).setWidth 32 <<< 4
  let first :=
    if p ≠ 0 then mpsearch1 mem p 1024
    else mpsearch1 mem ((bda 0x14 ++ bda 0x13).setWidth 32 * 1024 - 1024) 1024
  first.or (mpsearch1 mem 0xf0000 0x10000)

/-! ## The floating pointer and the table's header -/

/-- `mp->physaddr` -/
def physaddr (mem : Mem 32) (mp : BitVec 32) : BitVec 32 := load mem (mp + 4)

/-- `mp->imcrp` -/
def imcrp (mem : Mem 32) (mp : BitVec 32) : BitVec 8 := byte mem mp 12

/-- `conf->length` -/
def length (mem : Mem 32) (conf : BitVec 32) : Nat := (byte mem conf 5 ++ byte mem conf 4).toNat

/-- `conf->version` -/
def version (mem : Mem 32) (conf : BitVec 32) : BitVec 8 := byte mem conf 6

/-- `conf->lapicaddr` -/
def lapicaddr (mem : Mem 32) (conf : BitVec 32) : BitVec 32 := load mem (conf + 36)

/-- `sizeof(struct mpconf)` -/
def CONFSIZE : Nat := 44

/-- The floating pointer and the table, if they pass the tests. -/
def mpconfig (mem : Mem 32) : Option (BitVec 32 × BitVec 32) := do
  let mp ← mpsearch mem
  if physaddr mem mp = 0 then none
  else
    let conf := p2v (physaddr mem mp)
    if !same mem conf confSignature then none
    else if version mem conf ≠ 1 ∧ version mem conf ≠ 4 then none
    else if sum mem conf (length mem conf) ≠ 0 then none
    else some (mp, conf)

/-! ## The scan -/

/-- What the loop of `mpinit` works on: `p`, `ismp`, the `apicid` of the `ncpu` processors in `cpus`, and `ioapicid`. -/
structure Scan where
  p : Nat
  ismp : Bool
  cpus : List (BitVec 8)
  ioapicid : BitVec 8

/-- One round: the switch over the type of the entry at `p`. -/
def round (mem : Mem 32) (conf : BitVec 32) (c : Scan) : Scan :=
  match (byte mem conf c.p).toNat with
  | 0 => { c with
      cpus := if c.cpus.length < NCPU then c.cpus ++ [byte mem conf (c.p + 1)] else c.cpus
      p := c.p + 20 }
  | 2 => { c with ioapicid := byte mem conf (c.p + 1), p := c.p + 8 }
  | 1 | 3 | 4 => { c with p := c.p + 8 }
  | _ => { c with ismp := false }

/-- The loop, for at most `n` rounds. -/
def scan (mem : Mem 32) (conf : BitVec 32) (n : Nat) : Option Scan :=
  loop (fun c => c.p < length mem conf) (round mem conf) n ⟨CONFSIZE, true, [], 0⟩

/-- What `mpinit` leaves: the globals, and the bytes it sends to ports. -/
structure Machine where
  cpus : List (BitVec 8)
  ioapicid : BitVec 8
  lapic : BitVec 32
  outs : List (BitVec 16 × BitVec 8)
  deriving DecidableEq

/-- Select the IMCR and mask external interrupts, if the machine has one; port 0x23 reads `imcr`. -/
def maskImcr (mem : Mem 32) (mp : BitVec 32) (imcr : BitVec 8) : List (BitVec 16 × BitVec 8) :=
  if imcrp mem mp ≠ 0 then [(0x22, 0x70), (0x23, imcr ||| 1)] else []

/-- `mpinit`, when its loop ends within `n` rounds. -/
def mpinit (mem : Mem 32) (imcr : BitVec 8) (n : Nat) : Option (Except String Machine) :=
  match mpconfig mem with
  | none => some (.error "Expect to run on an SMP")
  | some (mp, conf) =>
    match scan mem conf n with
    | none => none
    | some c =>
      if !c.ismp then some (.error "Didn't find a suitable machine")
      else some (.ok ⟨c.cpus, c.ioapicid, lapicaddr mem conf, maskImcr mem mp imcr⟩)

/-! ## The entries of a table -/

/-- The lengths of the entries; a type that is not known has none. -/
def entryLen (ty : BitVec 8) : Nat :=
  match ty.toNat with
  | 0 => 20
  | 1 | 2 | 3 | 4 => 8
  | _ => 0

/-- Where entry `k` begins. -/
def entry (mem : Mem 32) (conf : BitVec 32) : Nat → Nat
  | 0 => CONFSIZE
  | k + 1 => entry mem conf k + entryLen (byte mem conf (entry mem conf k))

/-- The type of entry `k`. -/
def entryType (mem : Mem 32) (conf : BitVec 32) (k : Nat) : BitVec 8 := byte mem conf (entry mem conf k)

/-- Every entry that begins within the table has a type that is known. -/
def Known (mem : Mem 32) (conf : BitVec 32) : Prop :=
  ∀ k, entry mem conf k < length mem conf → (entryType mem conf k).toNat ≤ 4

/-- The processors among the first `k` entries, in the order of the table. -/
def processors (mem : Mem 32) (conf : BitVec 32) (k : Nat) : List (BitVec 8) :=
  ((List.range k).filter fun j => (entryType mem conf j).toNat = 0).map fun j => byte mem conf (entry mem conf j + 1)

/-- The table has `k` entries. -/
def Entries (mem : Mem 32) (conf : BitVec 32) (k : Nat) : Prop :=
  (∀ j < k, entry mem conf j < length mem conf) ∧ length mem conf ≤ entry mem conf k

theorem processors_succ (mem : Mem 32) (conf : BitVec 32) (k : Nat) :
    processors mem conf (k + 1) = processors mem conf k ++
      if (entryType mem conf k).toNat = 0 then [byte mem conf (entry mem conf k + 1)] else [] := by
  rw [processors, List.range_succ, List.filter_append, List.map_append]
  split <;> simp_all [processors]

theorem entryLen_pos {ty : BitVec 8} (h : ty.toNat ≤ 4) : 0 < entryLen ty := by
  rw [entryLen]
  generalize ty.toNat = t at h ⊢
  match t with
  | 0 | 1 | 2 | 3 | 4 => decide
  | t + 5 => omega

theorem entryLen_unknown {ty : BitVec 8} (h : ¬ ty.toNat ≤ 4) : entryLen ty = 0 := by
  rw [entryLen]
  generalize ty.toNat = t at h ⊢
  match t with
  | 0 | 1 | 2 | 3 | 4 => omega
  | t + 5 => rfl

/-! ## What a round does -/

theorem round_p (c : Scan) : (round mem conf c).p = c.p + entryLen (byte mem conf c.p) := by
  rw [round, entryLen]
  generalize (byte mem conf c.p).toNat = t
  match t with
  | 0 | 1 | 2 | 3 | 4 | t + 5 => rfl

theorem round_ismp {c : Scan} (h : (byte mem conf c.p).toNat ≤ 4) : (round mem conf c).ismp = c.ismp := by
  rw [round]
  generalize (byte mem conf c.p).toNat = t at h ⊢
  match t with
  | 0 | 1 | 2 | 3 | 4 => rfl
  | t + 5 => omega

theorem round_cpus (c : Scan) : (round mem conf c).cpus =
    if (byte mem conf c.p).toNat = 0 ∧ c.cpus.length < NCPU then c.cpus ++ [byte mem conf (c.p + 1)] else c.cpus := by
  rw [round]
  generalize (byte mem conf c.p).toNat = t
  match t with
  | 0 => simp only [true_and]
  | 1 | 2 | 3 | 4 | t + 5 => simp

theorem take_snoc {α : Type} (n : Nat) (l : List α) (x : α) :
    (l ++ [x]).take n = if (l.take n).length < n then l.take n ++ [x] else l.take n := by
  rw [List.take_append, List.length_take]
  split
  case isTrue h =>
    have hroom : [x].length ≤ n - l.length := by
      rw [List.length_singleton]
      omega
    rw [List.take_of_length_le hroom]
  case isFalse h => rw [Nat.sub_eq_zero_of_le (by omega), List.take_zero, List.append_nil]

/-! ## Whole scans -/

/-- The scan has passed the first `k` entries, all of known types. -/
structure Passed (mem : Mem 32) (conf : BitVec 32) (k : Nat) (c : Scan) : Prop where
  here : c.p = entry mem conf k
  within : ∀ j < k, entry mem conf j < length mem conf
  ismp : c.ismp = true
  cpus : c.cpus = (processors mem conf k).take NCPU

theorem Passed.round {k : Nat} {c : Scan} (h : Passed mem conf k c) (hp : c.p < length mem conf)
    (hty : (entryType mem conf k).toNat ≤ 4) : Passed mem conf (k + 1) (round mem conf c) := by
  have hbyte : byte mem conf c.p = entryType mem conf k := by rw [entryType, h.here]
  refine ⟨?_, ?_, ?_, ?_⟩
  · rw [round_p, h.here]
    rfl
  · intro j hj
    rcases Nat.lt_succ_iff_lt_or_eq.1 hj with hj | rfl
    · exact h.within j hj
    · exact h.here ▸ hp
  · rw [round_ismp (hbyte ▸ hty), h.ismp]
  · rw [round_cpus, hbyte, h.here, h.cpus, processors_succ]
    by_cases h0 : (entryType mem conf k).toNat = 0
    · simp only [h0, true_and, if_true, take_snoc]
    · simp only [h0, false_and, if_false, List.append_nil]

theorem scan_known (h : Known mem conf) :
    ∃ c k, scan mem conf (length mem conf) = some c ∧ Passed mem conf k c ∧ Entries mem conf k := by
  have hstart : Passed mem conf 0 ⟨CONFSIZE, true, [], 0⟩ := ⟨rfl, by simp, rfl, rfl⟩
  have hstep : ∀ c, (∃ k, Passed mem conf k c) → decide (c.p < length mem conf) = true →
      (∃ k, Passed mem conf k (round mem conf c)) ∧
        length mem conf - (round mem conf c).p < length mem conf - c.p := by
    rintro c ⟨k, hk⟩ htest
    have hp := of_decide_eq_true htest
    have hty := h k (hk.here ▸ hp)
    have hlen : 0 < entryLen (byte mem conf c.p) := by
      rw [hk.here]
      exact entryLen_pos hty
    refine ⟨⟨k + 1, hk.round hp hty⟩, ?_⟩
    rw [round_p]
    omega
  obtain ⟨c, hloop, ⟨k, hk⟩, htest⟩ := loop_some (fun c => ∃ k, Passed mem conf k c)
    (fun c => length mem conf - c.p) hstep ⟨0, hstart⟩ (Nat.sub_le _ _)
  refine ⟨c, k, hloop, hk, hk.within, ?_⟩
  rw [← hk.here]
  exact Nat.not_lt.1 (of_decide_eq_false htest)

theorem entry_mono : Monotone (entry mem conf) :=
  monotone_nat_of_le_succ fun _ => Nat.le_add_right _ _

/-- The entries do not get past one of an unknown type. -/
theorem entry_stuck {k : Nat} (hk : entry mem conf k < length mem conf) (hty : ¬ (entryType mem conf k).toNat ≤ 4)
    (j : Nat) : entry mem conf j < length mem conf := by
  have hstay (i : Nat) : entry mem conf (k + i) = entry mem conf k := by
    induction i with
    | zero => rfl
    | succ i ih =>
      rw [← Nat.add_assoc, entry, ih, ← entryType, entryLen_unknown hty, Nat.add_zero]
  calc entry mem conf j ≤ entry mem conf (k + j) := entry_mono (Nat.le_add_left _ _)
    _ = entry mem conf k := hstay j
    _ < length mem conf := hk

theorem scan_unknown (h : ¬ Known mem conf) (n : Nat) : scan mem conf n = none := by
  obtain ⟨k, hk⟩ := not_forall.1 h
  obtain ⟨hin, hty⟩ := Classical.not_imp.1 hk
  refine loop_none (fun c => ∃ j, c.p = entry mem conf j) ?_ ⟨0, rfl⟩
  rintro c ⟨j, hj⟩
  refine ⟨decide_eq_true (hj ▸ entry_stuck hin hty j), j + 1, ?_⟩
  rw [round_p, hj]
  rfl

theorem known_of_entries {k : Nat} (hend : length mem conf ≤ entry mem conf k)
    (hty : ∀ j < k, (entryType mem conf j).toNat ≤ 4) : Known mem conf := by
  intro j hj
  refine hty j ?_
  by_contra hle
  have : entry mem conf k ≤ entry mem conf j := entry_mono (Nat.not_lt.1 hle)
  omega

/-! ## Two machines -/

/-- Bytes at an address, over a memory. -/
def place (a : BitVec 32) (bs : List (BitVec 8)) (mem : Mem 32) : Mem 32 := write mem a bs.length (bs.getD · 0)

/-- A machine whose EBDA at 0x9fc00 begins with the floating pointer, with the table at 0x9fd00. -/
def firmware (table : List (BitVec 8)) : Mem 32 :=
  place (p2v 0x40e) [0xc0, 0x9f] <|
  place (p2v 0x9fc00) (mpSignature ++ [0, 0xfd, 9, 0, 1, 4, 0x9a, 0, 0, 0, 0, 0]) <|
  place (p2v 0x9fd00) table fun _ => 0

/-- The header of a table of version 4, with nothing in the fields for the firmware's maker. -/
def header (len checksum : BitVec 8) : List (BitVec 8) :=
  confSignature ++ [len, 0, 4, checksum] ++ List.replicate 28 0 ++ [0, 0, 0xe0, 0xfe, 0, 0, 0, 0]

/-- Two processors, a bus and an I/O APIC. -/
def twoCpus : Mem 32 := firmware <|
  header 100 0x6d ++ [0, 4] ++ List.replicate 18 0 ++ [0, 7] ++ List.replicate 18 0 ++
    [1, 0, 0x49, 0x53, 0x41, 0x20, 0x20, 0x20] ++ [2, 2, 0x11, 1, 0, 0, 0xc0, 0xfe]

/-- One entry, of type 5. -/
def unknownEntry : Mem 32 := firmware (header 52 0xb5 ++ [5, 0, 0, 0, 0, 0, 0, 0])

/-! ## mpinit -/

/-- What `mpinit` is to report of a table: the processors, as many as there is room for, or the panic. -/
def Reports (mem : Mem 32) (conf : BitVec 32) : Except String Machine → Prop
  | .ok c => Known mem conf ∧ ∃ k, Entries mem conf k ∧ c.cpus = (processors mem conf k).take NCPU
  | .error e => ¬ Known mem conf ∧ e = "Didn't find a suitable machine"

/-- With a table that passes the tests, `mpinit` ends and reports it just when all its entries have known types; an
entry of an unknown type keeps it in its loop for ever. -/
theorem mpinit_reports_iff (mem : Mem 32) (imcr : BitVec 8) (mp conf : BitVec 32)
    (hconf : mpconfig mem = some (mp, conf)) :
    ((∃ n r, mpinit mem imcr n = some r ∧ Reports mem conf r) ↔ Known mem conf) ∧
      (¬ Known mem conf → ∀ n, mpinit mem imcr n = none) := by
  have hendless (h : ¬ Known mem conf) (n : Nat) : mpinit mem imcr n = none := by
    simp only [mpinit, hconf, scan_unknown h]
  refine ⟨⟨?_, fun h => ?_⟩, hendless⟩
  · rintro ⟨n, r, hr, -⟩
    by_contra h
    rw [hendless h n] at hr
    cases hr
  · obtain ⟨c, k, hscan, hk, hentries⟩ := scan_known h
    refine ⟨length mem conf, .ok ⟨c.cpus, c.ioapicid, lapicaddr mem conf, maskImcr mem mp imcr⟩, ?_,
      h, k, hentries, hk.cpus⟩
    simp only [mpinit, hconf, hscan, hk.ismp, Bool.not_true, Bool.false_eq_true, if_false]

theorem twoCpus_reported : mpconfig twoCpus = some (p2v 0x9fc00, p2v 0x9fd00) ∧ Known twoCpus (p2v 0x9fd00) ∧
    ∃ n r, mpinit twoCpus 0 n = some r ∧ Reports twoCpus (p2v 0x9fd00) r := by
  have hconf : mpconfig twoCpus = some (p2v 0x9fc00, p2v 0x9fd00) := by decide +kernel
  have hknown : Known twoCpus (p2v 0x9fd00) :=
    known_of_entries (k := 4) (by decide +kernel) (by decide +kernel)
  exact ⟨hconf, hknown, (mpinit_reports_iff twoCpus 0 _ _ hconf).1.2 hknown⟩

/-- A table with one entry of type 5 passes the tests, and `mpinit` does not end. -/
theorem unknownEntry_endless : mpconfig unknownEntry = some (p2v 0x9fc00, p2v 0x9fd00) ∧
    ∀ n, scan unknownEntry (p2v 0x9fd00) n = none ∧ mpinit unknownEntry 0 n = none := by
  have hconf : mpconfig unknownEntry = some (p2v 0x9fc00, p2v 0x9fd00) := by decide +kernel
  have hunknown : ¬ Known unknownEntry (p2v 0x9fd00) := fun h => absurd (h 0 (by decide +kernel)) (by decide +kernel)
  refine ⟨hconf, fun n => ⟨scan_unknown hunknown n, ?_⟩⟩
  simp only [mpinit, hconf, scan_unknown hunknown]

end Xv6.Mp
