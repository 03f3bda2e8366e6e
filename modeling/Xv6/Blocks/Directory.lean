import Mathlib.Data.List.GetD
import Xv6.Blocks.ByteArray
/-!
# Directories (fs.c, sysfile.c, string.c)

A directory is a file of entries of 16 bytes: two for the inode number, 0 if the
entry is free, and 14 for the name, which has a terminator only if it is
shorter. A name is what a `char*` leads to, and two names are the same if they
agree up to a terminator or for 14 bytes. Seen this way a directory is a finite
map from names to inode numbers. The references that `dirlookup` takes are left
out.
-/

namespace Xv6

open Outcome

/-- What a `char*` leads to. -/
abbrev CString := Nat → BitVec 8

/-! ## string.c -/

def strncmp (p q : CString) : Nat → Int
  | 0 => 0
  | n + 1 =>
    if p 0 ≠ 0 ∧ p 0 = q 0 then strncmp (fun k => p (k + 1)) (fun k => q (k + 1)) n
    else (p 0).toNat - (q 0).toNat

/-- The `n` bytes that `strncpy` stores. -/
def strncpy (t : CString) : Nat → List (BitVec 8)
  | 0 => []
  | n + 1 => t 0 :: if t 0 ≠ 0 then strncpy (fun k => t (k + 1)) n else List.replicate n 0

/-- A name as a list: up to a terminator, and at most `n` bytes. -/
def key (p : CString) : Nat → List (BitVec 8)
  | 0 => []
  | n + 1 => if p 0 = 0 then [] else p 0 :: key (fun k => p (k + 1)) n

theorem strncmp_eq_zero_iff (p q : CString) (n : Nat) : strncmp p q n = 0 ↔ key p n = key q n := by
  induction n generalizing p q with
  | zero => exact iff_of_true rfl rfl
  | succ n ih =>
    unfold strncmp key
    by_cases hp : p 0 = 0
    · rw [if_neg (fun h => h.1 hp), if_pos hp, hp]
      by_cases hq : q 0 = 0
      · rw [if_pos hq, hq]
        exact iff_of_true rfl rfl
      · have hne : (q 0).toNat ≠ 0 := fun h => hq (BitVec.eq_of_toNat_eq h)
        rw [if_neg hq]
        refine iff_of_false ?_ nofun
        rw [show ((0 : BitVec 8).toNat : Int) = 0 from rfl]
        omega
    · rw [if_neg hp]
      by_cases hpq : p 0 = q 0
      · rw [if_pos ⟨hp, hpq⟩, if_neg (hpq ▸ hp), hpq, List.cons.injEq]
        exact (ih _ _).trans (and_iff_right rfl).symm
      · rw [if_neg fun h => hpq h.2]
        refine iff_of_false (fun h => hpq (BitVec.eq_of_toNat_eq (by omega))) fun h => ?_
        split at h
        · cases h
        · exact hpq (List.cons.inj h).1

theorem key_strncpy (t : CString) (n : Nat) : key (fun k => (strncpy t n).getD k 0) n = key t n := by
  induction n generalizing t with
  | zero => rfl
  | succ n ih =>
    unfold strncpy key
    simp only [List.getD_cons_zero, List.getD_cons_succ]
    by_cases h0 : t 0 = 0
    · rw [if_pos h0, if_pos h0]
    · rw [if_neg h0, if_neg h0, if_pos h0, ih]

/-! ## The code -/

/-- sizeof(struct dirent) -/
def DIRENT : Nat := 16

/-- A `struct dirent`. -/
structure RawDirent where
  inum : Nat
  name : CString

def namecmp (s t : CString) : Int := strncmp s t DIRSIZ

/-- A `struct dirent` and its bytes. -/
def RawDirent.ofBytes (bytes : List (BitVec 8)) : RawDirent :=
  ⟨(bytes.getD 0 0).toNat + 256 * (bytes.getD 1 0).toNat, fun k => bytes.getD (2 + k) 0⟩

def RawDirent.bytes (de : RawDirent) : CString
  | 0 => BitVec.ofNat 8 de.inum
  | 1 => BitVec.ofNat 8 (de.inum / 256)
  | k + 2 => de.name k

namespace Volume

/-- `if(readi(dp, (char*)&de, off, sizeof(de)) != sizeof(de)) panic(e);` -/
def readDirent (e : BlockPanic) (s : Volume) (dp : Dinode) (off : Nat) : Except BlockPanic (RawDirent × Dinode × Volume) := do
  let (data, dp, s) ← s.readi dp (BitVec.ofNat 32 off) (BitVec.ofNat 32 DIRENT)
  match data with
  | none => .error e
  | some bytes => if bytes.length = DIRENT then .ok (.ofBytes bytes, dp, s) else .error e

/-- The loop of `dirlookup`, which gives the inode number and the offset. -/
def lookupLoop (name : CString) : Nat → Volume → Dinode → Nat → Except BlockPanic (Option (Nat × Nat) × Dinode × Volume)
  | 0, s, dp, _ => .ok (none, dp, s)
  | fuel + 1, s, dp, off =>
    if off < dp.size then do
      let (de, dp, s) ← s.readDirent .dirlookup dp off
      if de.inum = 0 then lookupLoop name fuel s dp (off + DIRENT)
      else if namecmp name de.name = 0 then .ok (some (de.inum, off), dp, s)
      else lookupLoop name fuel s dp (off + DIRENT)
    else .ok (none, dp, s)

def dirlookup (s : Volume) (dp : Dinode) (name : CString) : Except BlockPanic (Option (Nat × Nat) × Dinode × Volume) :=
  if dp.type ≠ .dir then .error .notDir
  else lookupLoop name dp.size s dp 0

/-- The loop of `dirlink`, which looks for an empty entry. -/
def emptyLoop : Nat → Volume → Dinode → Nat → Except BlockPanic (Nat × Dinode × Volume)
  | 0, s, dp, off => .ok (off, dp, s)
  | fuel + 1, s, dp, off =>
    if off < dp.size then do
      let (de, dp, s) ← s.readDirent .dirlinkRead dp off
      if de.inum = 0 then .ok (off, dp, s) else emptyLoop fuel s dp (off + DIRENT)
    else .ok (off, dp, s)

/-- `dirlink` into inode `i`; the result is false for -1. -/
def dirlink (s : Volume) (i : Nat) (dp : Dinode) (name : CString) (inum : Nat) :
    Except BlockPanic (Bool × Dinode × Volume) := do
  let (found, dp, s) ← s.dirlookup dp name
  match found with
  | some _ => .ok (false, dp, s)
  | none =>
    let (off, dp, s) ← emptyLoop dp.size s dp 0
    let de : RawDirent := ⟨inum, fun k => (strncpy name DIRSIZ).getD k 0⟩
    let (ok, dp, s) ← s.writei i dp de.bytes (BitVec.ofNat 32 off) (BitVec.ofNat 32 DIRENT)
    if ok then .ok (true, dp, s) else .error .dirlink

def dot : CString := fun k => if k = 0 then 46 else 0
def dotdot : CString := fun k => if k < 2 then 46 else 0

/-- The part of `sys_unlink` that changes the directory: `busy` says that the name leads to a directory that is not
empty. The result is false for -1. -/
def unlinkEntry (s : Volume) (i : Nat) (dp : Dinode) (name : CString) (busy : Bool) :
    Except BlockPanic (Bool × Dinode × Volume) :=
  if namecmp name dot = 0 ∨ namecmp name dotdot = 0 then .ok (false, dp, s)
  else do
    let (found, dp, s) ← s.dirlookup dp name
    match found with
    | none => .ok (false, dp, s)
    | some (_, off) =>
      if busy then .ok (false, dp, s)
      else do
        let (ok, dp, s) ← s.writei i dp (fun _ => 0) (BitVec.ofNat 32 off) (BitVec.ofNat 32 DIRENT)
        if ok then .ok (true, dp, s) else .error .unlink

/-! ## What the loops find -/

variable {s s' : Volume} {T : Nat → Dinode} {i k m : Nat} {name : CString} {ip' : Dinode}

/-- The entry number `k` of a directory. -/
def dirent (s : Volume) (dp : Dinode) (k : Nat) : RawDirent :=
  ⟨(s.content dp (DIRENT * k)).toNat + 256 * (s.content dp (DIRENT * k + 1)).toNat,
    fun j => if j < DIRSIZ then s.content dp (DIRENT * k + (2 + j)) else 0⟩

/-- Entry `k` is in use for a name. -/
def Names (s : Volume) (dp : Dinode) (nm : List (BitVec 8)) (k : Nat) : Prop :=
  (s.dirent dp k).inum ≠ 0 ∧ key (s.dirent dp k).name DIRSIZ = nm

instance (dp : Dinode) (nm : List (BitVec 8)) : DecidablePred (s.Names dp nm) := fun _ =>
  inferInstanceAs (Decidable (_ ∧ _))

/-- A directory without holes whose names all differ. -/
structure Dir (s : Volume) (T : Nat → Dinode) (i : Nat) : Prop extends File s T i where
  dir : (T i).type = .dir
  whole : DIRENT ∣ (T i).size
  nodup : ∀ nm k k', DIRENT * k < (T i).size → DIRENT * k' < (T i).size → s.Names (T i) nm k → s.Names (T i) nm k' →
    k = k'

theorem getD_bytes {off j : Nat} (hj : j < DIRENT) (hend : off + DIRENT ≤ (T i).size) :
    (((s.bytes (T i)).drop off).take DIRENT).getD j 0 = s.content (T i) (off + j) := by
  have hlen : j < (((s.bytes (T i)).drop off).take DIRENT).length := by
    rw [List.length_take, List.length_drop, length_bytes]
    omega
  rw [List.getD_eq_getElem _ _ hlen]
  simp [bytes]

theorem readDirent_eq (e : BlockPanic) (hd : Dir s T i) (hk : DIRENT * k < (T i).size) :
    s.readDirent e (T i) (DIRENT * k) = .ok (s.dirent (T i) k, T i, s) := by
  have hend : DIRENT * k + DIRENT ≤ (T i).size := by
    have := hd.whole
    unfold DIRENT at *
    omega
  have hmax : (T i).size ≤ 71680 := hd.size
  have hsmall : DIRENT = 16 := rfl
  have hoff : (BitVec.ofNat 32 (DIRENT * k)).toNat = DIRENT * k := by
    rw [BitVec.toNat_ofNat, Nat.mod_eq_of_lt (by omega)]
  have hn : (BitVec.ofNat 32 DIRENT).toNat = DIRENT := rfl
  unfold readDirent
  rw [readi_eq _ _ hd.toFile, hoff, hn, if_pos (by omega)]
  have hlen : (((s.bytes (T i)).drop (DIRENT * k)).take DIRENT).length = DIRENT := by
    rw [List.length_take, List.length_drop, length_bytes]
    omega
  refine (if_pos hlen).trans (congrArg (fun d => Except.ok (d, T i, s)) ?_)
  unfold RawDirent.ofBytes dirent
  rw [getD_bytes (by decide) hend, getD_bytes (by decide) hend]
  refine congrArg _ (funext fun j => ?_)
  by_cases hj : j < DIRSIZ
  · rw [if_pos hj, getD_bytes (by unfold DIRSIZ at hj; omega) hend]
  · rw [if_neg hj]
    refine List.getD_eq_default _ _ ?_
    unfold DIRSIZ at hj
    omega

/-- How many entries a directory has. -/
def entries (dp : Dinode) : Nat := dp.size / DIRENT

theorem Dir.entry_lt (hd : Dir s T i) : DIRENT * k < (T i).size ↔ k < entries (T i) := by
  have := hd.whole
  unfold entries DIRENT at *
  omega

theorem Dir.size_eq (hd : Dir s T i) : (T i).size = DIRENT * entries (T i) := by
  have := hd.whole
  unfold entries DIRENT at *
  omega

/-- A directory as a map from names to inode numbers and offsets. -/
def dirMap (s : Volume) (dp : Dinode) (nm : List (BitVec 8)) : Option (Nat × Nat) :=
  ((List.range (entries dp)).find? fun k => s.Names dp nm k).map fun k => ((s.dirent dp k).inum, DIRENT * k)

theorem lookupLoop_eq (name : CString) (fuel : Nat) (hd : Dir s T i) (hfuel : entries (T i) - k ≤ fuel) :
    lookupLoop name fuel s (T i) (DIRENT * k) = .ok
      (((List.range' k (entries (T i) - k)).find? fun k => s.Names (T i) (key name DIRSIZ) k).map
        fun k => ((s.dirent (T i) k).inum, DIRENT * k), T i, s) := by
  induction fuel generalizing k with
  | zero =>
    rw [Nat.le_zero.1 hfuel]
    rfl
  | succ fuel ih =>
    unfold lookupLoop
    by_cases hk : DIRENT * k < (T i).size
    · obtain ⟨m, hm⟩ : ∃ m, entries (T i) - k = m + 1 := ⟨entries (T i) - k - 1, by have := hd.entry_lt.1 hk; omega⟩
      have hrest : entries (T i) - (k + 1) = m := by omega
      have hnext := ih (k := k + 1) (by omega)
      rw [hrest, show DIRENT * (k + 1) = DIRENT * k + DIRENT from Nat.mul_succ ..] at hnext
      rw [if_pos hk, readDirent_eq _ hd hk, hm, List.range'_succ, List.find?_cons]
      dsimp only [bind, Except.bind]
      by_cases hin : (s.dirent (T i) k).inum = 0
      · rw [if_pos hin, decide_eq_false fun hn : s.Names (T i) (key name DIRSIZ) k => hn.1 hin]
        exact hnext
      · rw [if_neg hin]
        by_cases hcmp : namecmp name (s.dirent (T i) k).name = 0
        · have heq := (strncmp_eq_zero_iff ..).1 hcmp
          rw [if_pos hcmp, decide_eq_true (show s.Names (T i) (key name DIRSIZ) k from ⟨hin, heq.symm⟩)]
          rfl
        · have hne : ¬s.Names (T i) (key name DIRSIZ) k := fun hn => hcmp ((strncmp_eq_zero_iff ..).2 hn.2.symm)
          rw [if_neg hcmp, decide_eq_false hne]
          exact hnext
    · have h0 : entries (T i) - k = 0 := by
        have := mt hd.entry_lt.2 hk
        omega
      rw [if_neg hk, h0]
      rfl

theorem dirlookup_eq (hd : Dir s T i) (name : CString) :
    s.dirlookup (T i) name = .ok (s.dirMap (T i) (key name DIRSIZ), T i, s) := by
  have hloop := lookupLoop_eq (k := 0) name (T i).size hd (by unfold entries DIRENT; omega)
  unfold dirlookup dirMap
  rw [if_neg (not_not_intro hd.dir), List.range_eq_range']
  exact hloop

/-- The first empty entry, or the end. -/
def emptyEntry (s : Volume) (dp : Dinode) : Nat :=
  ((List.range (entries dp)).find? fun k => (s.dirent dp k).inum = 0).getD (entries dp)

theorem emptyLoop_eq (fuel : Nat) (hd : Dir s T i) (hk : k ≤ entries (T i)) (hfuel : entries (T i) - k ≤ fuel) :
    emptyLoop fuel s (T i) (DIRENT * k) = .ok
      (DIRENT * ((List.range' k (entries (T i) - k)).find? fun k => (s.dirent (T i) k).inum = 0).getD (entries (T i)),
        T i, s) := by
  induction fuel generalizing k with
  | zero =>
    obtain rfl : k = entries (T i) := by omega
    rw [Nat.le_zero.1 hfuel]
    rfl
  | succ fuel ih =>
    unfold emptyLoop
    by_cases hlt : DIRENT * k < (T i).size
    · obtain ⟨m, hm⟩ : ∃ m, entries (T i) - k = m + 1 := ⟨entries (T i) - k - 1, by have := hd.entry_lt.1 hlt; omega⟩
      have hrest : entries (T i) - (k + 1) = m := by omega
      have hnext := ih (k := k + 1) (by omega) (by omega)
      rw [hrest, show DIRENT * (k + 1) = DIRENT * k + DIRENT from Nat.mul_succ ..] at hnext
      rw [if_pos hlt, readDirent_eq _ hd hlt, hm, List.range'_succ, List.find?_cons]
      dsimp only [bind, Except.bind]
      by_cases hin : (s.dirent (T i) k).inum = 0
      · rw [if_pos hin, decide_eq_true hin]
        rfl
      · rw [if_neg hin, decide_eq_false hin]
        exact hnext
    · obtain rfl : k = entries (T i) := by
        have := mt hd.entry_lt.2 hlt
        omega
      rw [if_neg hlt, Nat.sub_self]
      rfl

theorem emptyLoop_zero (hd : Dir s T i) :
    emptyLoop (T i).size s (T i) 0 = .ok (DIRENT * s.emptyEntry (T i), T i, s) := by
  have hloop := emptyLoop_eq (k := 0) (T i).size hd (Nat.zero_le _) (by unfold entries DIRENT; omega)
  unfold emptyEntry
  rw [List.range_eq_range']
  exact hloop

theorem emptyEntry_spec (dp : Dinode) :
    s.emptyEntry dp < entries dp ∧ (s.dirent dp (s.emptyEntry dp)).inum = 0 ∨
    s.emptyEntry dp = entries dp ∧ ∀ k, k < entries dp → (s.dirent dp k).inum ≠ 0 := by
  unfold emptyEntry
  cases hfind : (List.range (entries dp)).find? fun k => (s.dirent dp k).inum = 0 with
  | none =>
    refine .inr ⟨rfl, fun k hk => ?_⟩
    simpa using List.find?_eq_none.1 hfind k (List.mem_range.2 hk)
  | some k => exact .inl ⟨List.mem_range.1 (List.mem_of_find?_eq_some hfind), by simpa using List.find?_some hfind⟩

/-- The map has what the entries in use say. -/
theorem Dir.dirMap_eq_some_iff (hd : Dir s T i) {q : List (BitVec 8)} {v : Nat × Nat} :
    s.dirMap (T i) q = some v ↔
      ∃ k, k < entries (T i) ∧ s.Names (T i) q k ∧ v = ((s.dirent (T i) k).inum, DIRENT * k) := by
  unfold dirMap
  rw [Option.map_eq_some_iff]
  constructor
  · rintro ⟨k, hfind, rfl⟩
    exact ⟨k, List.mem_range.1 (List.mem_of_find?_eq_some hfind), by simpa using List.find?_some hfind, rfl⟩
  · rintro ⟨k, hk, hn, rfl⟩
    cases hfind : (List.range (entries (T i))).find? fun k => s.Names (T i) q k with
    | none =>
      have := List.find?_eq_none.1 hfind k (List.mem_range.2 hk)
      exact absurd hn (by simpa using this)
    | some k' =>
      have hk' := List.mem_range.1 (List.mem_of_find?_eq_some hfind)
      have hn' : s.Names (T i) q k' := by simpa using List.find?_some hfind
      obtain rfl := hd.nodup q k' k (hd.entry_lt.2 hk') (hd.entry_lt.2 hk) hn' hn
      exact ⟨k', rfl, rfl⟩

theorem Dir.dirMap_eq_none_iff (hd : Dir s T i) {q : List (BitVec 8)} :
    s.dirMap (T i) q = none ↔ ∀ k, k < entries (T i) → ¬s.Names (T i) q k := by
  rw [Option.eq_none_iff_forall_ne_some]
  constructor
  · intro h k hk hn
    exact h _ (hd.dirMap_eq_some_iff.2 ⟨k, hk, hn, rfl⟩)
  · intro h v hv
    obtain ⟨k, hk, hn, -⟩ := hd.dirMap_eq_some_iff.1 hv
    exact h k hk hn

/-! ## What writing an entry does -/

/-- The entry that bytes make. -/
theorem Written.dirent_self {de : RawDirent} (h : Written s T i de.bytes (DIRENT * k) DIRENT ip' s') :
    s'.dirent ip' k = ⟨de.inum % 2 ^ 16, fun j => if j < DIRSIZ then de.name j else 0⟩ := by
  have h0 := h.inside 0 (by decide)
  have h1 := h.inside 1 (by decide)
  rw [Nat.add_zero] at h0
  unfold dirent
  rw [h0, h1]
  have hinum : (BitVec.ofNat 8 de.inum).toNat + 256 * (BitVec.ofNat 8 (de.inum / 256)).toNat = de.inum % 2 ^ 16 := by
    rw [BitVec.toNat_ofNat, BitVec.toNat_ofNat]
    omega
  refine congrArg₂ RawDirent.mk hinum (funext fun j => ?_)
  by_cases hj : j < DIRSIZ
  · rw [if_pos hj, if_pos hj, h.inside (2 + j) (by unfold DIRSIZ at hj; unfold DIRENT; omega), Nat.add_comm 2 j]
    rfl
  · rw [if_neg hj, if_neg hj]

/-- The other entries stay. -/
theorem Written.dirent_other {src : CString} {k' : Nat} (h : Written s T i src (DIRENT * k) DIRENT ip' s')
    (hwhole : DIRENT ∣ (T i).size) (hk' : k' < entries (T i)) (hne : k' ≠ k) :
    s'.dirent ip' k' = s.dirent (T i) k' := by
  have hsame : ∀ j, j < DIRENT → s'.content ip' (DIRENT * k' + j) = s.content (T i) (DIRENT * k' + j) := fun j hj => by
    refine h.outside _ ?_ ?_
    · unfold entries DIRENT at *
      omega
    · unfold DIRENT at *
      omega
  have h0 := hsame 0 (by decide)
  rw [Nat.add_zero] at h0
  unfold dirent
  rw [h0, hsame 1 (by decide)]
  refine congrArg _ (funext fun j => ?_)
  by_cases hj : j < DIRSIZ
  · rw [if_pos hj, if_pos hj, hsame _ (by unfold DIRSIZ at hj; unfold DIRENT; omega)]
  · rw [if_neg hj, if_neg hj]

section WriteEntry

variable {src : CString} (hd : Dir s T i) (h : Written s T i src (DIRENT * k) DIRENT ip' s') (hk : k ≤ entries (T i))
include hd h

theorem Written.entries_eq : entries ip' = max (entries (T i)) (k + 1) := by
  have hsize := h.size
  have := hd.whole
  unfold entries DIRENT at *
  omega

include hk

/-- Every other entry of the new directory was there before. -/
theorem Written.names_other {q : List (BitVec 8)} {k' : Nat} (hk' : k' < entries ip') (hne : k' ≠ k) :
    k' < entries (T i) ∧ (s'.Names ip' q k' ↔ s.Names (T i) q k') := by
  have hlt : k' < entries (T i) := by
    rw [h.entries_eq hd] at hk'
    omega
  refine ⟨hlt, ?_⟩
  unfold Names
  rw [h.dirent_other hd.whole hlt hne]

/-- The new directory, if the name in the entry is not a second time there. -/
theorem Written.dir (hnew : ∀ nm k', k' < entries (T i) → k' ≠ k → s'.Names ip' nm k → ¬s.Names (T i) nm k') :
    Dir s' (Function.update T i ip') i := by
  obtain ⟨addrs, hip⟩ := h.fields
  have hwhole : DIRENT ∣ ip'.size := by
    have := hd.whole
    rw [h.size]
    unfold DIRENT at *
    omega
  have hlt : ∀ {j}, DIRENT * j < ip'.size → j < entries ip' := fun hj => by
    unfold entries DIRENT at *
    omega
  refine { toFile := h.file, dir := ?_, whole := ?_, nodup := ?_ }
  · rw [Function.update_self, hip]
    exact hd.dir
  · rwa [Function.update_self]
  · rw [Function.update_self]
    intro nm k₁ k₂ h₁ h₂ hn₁ hn₂
    by_cases hk₁ : k₁ = k <;> by_cases hk₂ : k₂ = k
    · rw [hk₁, hk₂]
    · obtain ⟨hlt₂, hiff⟩ := h.names_other hd hk (q := nm) (hlt h₂) hk₂
      exact absurd (hiff.1 hn₂) (hnew nm k₂ hlt₂ hk₂ (hk₁ ▸ hn₁))
    · obtain ⟨hlt₁, hiff⟩ := h.names_other hd hk (q := nm) (hlt h₁) hk₁
      exact absurd (hiff.1 hn₁) (hnew nm k₁ hlt₁ hk₁ (hk₂ ▸ hn₂))
    · obtain ⟨hlt₁, hiff₁⟩ := h.names_other hd hk (q := nm) (hlt h₁) hk₁
      obtain ⟨hlt₂, hiff₂⟩ := h.names_other hd hk (q := nm) (hlt h₂) hk₂
      exact hd.nodup nm k₁ k₂ (hd.entry_lt.2 hlt₁) (hd.entry_lt.2 hlt₂) (hiff₁.1 hn₁) (hiff₂.1 hn₂)

/-- What the map says of a name that is not in the entry, before or after. -/
theorem Written.dirMap_other {nm : List (BitVec 8)} (hdir : Dir s' (Function.update T i ip') i)
    (hnew : ¬s'.Names ip' nm k) (hold : k < entries (T i) → ¬s.Names (T i) nm k) :
    s'.dirMap ip' nm = s.dirMap (T i) nm := by
  refine Option.ext fun v => ?_
  have hiff := hdir.dirMap_eq_some_iff (q := nm) (v := v)
  rw [Function.update_self] at hiff
  rw [hiff, hd.dirMap_eq_some_iff]
  constructor
  · rintro ⟨k', hk', hn, rfl⟩
    have hkk : k' ≠ k := by
      rintro rfl
      exact hnew hn
    obtain ⟨hlt, hiff'⟩ := h.names_other hd hk (q := nm) hk' hkk
    exact ⟨k', hlt, hiff'.1 hn, by rw [h.dirent_other hd.whole hlt hkk]⟩
  · rintro ⟨k', hk', hn, rfl⟩
    have hkk : k' ≠ k := by
      rintro rfl
      exact hold hk' hn
    have hlt : k' < entries ip' := by
      rw [h.entries_eq hd]
      omega
    exact ⟨k', hlt, (h.names_other hd hk hlt hkk).2.2 hn, by rw [h.dirent_other hd.whole hk' hkk]⟩

end WriteEntry

theorem key_congr {p q : CString} {n : Nat} (h : ∀ k, k < n → p k = q k) : key p n = key q n := by
  induction n generalizing p q with
  | zero => rfl
  | succ n ih =>
    unfold key
    rw [h 0 (Nat.succ_pos n), ih fun k hk => h (k + 1) (Nat.succ_lt_succ hk)]

/-- A name is added. -/
theorem Written.link {inum : Nat} (hd : Dir s T i) (hinum : 0 < inum ∧ inum < 2 ^ 16) (hk : k ≤ entries (T i))
    (hfree : k < entries (T i) → (s.dirent (T i) k).inum = 0) (habsent : s.dirMap (T i) (key name DIRSIZ) = none)
    (h : Written s T i (RawDirent.mk inum fun j => (strncpy name DIRSIZ).getD j 0).bytes (DIRENT * k) DIRENT ip' s') :
    Dir s' (Function.update T i ip') i ∧
    s'.dirMap ip' = Function.update (s.dirMap (T i)) (key name DIRSIZ) (some (inum, DIRENT * k)) := by
  have hself := h.dirent_self
  have hinum' : (s'.dirent ip' k).inum = inum := by
    rw [hself]
    exact Nat.mod_eq_of_lt hinum.2
  have hkey : key (s'.dirent ip' k).name DIRSIZ = key name DIRSIZ := by
    rw [hself]
    exact (key_congr fun j hj => if_pos hj).trans (key_strncpy name DIRSIZ)
  have hnames : ∀ nm, s'.Names ip' nm k ↔ nm = key name DIRSIZ := fun nm => by
    unfold Names
    rw [hinum', hkey]
    exact ⟨fun hn => hn.2.symm, fun hn => ⟨hinum.1.ne', hn.symm⟩⟩
  have hlt : k < entries ip' := by
    rw [h.entries_eq hd]
    omega
  have hdir : Dir s' (Function.update T i ip') i := h.dir hd hk fun nm k' hk' _ hn => by
    rw [(hnames nm).1 hn]
    exact hd.dirMap_eq_none_iff.1 habsent k' hk'
  refine ⟨hdir, funext fun nm => ?_⟩
  by_cases hnm : nm = key name DIRSIZ
  · have hiff := hdir.dirMap_eq_some_iff (q := nm) (v := (inum, DIRENT * k))
    rw [Function.update_self] at hiff
    rw [hnm, Function.update_self, ← hnm]
    exact hiff.2 ⟨k, hlt, (hnames _).2 hnm, by rw [hinum']⟩
  · rw [Function.update_of_ne hnm]
    exact h.dirMap_other hd hk hdir (fun hn => hnm ((hnames nm).1 hn)) fun hlt' hn => hn.1 (hfree hlt')

/-- A name is removed. -/
theorem Written.clear (hd : Dir s T i) {nm : List (BitVec 8)} (hk : k < entries (T i)) (hn : s.Names (T i) nm k)
    (h : Written s T i (fun _ => 0) (DIRENT * k) DIRENT ip' s') :
    Dir s' (Function.update T i ip') i ∧ s'.dirMap ip' = Function.update (s.dirMap (T i)) nm none := by
  have hzero : (fun _ => 0 : CString) = (RawDirent.mk 0 fun _ => 0).bytes := by
    funext j
    unfold RawDirent.bytes
    split <;> rfl
  have hself : (s'.dirent ip' k).inum = 0 := by
    rw [hzero] at h
    rw [h.dirent_self]
    rfl
  have hnone : ∀ nm', ¬s'.Names ip' nm' k := fun nm' hn' => hn'.1 hself
  have hdir : Dir s' (Function.update T i ip') i := h.dir hd hk.le fun nm' _ _ _ hn' => absurd hn' (hnone nm')
  refine ⟨hdir, funext fun nm' => ?_⟩
  by_cases hnm : nm' = nm
  · have hiff := hdir.dirMap_eq_none_iff (q := nm')
    rw [Function.update_self] at hiff
    rw [hnm, Function.update_self, ← hnm]
    refine hiff.2 fun k' hk' hn' => ?_
    by_cases hkk : k' = k
    · exact hnone nm' (hkk ▸ hn')
    · obtain ⟨hlt', hiff'⟩ := h.names_other hd hk.le (q := nm') hk' hkk
      exact hkk (hd.nodup nm k' k (hd.entry_lt.2 hlt') (hd.entry_lt.2 hk) (hnm ▸ hiff'.1 hn') hn)
  · rw [Function.update_of_ne hnm]
    exact h.dirMap_other hd hk.le hdir (hnone nm') fun _ hn' => hnm (hn'.2.symm.trans hn.2)

/-! ## Sequences of operations -/

inductive DirOp where
  | lookup (name : CString)
  | link (name : CString) (inum : Nat)
  | unlink (name : CString) (busy : Bool)

inductive DirRet where
  | found (entry : Option (Nat × Nat))
  | done
  | failed                      -- -1
  deriving DecidableEq

def DirOp.run (i : Nat) : DirOp → Dinode → Volume → Except BlockPanic (DirRet × Dinode × Volume)
  | .lookup name, dp, s => do
    let (entry, dp, s) ← s.dirlookup dp name
    .ok (.found entry, dp, s)
  | .link name inum, dp, s => do
    let (ok, dp, s) ← s.dirlink i dp name inum
    .ok (if ok then .done else .failed, dp, s)
  | .unlink name busy, dp, s => do
    let (ok, dp, s) ← s.unlinkEntry i dp name busy
    .ok (if ok then .done else .failed, dp, s)

def runDirOps (i : Nat) : List DirOp → Dinode → Volume → Except BlockPanic (List DirRet × Dinode × Volume)
  | [], dp, s => .ok ([], dp, s)
  | op :: ops, dp, s => do
    let (r, dp, s) ← op.run i dp s
    let (rs, dp, s) ← runDirOps i ops dp s
    .ok (r :: rs, dp, s)

/-- A directory as it is meant: names, with inode numbers and the offsets of their entries. -/
abbrev NameMap := List (BitVec 8) → Option (Nat × Nat)

/-- What an operation does to the map; a new name gets an offset that no other name has. -/
inductive OnMap : NameMap → DirOp → DirRet → NameMap → Prop
  | lookup (M : NameMap) (name : CString) : OnMap M (.lookup name) (.found (M (key name DIRSIZ))) M
  | present {M : NameMap} {name : CString} {inum : Nat} (h : M (key name DIRSIZ) ≠ none) :
    OnMap M (.link name inum) .failed M
  | link {M : NameMap} {name : CString} {inum off : Nat} (h : M (key name DIRSIZ) = none)
    (hoff : ∀ nm v, M nm = some v → v.2 ≠ off) :
    OnMap M (.link name inum) .done (Function.update M (key name DIRSIZ) (some (inum, off)))
  | refused {M : NameMap} {name : CString} {busy : Bool}
    (h : key name DIRSIZ = key dot DIRSIZ ∨ key name DIRSIZ = key dotdot DIRSIZ ∨ M (key name DIRSIZ) = none ∨
      busy = true) : OnMap M (.unlink name busy) .failed M
  | unlink {M : NameMap} {name : CString} (hdot : key name DIRSIZ ≠ key dot DIRSIZ)
    (hdotdot : key name DIRSIZ ≠ key dotdot DIRSIZ) (h : M (key name DIRSIZ) ≠ none) :
    OnMap M (.unlink name false) .done (Function.update M (key name DIRSIZ) none)

inductive OnMaps : NameMap → List DirOp → List DirRet → NameMap → Prop
  | nil (M : NameMap) : OnMaps M [] [] M
  | cons {M M₁ M' : NameMap} {op : DirOp} {ops : List DirOp} {r : DirRet} {rs : List DirRet}
    (h : OnMap M op r M₁) (hs : OnMaps M₁ ops rs M') : OnMaps M (op :: ops) (r :: rs) M'

/-- Every offset that an entry can have is taken. -/
def Full (M : NameMap) : Prop := ∀ k, DIRENT * k < MAXFILE * BSIZE → ∃ nm inum, M nm = some (inum, DIRENT * k)

/-- Only a new entry can need a block. -/
def DirOp.blocks : DirOp → Nat
  | .link .. => 1
  | _ => 0

/-- Inode numbers fit the field of an entry, and 0 is none. -/
def DirOp.Valid : DirOp → Prop
  | .link _ inum => 0 < inum ∧ inum < 2 ^ 16
  | _ => True

/-- An operation has done to the directory what it does to the map. -/
structure Did (s : Volume) (T : Nat → Dinode) (i : Nat) (op : DirOp) (r : DirRet) (dp' : Dinode) (s' : Volume) : Prop where
  map : OnMap (s.dirMap (T i)) op r (s'.dirMap dp')
  dir : Dir s' (Function.update T i dp') i
  room : s.free.card + dp'.lack ≤ s'.free.card + (T i).lack + op.blocks

theorem Did.refl {op : DirOp} {r : DirRet} (hd : Dir s T i) (h : OnMap (s.dirMap (T i)) op r (s.dirMap (T i))) :
    Did s T i op r (T i) s :=
  ⟨h, by rwa [Function.update_eq_self], Nat.le_add_right ..⟩

/-- An entry is within one block. -/
theorem touched_entry (k : Nat) : touched (DIRENT * k) DIRENT = {DIRENT * k / BSIZE} :=
  touched_round (by decide) (by unfold DIRENT BSIZE; omega)

theorem toNat_entry (hmax : DIRENT * k ≤ MAXFILE * BSIZE) : (BitVec.ofNat 32 (DIRENT * k)).toNat = DIRENT * k := by
  have : MAXFILE * BSIZE = 71680 := rfl
  rw [BitVec.toNat_ofNat, Nat.mod_eq_of_lt (by omega)]

/-- `writei` of an entry, or of one behind the last. -/
theorem writei_entry_ends (hd : Dir s T i) (src : CString) (hk : k ≤ entries (T i))
    (hmax : DIRENT * k + DIRENT ≤ MAXFILE * BSIZE) :
    Ends (fun e => e = .balloc ∧ entries (T i) ≤ k ∧ s.free.card < (T i).lack + 1)
      (s.writei i (T i) src (BitVec.ofNat 32 (DIRENT * k)) (BitVec.ofNat 32 DIRENT)) fun r =>
      r.1 = true ∧ Written s T i src (DIRENT * k) DIRENT r.2.1 r.2.2 ∧
      s.free.card + r.2.1.lack ≤ r.2.2.free.card + (T i).lack + if k < entries (T i) then 0 else 1 := by
  have hoff : (BitVec.ofNat 32 (DIRENT * k)).toNat = DIRENT * k := toNat_entry (by omega)
  have hn : (BitVec.ofNat 32 DIRENT).toNat = DIRENT := rfl
  have hsize := hd.size_eq
  have hle : DIRENT * k ≤ (T i).size := hsize ▸ Nat.mul_le_mul_left _ hk
  have hbig : MAXFILE * BSIZE < 2 ^ 32 := by decide
  have hends := (writei_ends src (BitVec.ofNat 32 (DIRENT * k)) (BitVec.ofNat 32 DIRENT) hd.toFile).1
  rw [hoff, hn, touched_entry, Finset.sum_singleton] at hends
  have hmiss : s.missing (T i) (DIRENT * k / BSIZE) ≤ if k < entries (T i) then 0 else 1 := by
    by_cases hlt : k < entries (T i)
    · have hin : DIRENT * k < (T i).size := hd.entry_lt.2 hlt
      rw [if_pos hlt, missing, if_neg (hd.backed _ ((Nat.div_mul_le_self ..).trans_lt hin))]
    · rw [if_neg hlt]
      exact missing_le ..
  refine Ends.mono (Ends.weaken (hends ⟨hle, by omega, hmax⟩) ?_) ?_
  · rintro e ⟨rfl, hpos, hfew⟩
    refine ⟨rfl, ?_, ?_⟩
    · by_contra hlt
      rw [if_pos (Nat.not_le.1 hlt)] at hmiss
      omega
    · have := missing_le (s := s) (T i) (DIRENT * k / BSIZE)
      omega
  · rintro ⟨ok, dp', s'⟩ ⟨rfl, hw⟩
    have hroom := hw.room
    rw [touched_entry, Finset.sum_singleton] at hroom
    exact ⟨rfl, hw, hroom.trans (Nat.add_le_add_left hmiss _)⟩

theorem dirlink_ends (hd : Dir s T i) (name : CString) {inum : Nat} (hinum : 0 < inum ∧ inum < 2 ^ 16) :
    Ends (fun e => e = .balloc ∧ s.free.card < (T i).lack + 1 ∨ e = .dirlink ∧ Full (s.dirMap (T i)))
      (s.dirlink i (T i) name inum) fun r =>
      Did s T i (.link name inum) (if r.1 then .done else .failed) r.2.1 r.2.2 := by
  unfold dirlink
  rw [dirlookup_eq hd name]
  dsimp only [bind, Except.bind]
  cases hmap : s.dirMap (T i) (key name DIRSIZ) with
  | some v => exact Did.refl hd (.present (by rw [hmap]; exact nofun))
  | none =>
    dsimp only
    rw [emptyLoop_zero hd]
    dsimp only
    have hspec := emptyEntry_spec (s := s) (T i)
    generalize s.emptyEntry (T i) = k at hspec
    have hk : k ≤ entries (T i) := by omega
    have hfree : k < entries (T i) → (s.dirent (T i) k).inum = 0 := fun hlt => by
      rcases hspec with ⟨-, h0⟩ | ⟨heq, -⟩
      · exact h0
      · omega
    -- no other name is at that offset
    have hfresh : ∀ nm v, s.dirMap (T i) nm = some v → v.2 ≠ DIRENT * k := by
      intro nm v hv heq
      obtain ⟨k', hk', hn, rfl⟩ := hd.dirMap_eq_some_iff.1 hv
      obtain rfl : k' = k := Nat.eq_of_mul_eq_mul_left (by decide) heq
      exact hn.1 (hfree hk')
    have hsize := hd.size_eq
    have hmax := hd.size
    by_cases hroom : DIRENT * k + DIRENT ≤ MAXFILE * BSIZE
    · have hends := writei_entry_ends hd (RawDirent.mk inum fun j => (strncpy name DIRSIZ).getD j 0).bytes hk hroom
      cases hr : s.writei i (T i) (RawDirent.mk inum fun j => (strncpy name DIRSIZ).getD j 0).bytes
          (BitVec.ofNat 32 (DIRENT * k)) (BitVec.ofNat 32 DIRENT) with
      | error e =>
        rw [hr] at hends
        exact .inl ⟨hends.1, hends.2.2⟩
      | ok r =>
        rw [hr] at hends
        obtain ⟨ok, dp', s'⟩ := r
        obtain ⟨rfl, hw, hfew⟩ := hends
        obtain ⟨hdir, hmap'⟩ := hw.link hd hinum hk hfree hmap
        refine ⟨?_, hdir, hfew.trans (Nat.add_le_add_left ?_ _)⟩
        · rw [hmap']
          exact .link hmap hfresh
        · change (if k < entries (T i) then 0 else 1) ≤ 1
          split <;> omega
    · -- the directory has as many entries as it can have
      obtain ⟨rfl, hlive⟩ : k = entries (T i) ∧ ∀ k, k < entries (T i) → (s.dirent (T i) k).inum ≠ 0 := by
        rcases hspec with ⟨hlt, -⟩ | hfull
        · have hin := hd.entry_lt.2 hlt
          have := hd.whole
          unfold DIRENT at *
          omega
        · exact hfull
      have hrefused : s.writei i (T i) (RawDirent.mk inum fun j => (strncpy name DIRSIZ).getD j 0).bytes
          (BitVec.ofNat 32 (DIRENT * entries (T i))) (BitVec.ofNat 32 DIRENT) = .ok (false, T i, s) := by
        refine (writei_ends _ _ _ hd.toFile).2 fun hok => hroom ?_
        have := hok.2.2
        rwa [toNat_entry (hsize ▸ hmax)] at this
      rw [hrefused]
      refine .inr ⟨rfl, fun k' hk' => ?_⟩
      have hlt : k' < entries (T i) := by
        unfold MAXFILE BSIZE DIRENT at *
        omega
      exact ⟨_, _, hd.dirMap_eq_some_iff.2 ⟨k', hlt, ⟨hlive k' hlt, rfl⟩, rfl⟩⟩

theorem unlinkEntry_ends (hd : Dir s T i) (name : CString) (busy : Bool) :
    Ends (fun _ => False) (s.unlinkEntry i (T i) name busy) fun r =>
      Did s T i (.unlink name busy) (if r.1 then .done else .failed) r.2.1 r.2.2 := by
  unfold unlinkEntry
  by_cases hdots : namecmp name dot = 0 ∨ namecmp name dotdot = 0
  · rw [if_pos hdots]
    unfold namecmp at hdots
    rw [strncmp_eq_zero_iff, strncmp_eq_zero_iff] at hdots
    exact Did.refl hd (.refused (hdots.imp_right .inl))
  · rw [if_neg hdots]
    unfold namecmp at hdots
    rw [strncmp_eq_zero_iff, strncmp_eq_zero_iff, not_or] at hdots
    rw [dirlookup_eq hd name]
    dsimp only [bind, Except.bind]
    cases hmap : s.dirMap (T i) (key name DIRSIZ) with
    | none => exact Did.refl hd (.refused (.inr (.inr (.inl hmap))))
    | some v =>
      obtain ⟨k, hk, hn, rfl⟩ := hd.dirMap_eq_some_iff.1 hmap
      dsimp only
      cases busy with
      | true => exact Did.refl hd (.refused (.inr (.inr (.inr rfl))))
      | false =>
        have hmax : DIRENT * k + DIRENT ≤ MAXFILE * BSIZE := by
          have hin := hd.entry_lt.2 hk
          have := hd.whole
          have := hd.size
          unfold DIRENT at *
          omega
        have hends := writei_entry_ends hd (fun _ => 0) hk.le hmax
        rw [if_neg Bool.false_ne_true]
        cases hr : s.writei i (T i) (fun _ => 0) (BitVec.ofNat 32 (DIRENT * k)) (BitVec.ofNat 32 DIRENT) with
        | error e =>
          rw [hr] at hends
          exact absurd hends.2.1 (Nat.not_le.2 hk)
        | ok r =>
          rw [hr] at hends
          obtain ⟨ok, dp', s'⟩ := r
          obtain ⟨rfl, hw, hfew⟩ := hends
          obtain ⟨hdir, hmap'⟩ := hw.clear hd hk hn
          refine ⟨?_, hdir, hfew.trans (Nat.add_le_add_left ?_ _)⟩
          · rw [hmap']
            exact .unlink hdots.1 hdots.2 (by rw [hmap]; exact nofun)
          · rw [if_pos hk]
            exact Nat.zero_le _

/-- How an operation can fail: no block for a new entry, or no place. -/
theorem DirOp.run_ends (op : DirOp) (hop : op.Valid) (hd : Dir s T i) :
    Ends (fun e => e = .balloc ∧ s.free.card < (T i).lack + op.blocks ∨
        e = .dirlink ∧ (∃ name inum, op = .link name inum) ∧ Full (s.dirMap (T i)))
      (op.run i (T i) s) fun r => Did s T i op r.1 r.2.1 r.2.2 := by
  cases op with
  | lookup name =>
    simp only [DirOp.run]
    rw [dirlookup_eq hd name]
    exact Did.refl hd (.lookup ..)
  | link name inum =>
    have hends := (dirlink_ends hd name hop).weaken (E := fun e => e = .balloc ∧ s.free.card < (T i).lack + 1 ∨
        e = .dirlink ∧ (∃ name' inum', DirOp.link name inum = .link name' inum') ∧ Full (s.dirMap (T i)))
      fun e he => he.imp_right fun h => ⟨h.1, ⟨name, inum, rfl⟩, h.2⟩
    exact hends.bind fun r hr => hr
  | unlink name busy => exact ((unlinkEntry_ends hd name busy).weaken fun e he => he.elim).bind fun r hr => hr

/-- What an error in a sequence of operations says: too few blocks, or a name that finds the map full. -/
def Stuck (s : Volume) (dp : Dinode) (ops : List DirOp) (e : BlockPanic) : Prop :=
  e = .balloc ∧ s.free.card < dp.lack + (ops.map DirOp.blocks).sum ∨
  e = .dirlink ∧ ∃ pre rs M name inum, pre ++ [.link name inum] <+: ops ∧ OnMaps (s.dirMap dp) pre rs M ∧ Full M

theorem runDirOps_ends (ops : List DirOp) (hops : ∀ op ∈ ops, op.Valid) (hd : Dir s T i) :
    Ends (s.Stuck (T i) ops) (runDirOps i ops (T i) s) fun r =>
      OnMaps (s.dirMap (T i)) ops r.1 (r.2.2.dirMap r.2.1) ∧ Dir r.2.2 (Function.update T i r.2.1) i := by
  induction ops generalizing s T with
  | nil => exact ⟨.nil _, by rwa [Function.update_eq_self]⟩
  | cons op ops ih =>
    have hfirst := (op.run_ends (hops op List.mem_cons_self) hd).weaken (E := s.Stuck (T i) (op :: ops)) fun e he => by
      rcases he with ⟨rfl, hfew⟩ | ⟨rfl, ⟨name, inum, rfl⟩, hfull⟩
      · refine .inl ⟨rfl, ?_⟩
        rw [List.map_cons, List.sum_cons]
        omega
      · exact .inr ⟨rfl, [], [], _, name, inum, List.prefix_append _ ops, .nil _, hfull⟩
    refine hfirst.bind fun r₁ h₁ => ?_
    obtain ⟨r, dp₁, s₁⟩ := r₁
    dsimp only at h₁ ⊢
    have hrest := ih (fun o ho => hops o (List.mem_cons_of_mem _ ho)) h₁.dir
    rw [Function.update_self] at hrest
    have hrest' := hrest.weaken (E := s.Stuck (T i) (op :: ops)) fun e he => by
      rcases he with ⟨rfl, hfew⟩ | ⟨rfl, pre, rs, M, name, inum, hpre, hmaps, hfull⟩
      · refine .inl ⟨rfl, ?_⟩
        have := h₁.room
        rw [List.map_cons, List.sum_cons]
        omega
      · refine .inr ⟨rfl, op :: pre, r :: rs, M, name, inum, ?_, .cons h₁.map hmaps, hfull⟩
        rw [List.cons_append]
        exact List.cons_prefix_cons.2 ⟨rfl, hpre⟩
    refine hrest'.bind fun r₂ h₂ => ?_
    obtain ⟨rs, dp₂, s₂⟩ := r₂
    refine ⟨.cons h₁.map h₂.1, ?_⟩
    have := h₂.2
    rwa [Function.update_idem] at this

/-- A directory is a map from names to inode numbers: it has exactly the entries in use, and every sequence of
lookups, new names and removed names does to it what it does to the map. Only `balloc` can fail, or `dirlink` when all
entries that fit are in use. A lookup changes nothing, and neither does a name that is there already. -/
theorem directory_is_map (ops : List DirOp) (hops : ∀ op ∈ ops, op.Valid) (hd : Dir s T i) :
    (∀ nm v, s.dirMap (T i) nm = some v ↔
      ∃ k, DIRENT * k < (T i).size ∧ s.Names (T i) nm k ∧ v = ((s.dirent (T i) k).inum, DIRENT * k)) ∧
    Ends (s.Stuck (T i) ops) (runDirOps i ops (T i) s) (fun r =>
      OnMaps (s.dirMap (T i)) ops r.1 (r.2.2.dirMap r.2.1) ∧ Dir r.2.2 (Function.update T i r.2.1) i) ∧
    (∀ name, s.dirlookup (T i) name = .ok (s.dirMap (T i) (key name DIRSIZ), T i, s)) ∧
    (∀ name inum, s.dirMap (T i) (key name DIRSIZ) ≠ none → s.dirlink i (T i) name inum = .ok (false, T i, s)) := by
  refine ⟨fun nm v => ?_, runDirOps_ends ops hops hd, dirlookup_eq hd, fun name inum hne => ?_⟩
  · rw [hd.dirMap_eq_some_iff]
    simp only [hd.entry_lt]
  · unfold dirlink
    rw [dirlookup_eq hd name]
    obtain ⟨v, hv⟩ := Option.ne_none_iff_exists'.1 hne
    rw [hv]
    rfl

/-- A name of more than 14 bytes, and another that differs from it only behind them. -/
def long : CString := fun k => BitVec.ofNat 8 (97 + k)

def longer : CString := fun k => if k < 14 then BitVec.ofNat 8 (97 + k) else 120

theorem fourteen_bytes : ∃ dp s', runDirOps 1 [.link long 5, .link longer 6, .lookup longer, .unlink long false, .lookup long]
      ((blank .dir).dinode 1) (blank .dir) =
        .ok ([.done, .failed, .found (some (5, 0)), .done, .found none], dp, s') ∧
    Dir s' (Function.update (blank .dir).dinode 1 dp) 1 := by
  have hdir : Dir (blank .dir) (blank .dir).dinode 1 :=
    { toFile := blank_file (by decide) (by decide)
      dir := rfl
      whole := Nat.dvd_zero _
      nodup := fun nm k k' hk => absurd hk (Nat.not_lt_zero _) }
  have hends := (directory_is_map [.link long 5, .link longer 6, .lookup longer, .unlink long false, .lookup long]
    (by simp [DirOp.Valid]) hdir).2.1
  have hrun : ((runDirOps 1 [.link long 5, .link longer 6, .lookup longer, .unlink long false, .lookup long]
      ((blank .dir).dinode 1) (blank .dir)).toOption.map Prod.fst) =
        some [.done, .failed, .found (some (5, 0)), .done, .found none] := by decide
  cases hr : runDirOps 1 [.link long 5, .link longer 6, .lookup longer, .unlink long false, .lookup long]
      ((blank .dir).dinode 1) (blank .dir) with
  | error e =>
    rw [hr] at hrun
    cases hrun
  | ok r =>
    rw [hr] at hrun hends
    obtain ⟨rs, dp, s'⟩ := r
    obtain rfl : rs = _ := Option.some.inj hrun
    exact ⟨dp, s', rfl, hends.2⟩

end Volume

end Xv6
