import Mathlib.Data.BitVec
import Mathlib.Tactic.Ring
import Xv6.Lib.Copying
/-!
# Byte memories

A memory maps addresses of `w` bits to bytes, and every store in it is a
`write` of a block. Blocks are given by an address and a length, and addresses
wrap around. The rules are about where an address lies: at offset `k` of the
block that was written (`write_at`), or outside it (`write_outside`).
-/

namespace Xv6.Bytes
open Copying

variable {w n k : Nat}

abbrev Mem (w : Nat) := BitVec w → BitVec 8

/-- The `n` bytes from `a` on become `f 0`, `f 1` and so on. -/
def write (m : Mem w) (a : BitVec w) (n : Nat) (f : Nat → BitVec 8) : Mem w :=
  fun x => if (x - a).toNat < n then f (x - a).toNat else m x

/-- The block of `n` bytes at `a` does not reach address `x`. -/
def Outside (a : BitVec w) (n : Nat) (x : BitVec w) : Prop := n ≤ (x - a).toNat

theorem write_outside {m : Mem w} {a x : BitVec w} {f : Nat → BitVec 8} (h : Outside a n x) :
    write m a n f x = m x :=
  if_neg (Nat.not_lt.2 h)

theorem toNat_add_sub (a : BitVec w) (hk : k < 2 ^ w) : (a + BitVec.ofNat w k - a).toNat = k := by
  rw [BitVec.add_comm, BitVec.add_sub_cancel, BitVec.toNat_ofNat, Nat.mod_eq_of_lt hk]

theorem write_at {m : Mem w} {a : BitVec w} {f : Nat → BitVec 8} (hk : k < n) (hw : k < 2 ^ w) :
    write m a n f (a + BitVec.ofNat w k) = f k := by
  rw [write, toNat_add_sub a hw, if_pos hk]

/-- A block that does not wrap around, and an address below or above it. -/
theorem outside_of_toNat {a x : BitVec w} (ha : a.toNat + n ≤ 2 ^ w)
    (hx : x.toNat < a.toNat ∨ a.toNat + n ≤ x.toNat) : Outside a n x := by
  unfold Outside
  rcases hx with hx | hx
  · rw [BitVec.toNat_sub_of_lt (BitVec.lt_def.2 hx)]
    omega
  · rw [BitVec.toNat_sub_of_le (BitVec.le_def.2 (by omega))]
    omega

theorem toNat_add_ofNat {a : BitVec w} (h : a.toNat + k < 2 ^ w) : (a + BitVec.ofNat w k).toNat = a.toNat + k := by
  rw [BitVec.toNat_add, BitVec.toNat_ofNat, Nat.add_mod_mod, Nat.mod_eq_of_lt h]

/-! ## Words -/

/-- The little-endian word at `a`. -/
def load (m : Mem w) (a : BitVec w) : BitVec 32 :=
  m (a + BitVec.ofNat w 3) ++ m (a + BitVec.ofNat w 2) ++ m (a + BitVec.ofNat w 1) ++ m (a + BitVec.ofNat w 0)

/-- Byte `k` of a word. -/
def byteOf (v : BitVec 32) (k : Nat) : BitVec 8 := v.extractLsb' (8 * k) 8

def store (m : Mem w) (a : BitVec w) (v : BitVec 32) : Mem w := write m a 4 (byteOf v)

theorem load_congr {m m' : Mem w} {a a' : BitVec w}
    (h : ∀ k, k < 4 → m (a + BitVec.ofNat w k) = m' (a' + BitVec.ofNat w k)) : load m a = load m' a' := by
  rw [load, load, h 0 (by omega), h 1 (by omega), h 2 (by omega), h 3 (by omega)]

theorem byteOf_append (v : BitVec 32) : byteOf v 3 ++ byteOf v 2 ++ byteOf v 1 ++ byteOf v 0 = v := by
  refine BitVec.eq_of_getLsbD_eq fun i hi => ?_
  simp only [byteOf, BitVec.getLsbD_append, BitVec.getLsbD_extractLsb']
  grind

theorem load_of_bytes {m : Mem w} {a : BitVec w} {v : BitVec 32}
    (h : ∀ k, k < 4 → m (a + BitVec.ofNat w k) = byteOf v k) : load m a = v := by
  rw [load, h 0 (by omega), h 1 (by omega), h 2 (by omega), h 3 (by omega)]
  exact byteOf_append v

theorem load_store {m : Mem w} {a : BitVec w} {v : BitVec 32} (hw : 4 ≤ 2 ^ w) : load (store m a v) a = v :=
  load_of_bytes fun k hk => write_at hk (by omega)

/-- A word none of whose bytes is written. -/
theorem load_write_outside {m : Mem w} {a b : BitVec w} {f : Nat → BitVec 8}
    (h : ∀ k, k < 4 → Outside a n (b + BitVec.ofNat w k)) : load (write m a n f) b = load m b :=
  load_congr fun k hk => write_outside (h k hk)

/-! ## Copies -/

/-- `n` bytes are copied from `s` to `d`, all of them read first. -/
def copy (m : Mem w) (d s : BitVec w) (n : Nat) : Mem w := write m d n fun k => m (s + BitVec.ofNat w k)

/-- Copying a byte at a time, upwards: `while(n-- > 0) *d++ = *s++`. -/
def copyUp (m : Mem w) (d s : BitVec w) : Nat → Mem w
  | 0 => m
  | n + 1 => copyUp (Function.update m d (m s)) (d + 1) (s + 1) n

/-- Copying a byte at a time, downwards: `while(n-- > 0) *--d = *--s`. -/
def copyDown (m : Mem w) (d s : BitVec w) : Nat → Mem w
  | 0 => m
  | n + 1 => copyDown (Function.update m (d - 1) (m (s - 1))) (d - 1) (s - 1) n

variable {m : Mem w} {d s : BitVec w}

theorem copy_offset (hk : k < 2 ^ w) :
    copy m d s n (d + BitVec.ofNat w k) = m ((if k < n then s else d) + BitVec.ofNat w k) := by
  rw [copy, write, toNat_add_sub d hk]
  split <;> rfl

theorem load_copy {j : Nat} (hj : j + 4 ≤ n) (hn : n ≤ 2 ^ w) :
    load (copy m d s n) (d + BitVec.ofNat w j) = load m (s + BitVec.ofNat w j) :=
  load_congr fun k hk => by
    rw [BitVec.add_assoc, ← BitVec.ofNat_add, copy_offset (by omega), if_pos (by omega), BitVec.ofNat_add,
      BitVec.add_assoc]

theorem offset_inj {j : Nat} (hk : k < 2 ^ w) (hj : j < 2 ^ w)
    (h : d + BitVec.ofNat w k = d + BitVec.ofNat w j) : k = j := by
  rw [← toNat_add_sub d hk, h, toNat_add_sub d hj]

theorem succ_offset (a : BitVec w) (k : Nat) : a + 1 + BitVec.ofNat w k = a + BitVec.ofNat w (k + 1) := by
  rw [BitVec.ofNat_add, BitVec.add_assoc, BitVec.add_comm 1]
  rfl

theorem copyUp_eq_copyAll :
    copyUp m d s n = copyAll (s + BitVec.ofNat w ·) (d + BitVec.ofNat w ·) m (List.range n) := by
  induction n generalizing m d s with
  | zero => rfl
  | succ n ih =>
    have hnext (a : BitVec w) : (a + BitVec.ofNat w ·) ∘ Nat.succ = (a + 1 + BitVec.ofNat w ·) :=
      funext fun k => (succ_offset a k).symm
    rw [copyUp, ih, List.range_succ_eq_map, copyAll_cons, copyAll_map, hnext, hnext, BitVec.add_zero, BitVec.add_zero]

theorem copyDown_eq_copyAll :
    copyDown m (d + BitVec.ofNat w n) (s + BitVec.ofNat w n) n =
      copyAll (s + BitVec.ofNat w ·) (d + BitVec.ofNat w ·) m (List.range n).reverse := by
  induction n generalizing m with
  | zero => rfl
  | succ n ih =>
    have hpred (a : BitVec w) : a + BitVec.ofNat w (n + 1) - 1 = a + BitVec.ofNat w n := by
      rw [← succ_offset]
      ring
    rw [copyDown, hpred, hpred, ih, List.range_succ, List.reverse_append, List.reverse_singleton,
      List.singleton_append, copyAll_cons]

theorem copyAll_outside {l : List Nat} (hl : ∀ k ∈ l, k < n) {x : BitVec w} (hx : Outside d n x) :
    copyAll (s + BitVec.ofNat w ·) (d + BitVec.ofNat w ·) m l x = m x := by
  refine copyAll_of_not_mem fun k hk heq => ?_
  have := hl k hk
  have := Nat.mod_le k (2 ^ w)
  rw [Outside, ← heq, BitVec.add_comm, BitVec.add_sub_cancel, BitVec.toNat_ofNat] at hx
  omega

/-- Copying in any order is right when no byte is written before it is read. -/
theorem copyAll_eq_copy {l : List Nat} (hn : n ≤ 2 ^ w) (hl : ∀ k, k ∈ l ↔ k < n) (hnd : l.Nodup)
    (h : l.Pairwise fun j k => d + BitVec.ofNat w j ≠ s + BitVec.ofNat w k) :
    copyAll (s + BitVec.ofNat w ·) (d + BitVec.ofNat w ·) m l = copy m d s n := by
  funext x
  by_cases hx : Outside d n x
  · rw [copyAll_outside (fun k => (hl k).1) hx, copy, write_outside hx]
  · obtain ⟨k, hk, rfl⟩ : ∃ k < n, x = d + BitVec.ofNat w k := by
      refine ⟨(x - d).toNat, Nat.not_le.1 hx, ?_⟩
      rw [BitVec.ofNat_toNat, BitVec.setWidth_eq, BitVec.add_comm, BitVec.sub_add_cancel]
    have hinj : l.Pairwise fun j k => d + BitVec.ofNat w k ≠ d + BitVec.ofNat w j := by
      refine hnd.imp_of_mem fun {i j} hi hj hij heq => hij ?_
      have hi' := (hl i).1 hi
      have hj' := (hl j).1 hj
      exact (offset_inj (by omega) (by omega) heq).symm
    rw [copyAll_moved hinj h ((hl k).2 hk), copy_offset (by omega), if_pos hk]

theorem copyUp_eq_copy (hn : n ≤ 2 ^ w)
    (h : ∀ j k, j < k → k < n → d + BitVec.ofNat w j ≠ s + BitVec.ofNat w k) : copyUp m d s n = copy m d s n := by
  rw [copyUp_eq_copyAll]
  refine copyAll_eq_copy hn (fun k => List.mem_range) List.nodup_range ?_
  exact List.pairwise_lt_range.imp_of_mem fun _ hk hjk => h _ _ hjk (List.mem_range.1 hk)

theorem copyDown_eq_copy (hn : n ≤ 2 ^ w)
    (h : ∀ j k, j < k → k < n → d + BitVec.ofNat w k ≠ s + BitVec.ofNat w j) :
    copyDown m (d + BitVec.ofNat w n) (s + BitVec.ofNat w n) n = copy m d s n := by
  rw [copyDown_eq_copyAll]
  refine copyAll_eq_copy hn (fun k => List.mem_reverse.trans List.mem_range) (List.nodup_reverse.2 List.nodup_range) ?_
  exact List.pairwise_reverse.2 (List.pairwise_lt_range.imp_of_mem fun _ hk hjk => h _ _ hjk (List.mem_range.1 hk))

/-- `memmove`: downwards if the destination starts inside the source. -/
def memmove (m : Mem w) (d s : BitVec w) (n : Nat) : Mem w :=
  if s < d ∧ d < s + BitVec.ofNat w n then copyDown m (d + BitVec.ofNat w n) (s + BitVec.ofNat w n) n
  else copyUp m d s n

/-- `memmove` copies, unless the destination wraps around, or the source does
and reaches it. -/
theorem memmove_eq_copy (hd : d.toNat + n ≤ 2 ^ w) (hs : s.toNat + n ≤ 2 ^ w ∨ n ≤ d.toNat) :
    memmove m d s n = copy m d s n := by
  have hto {a : BitVec w} {j : Nat} (h : a.toNat + j < 2 ^ w) := toNat_add_ofNat h
  unfold memmove
  split
  · rename_i h
    have hsd := BitVec.lt_def.1 h.1
    refine copyDown_eq_copy (by omega) fun j k hjk hk he => ?_
    have := congrArg BitVec.toNat he
    rw [hto (by omega), hto (by omega)] at this
    omega
  · rename_i h
    refine copyUp_eq_copy (by omega) fun j k hjk hk he => ?_
    have he := congrArg BitVec.toNat he
    rw [hto (a := d) (by omega)] at he
    by_cases hsd : s.toNat < d.toNat
    · have hle : ¬ d < s + BitVec.ofNat w n := fun h' => h ⟨BitVec.lt_def.2 hsd, h'⟩
      rw [BitVec.lt_def, hto (by omega)] at hle
      rw [hto (by omega)] at he
      omega
    · by_cases hsk : s.toNat + k < 2 ^ w
      · rw [hto hsk] at he
        omega
      · rw [BitVec.toNat_add, BitVec.toNat_ofNat, Nat.add_mod_mod, Nat.mod_eq_sub_mod (by omega),
          Nat.mod_eq_of_lt (by have := s.isLt; omega)] at he
        have := s.isLt
        omega

end Xv6.Bytes
