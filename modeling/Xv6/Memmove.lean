import Xv6.Lib.Bytes
/-!
# memmove in the kernel and in the user library

`memmove` is string.c's: it compares the pointers and copies downwards when the
source begins below the destination and reaches into it. `ulibMemmove` is
ulib.c's: it always copies upwards, and its length is an `int`. `Moved` is what
both are for.
-/

namespace Xv6.Memmove
open Bytes Copying

variable {m m' : Mem 32} {dst src n : BitVec 32} {k o : Nat}

/-- string.c: `n` is a `uint`. -/
def memmove (m : Mem 32) (dst src n : BitVec 32) : BitVec 32 × Mem 32 := (dst, Bytes.memmove m dst src n.toNat)

/-- ulib.c: `n` is an `int`, and a negative one copies nothing. -/
def ulibMemmove (m : Mem 32) (dst src n : BitVec 32) : BitVec 32 × Mem 32 := (dst, copyUp m dst src n.toInt.toNat)

/-- The `k` bytes at `dst` are the ones that were at `src`, and no other byte changes. -/
structure Moved (m m' : Mem 32) (dst src : BitVec 32) (k : Nat) : Prop where
  copied : ∀ i < k, m' (dst + BitVec.ofNat 32 i) = m (src + BitVec.ofNat 32 i)
  kept : ∀ x : BitVec 32, x.toNat < dst.toNat ∨ dst.toNat + k ≤ x.toNat → m' x = m x

/-- `Moved` says all of what the memory is afterwards. -/
theorem moved_iff (hd : dst.toNat + k ≤ 2 ^ 32) : Moved m m' dst src k ↔ m' = copy m dst src k := by
  constructor
  · intro h
    funext x
    by_cases hx : x.toNat < dst.toNat ∨ dst.toNat + k ≤ x.toNat
    · rw [h.kept x hx, copy, write_outside (outside_of_toNat hd hx)]
    · obtain ⟨i, hi⟩ : ∃ i, x.toNat = dst.toNat + i := ⟨x.toNat - dst.toNat, by omega⟩
      have hat : x = dst + BitVec.ofNat 32 i := BitVec.eq_of_toNat_eq (by rw [toNat_add_ofNat (by omega), hi])
      rw [hat, h.copied i (by omega), copy_offset (by omega), if_pos (by omega)]
  · rintro rfl
    refine ⟨fun i hi => ?_, fun x hx => write_outside (outside_of_toNat hd hx)⟩
    rw [copy_offset (by omega), if_pos hi]

/-! ## Upwards through an overlap -/

theorem copyUp_at (hd : dst.toNat + k ≤ 2 ^ 32) {i : Nat} (hi : i < k) :
    copyUp m dst src k (dst + BitVec.ofNat 32 i) = copyUp m dst src i (src + BitVec.ofNat 32 i) := by
  rw [copyUp_eq_copyAll, copyUp_eq_copyAll]
  exact copyUp_reads (fun a ha b hb => offset_inj (by omega) (by omega)) hi

/-- With the destination `o` bytes above the source, the first `o` bytes arrive and each other one is a copy of the
byte `o` before it, as it arrived. -/
theorem copyUp_shifted (hd : dst.toNat + k ≤ 2 ^ 32) (ho : dst.toNat = src.toNat + o) (hpos : 0 < o)
    {i : Nat} (hi : i < k) :
    copyUp m dst src k (dst + BitVec.ofNat 32 i) =
      if i < o then m (src + BitVec.ofNat 32 i) else copyUp m dst src k (dst + BitVec.ofNat 32 (i - o)) := by
  rw [copyUp_at hd hi]
  split
  case isTrue hio =>
    have hbelow : (src + BitVec.ofNat 32 i).toNat < dst.toNat := by
      rw [toNat_add_ofNat (by omega)]
      omega
    rw [copyUp_eq_copyAll]
    exact copyAll_outside (fun j hj => List.mem_range.1 hj) (outside_of_toNat (by omega) (.inl hbelow))
  case isFalse hio =>
    have hat : src + BitVec.ofNat 32 i = dst + BitVec.ofNat 32 (i - o) :=
      BitVec.eq_of_toNat_eq (by rw [toNat_add_ofNat (by omega), toNat_add_ofNat (by omega)]; omega)
    -- the byte at `src + i` was written in round `i - o` and not since
    rw [hat, copyUp_at (by omega) (by omega), copyUp_at hd (by omega)]

/-- The source repeats itself every `o` bytes. -/
def Repeats (m : Mem 32) (src : BitVec 32) (o k : Nat) : Prop :=
  ∀ i, i + o < k → m (src + BitVec.ofNat 32 (i + o)) = m (src + BitVec.ofNat 32 i)

theorem copyUp_copied_iff (hd : dst.toNat + k ≤ 2 ^ 32) (ho : dst.toNat = src.toNat + o) (hpos : 0 < o) :
    (∀ i < k, copyUp m dst src k (dst + BitVec.ofNat 32 i) = m (src + BitVec.ofNat 32 i)) ↔ Repeats m src o k := by
  constructor
  · intro h i hi
    have hstep := copyUp_shifted (m := m) hd ho hpos hi
    rw [if_neg (by omega), Nat.add_sub_cancel, h _ hi, h i (by omega)] at hstep
    exact hstep
  · intro h i
    induction i using Nat.strongRecOn with
    | ind i ih =>
      intro hi
      rw [copyUp_shifted hd ho hpos hi]
      split
      case isTrue => rfl
      case isFalse hio =>
        obtain ⟨j, rfl⟩ : ∃ j, i = j + o := ⟨i - o, by omega⟩
        rw [Nat.add_sub_cancel, ih j (by omega) (by omega), h j hi]

theorem moved_overlap_iff (hd : dst.toNat + k ≤ 2 ^ 32) (ho : dst.toNat = src.toNat + o) (hpos : 0 < o) :
    Moved m (copyUp m dst src k) dst src k ↔ Repeats m src o k := by
  rw [← copyUp_copied_iff hd ho hpos]
  refine ⟨Moved.copied, fun h => ⟨h, fun x hx => ?_⟩⟩
  rw [copyUp_eq_copyAll]
  exact copyAll_outside (fun i hi => List.mem_range.1 hi) (outside_of_toNat hd hx)

theorem moved_up (hd : dst.toNat + k ≤ 2 ^ 32) (hs : src.toNat + k ≤ 2 ^ 32)
    (h : dst.toNat ≤ src.toNat ∨ src.toNat + k ≤ dst.toNat) : Moved m (copyUp m dst src k) dst src k := by
  rw [moved_iff hd]
  refine copyUp_eq_copy (by omega) fun i j hij hj heq => ?_
  have := congrArg BitVec.toNat heq
  rw [toNat_add_ofNat (by omega), toNat_add_ofNat (by omega)] at this
  omega

/-! ## The two functions -/

/-- What the user library's memmove needs. Below 2^31 bytes: a source that does not begin below the destination and
reach into it, or repeats itself at the distance of the two. From 2^31 on the length is negative for it and it does
nothing, so the bytes have to be the same already. -/
def UpMoves (m : Mem 32) (dst src n : BitVec 32) : Prop :=
  (n.toNat < 2 ^ 31 ∧ (dst.toNat ≤ src.toNat ∨ src.toNat + n.toNat ≤ dst.toNat ∨
    Repeats m src (dst.toNat - src.toNat) n.toNat)) ∨
  (2 ^ 31 ≤ n.toNat ∧ ∀ i < n.toNat, m (dst + BitVec.ofNat 32 i) = m (src + BitVec.ofNat 32 i))

theorem ulibMemmove_iff (hd : dst.toNat + n.toNat ≤ 2 ^ 32) (hs : src.toNat + n.toNat ≤ 2 ^ 32) :
    Moved m (ulibMemmove m dst src n).2 dst src n.toNat ↔ UpMoves m dst src n := by
  have hint : n.toInt = if 2 * n.toNat < 2 ^ 32 then (n.toNat : Int) else n.toNat - 2 ^ 32 := BitVec.toInt_eq_toNat_cond n
  rw [ulibMemmove, UpMoves]
  by_cases hn : n.toNat < 2 ^ 31
  · rw [hint, if_pos (by omega), Int.toNat_natCast]
    by_cases h : dst.toNat ≤ src.toNat ∨ src.toNat + n.toNat ≤ dst.toNat
    · exact ⟨fun _ => .inl ⟨hn, by tauto⟩, fun _ => moved_up hd hs h⟩
    · rw [moved_overlap_iff (o := dst.toNat - src.toNat) hd (by omega) (by omega)]
      constructor
      · exact fun hr => .inl ⟨hn, .inr (.inr hr)⟩
      · rintro (⟨-, h' | h' | hr⟩ | ⟨hn', -⟩)
        · exact absurd (.inl h') h
        · exact absurd (.inr h') h
        · exact hr
        · omega
  · rw [hint, if_neg (by omega), Int.toNat_of_nonpos (by omega)]
    constructor
    · exact fun h => .inr ⟨by omega, h.copied⟩
    · rintro (⟨hn', -⟩ | ⟨-, h⟩)
      · exact absurd hn' hn
      · exact ⟨h, fun _ _ => rfl⟩

/-- For all ranges inside the address space the kernel's memmove moves the bytes. The user library's does so, and
agrees with it, just when copying upwards is enough. -/
theorem memmove_agrees_iff (m : Mem 32) (dst src n : BitVec 32) (hd : dst.toNat + n.toNat ≤ 2 ^ 32)
    (hs : src.toNat + n.toNat ≤ 2 ^ 32) :
    Moved m (memmove m dst src n).2 dst src n.toNat ∧
      (Moved m (ulibMemmove m dst src n).2 dst src n.toNat ↔ UpMoves m dst src n) ∧
      (ulibMemmove m dst src n = memmove m dst src n ↔ UpMoves m dst src n) := by
  have hkernel : (memmove m dst src n).2 = copy m dst src n.toNat := memmove_eq_copy hd (.inl hs)
  refine ⟨(moved_iff hd).2 hkernel, ulibMemmove_iff hd hs, ?_⟩
  rw [← ulibMemmove_iff hd hs, moved_iff hd, ← hkernel]
  exact ⟨congrArg Prod.snd, Prod.ext rfl⟩

/-- Four bytes moved down by two. -/
theorem four_moved_down : UpMoves (fun a => a.setWidth 8) 0x1000 0x1002 4 ∧
    ulibMemmove (fun a => a.setWidth 8) 0x1000 0x1002 4 = memmove (fun a => a.setWidth 8) 0x1000 0x1002 4 := by
  have h : UpMoves (fun a => a.setWidth 8) 0x1000 0x1002 4 := .inl ⟨by decide, .inl (by decide)⟩
  exact ⟨h, (memmove_agrees_iff _ 0x1000 0x1002 4 (by decide) (by decide)).2.2.2 h⟩

/-- Two bytes moved up by one: the second one is lost before the user library reads it. -/
theorem two_moved_up : (ulibMemmove (fun a => a.setWidth 8) 0x1001 0x1000 2).2 0x1002 = 0 ∧
    (memmove (fun a => a.setWidth 8) 0x1001 0x1000 2).2 0x1002 = 1 ∧
    ¬ Moved (fun a => a.setWidth 8) (ulibMemmove (fun a => a.setWidth 8) 0x1001 0x1000 2).2 0x1001 0x1000 2 := by
  refine ⟨by decide, by decide, fun h => ?_⟩
  exact absurd (h.copied 1 (by decide)) (by decide)

end Xv6.Memmove
