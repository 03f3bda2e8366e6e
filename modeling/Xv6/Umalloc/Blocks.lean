import Mathlib.Algebra.BigOperators.Group.List.Basic
import Mathlib.Algebra.Order.Group.Nat
import Mathlib.Data.List.Pairwise
import Xv6.Lib.Outcome
import Xv6.Lib.Walk
import Xv6.Umalloc.Code
/-!
# The free list of the allocator

The abstract heap is two lists of blocks: the free ones in the order of their
addresses, with room between any two, and the ones that are in use. `Rep` says
that the headers represent it: from `base` the pointers lead through the free
blocks and back. `free` puts a block between its neighbours and joins it to
those it touches; `take` removes a block, or cuts one off the end of it.
-/

namespace Xv6.Umalloc

/-- A block of memory, its size in headers. -/
structure Blk where
  start : Nat
  size : Nat
  deriving DecidableEq

namespace Blk

def stop (b : Blk) : Nat := b.start + 8 * b.size

/-- Two blocks have no byte in common. -/
def Apart (b c : Blk) : Prop := b.stop ≤ c.start ∨ c.stop ≤ b.start

/-- A block lies before another, with room between them. -/
def Below (b c : Blk) : Prop := b.stop < c.start

/-- Where a block may be. -/
structure Fits (base k top : Nat) (b : Blk) : Prop where
  above : base + 8 ≤ b.start
  aligned : k ∣ b.start
  pos : 0 < b.size
  le : b.stop ≤ top

/-- Two blocks that touch are one. -/
def join (b c : Blk) : Blk := ⟨b.start, b.size + c.size⟩

variable {b c d : Blk} {base k top : Nat}

theorem Apart.symm (h : b.Apart c) : c.Apart b := Or.symm h

instance : Std.Symm Apart := ⟨fun _ _ => Apart.symm⟩

theorem Below.apart (h : b.Below c) : b.Apart c := .inl (Nat.le_of_lt h)

theorem Apart.start_ne (h : b.Apart c) (hb : 0 < b.size) (hc : 0 < c.size) : b.start ≠ c.start := by
  unfold Apart stop at h
  omega

theorem join_stop (h : b.stop = c.start) : (b.join c).stop = c.stop := by
  unfold stop join at *
  dsimp only
  omega

theorem Apart.join (hd : 0 < d.size) (h : b.stop = c.start) (hb : b.Apart d) (hc : c.Apart d) : (b.join c).Apart d := by
  unfold Apart at *
  rw [join_stop h]
  unfold stop Blk.join at *
  dsimp only
  omega

theorem Fits.join (hb : b.Fits base k top) (hc : c.Fits base k top) (h : b.stop = c.start) :
    (b.join c).Fits base k top :=
  ⟨hb.above, hb.aligned, Nat.add_pos_left hb.pos _, (join_stop h).symm ▸ hc.le⟩

theorem Fits.base_lt (hb : b.Fits base k top) : base < b.start := by
  have := hb.above
  omega

theorem Fits.start_lt (hb : b.Fits base k top) : b.start < top := by
  have := hb.le
  have := hb.pos
  unfold stop at *
  omega

end Blk

open Blk

/-- The blocks of an allocator: free ones in order and never touching, others in use. -/
structure Lay (base k top : Nat) (fl live : List Blk) : Prop where
  free : ∀ b ∈ fl, b.Fits base k top
  used : ∀ b ∈ live, b.Fits base k top
  below : fl.Pairwise Below
  disjoint : live.Pairwise Apart
  across : ∀ b ∈ fl, ∀ c ∈ live, b.Apart c

namespace Lay

variable {base k top : Nat} {fl l₁ l₂ live : List Blk} {b c d : Blk}

/-- A free block that begins before a block that is in use ends before it. -/
theorem stop_le (h : Lay base k top fl (b :: live)) (hc : c ∈ fl) (hlt : c.start < b.start) : c.stop ≤ b.start := by
  have := h.across c hc b List.mem_cons_self
  unfold Apart stop at *
  omega

theorem le_start (h : Lay base k top fl (b :: live)) (hc : c ∈ fl) (hlt : b.start < c.start) : b.stop ≤ c.start := by
  have := h.across c hc b List.mem_cons_self
  unfold Apart stop at *
  omega

/-- A block that is in use takes in the free block behind it. -/
theorem joinUpper (h : Lay base k top (l₁ ++ c :: l₂) (b :: live)) (hbc : b.stop = c.start) :
    Lay base k top (l₁ ++ l₂) (b.join c :: live) := by
  have hmem : ∀ d ∈ l₁ ++ l₂, d ∈ l₁ ++ c :: l₂ := by
    intro d hd
    rcases List.mem_append.1 hd with hd | hd
    · exact List.mem_append_left _ hd
    · exact List.mem_append_right _ (List.mem_cons_of_mem _ hd)
  have hc : c ∈ l₁ ++ c :: l₂ := List.mem_append_right _ List.mem_cons_self
  have hfit := (h.used b List.mem_cons_self).join (h.free c hc) hbc
  obtain ⟨hbl, hlive⟩ := List.pairwise_cons.1 h.disjoint
  obtain ⟨hl₁, hcl, hcross⟩ := List.pairwise_append.1 h.below
  obtain ⟨hcl₂, hl₂⟩ := List.pairwise_cons.1 hcl
  refine ⟨fun d hd => h.free d (hmem d hd), ?_, ?_, ?_, ?_⟩
  · intro d hd
    rcases List.mem_cons.1 hd with rfl | hd
    · exact hfit
    · exact h.used d (List.mem_cons_of_mem _ hd)
  · exact List.pairwise_append.2 ⟨hl₁, hl₂, fun d hd e he => hcross d hd e (List.mem_cons_of_mem _ he)⟩
  · refine List.pairwise_cons.2 ⟨fun d hd => ?_, hlive⟩
    have hd' := h.used d (List.mem_cons_of_mem _ hd)
    exact (hbl d hd).join hd'.pos hbc (h.across c hc d (List.mem_cons_of_mem _ hd))
  · intro d hd e he
    rcases List.mem_cons.1 he with rfl | he
    · refine (Apart.join (h.free d (hmem d hd)).pos hbc (h.across d (hmem d hd) b List.mem_cons_self).symm ?_).symm
      rcases List.mem_append.1 hd with hd | hd
      · exact (hcross d hd c List.mem_cons_self).apart.symm
      · exact (hcl₂ d hd).apart
    · exact h.across d (hmem d hd) e (List.mem_cons_of_mem _ he)

/-- A block that touches no free block becomes free. -/
theorem insert (h : Lay base k top (l₁ ++ l₂) (b :: live)) (hlow : ∀ c ∈ l₁, c.Below b) (hhigh : ∀ c ∈ l₂, b.Below c) :
    Lay base k top (l₁ ++ b :: l₂) live := by
  obtain ⟨hbl, hlive⟩ := List.pairwise_cons.1 h.disjoint
  obtain ⟨hl₁, hl₂, hcross⟩ := List.pairwise_append.1 h.below
  have hmem : ∀ d, d ∈ l₁ ++ b :: l₂ ↔ d = b ∨ d ∈ l₁ ++ l₂ := by
    intro d
    simp only [List.mem_append, List.mem_cons]
    tauto
  refine ⟨fun d hd => ?_, fun d hd => h.used d (List.mem_cons_of_mem _ hd), ?_, hlive, fun d hd e he => ?_⟩
  · rcases (hmem d).1 hd with rfl | hd
    · exact h.used d List.mem_cons_self
    · exact h.free d hd
  · refine List.pairwise_append.2 ⟨hl₁, List.pairwise_cons.2 ⟨hhigh, hl₂⟩, fun d hd e he => ?_⟩
    rcases List.mem_cons.1 he with rfl | he
    · exact hlow d hd
    · exact hcross d hd e he
  · rcases (hmem d).1 hd with rfl | hd
    · exact hbl e he
    · exact h.across d hd e (List.mem_cons_of_mem _ he)

/-- A block becomes free as a part of the free block before it. -/
theorem joinLower (h : Lay base k top (l₁ ++ d :: l₂) (b :: live)) (hdb : d.stop = b.start)
    (hhigh : ∀ c ∈ l₂, b.Below c) : Lay base k top (l₁ ++ d.join b :: l₂) live := by
  obtain ⟨hbl, hlive⟩ := List.pairwise_cons.1 h.disjoint
  obtain ⟨hl₁, hdl, hcross⟩ := List.pairwise_append.1 h.below
  obtain ⟨-, hl₂⟩ := List.pairwise_cons.1 hdl
  have hd : d ∈ l₁ ++ d :: l₂ := List.mem_append_right _ List.mem_cons_self
  have hfit := (h.free d hd).join (h.used b List.mem_cons_self) hdb
  have hmem : ∀ e ∈ l₁ ++ d.join b :: l₂, e = d.join b ∨ e ∈ l₁ ++ d :: l₂ := by
    intro e he
    simp only [List.mem_append, List.mem_cons] at he ⊢
    tauto
  refine ⟨fun e he => ?_, fun e he => h.used e (List.mem_cons_of_mem _ he), ?_, hlive, fun e he x hx => ?_⟩
  · rcases hmem e he with rfl | he
    · exact hfit
    · exact h.free e he
  · refine List.pairwise_append.2 ⟨hl₁, List.pairwise_cons.2 ⟨fun c hc => ?_, hl₂⟩, fun e he x hx => ?_⟩
    · have := hhigh c hc
      unfold Below at *
      rwa [join_stop hdb]
    · rcases List.mem_cons.1 hx with rfl | hx
      · exact hcross e he d List.mem_cons_self
      · exact hcross e he x (List.mem_cons_of_mem _ hx)
  · have hx' := h.used x (List.mem_cons_of_mem _ hx)
    rcases hmem e he with rfl | he
    · exact (h.across d hd x (List.mem_cons_of_mem _ hx)).join hx'.pos hdb (hbl x hx)
    · exact h.across e he x (List.mem_cons_of_mem _ hx)

/-- A free block is taken into use. -/
theorem take (h : Lay base k top (l₁ ++ b :: l₂) live) : Lay base k top (l₁ ++ l₂) (b :: live) := by
  have hb : b ∈ l₁ ++ b :: l₂ := List.mem_append_right _ List.mem_cons_self
  have hmem : ∀ d ∈ l₁ ++ l₂, d ∈ l₁ ++ b :: l₂ := by
    intro d hd
    simp only [List.mem_append, List.mem_cons] at hd ⊢
    tauto
  obtain ⟨hl₁, hbl, hcross⟩ := List.pairwise_append.1 h.below
  obtain ⟨hbl₂, hl₂⟩ := List.pairwise_cons.1 hbl
  refine ⟨fun d hd => h.free d (hmem d hd), ?_, ?_, List.pairwise_cons.2 ⟨h.across b hb, h.disjoint⟩, ?_⟩
  · intro d hd
    rcases List.mem_cons.1 hd with rfl | hd
    · exact h.free d hb
    · exact h.used d hd
  · exact List.pairwise_append.2 ⟨hl₁, hl₂, fun d hd e he => hcross d hd e (List.mem_cons_of_mem _ he)⟩
  · intro d hd e he
    rcases List.mem_cons.1 he with rfl | he
    · rcases List.mem_append.1 hd with hd | hd
      · exact (hcross d hd e List.mem_cons_self).apart
      · exact (hbl₂ d hd).apart.symm
    · exact h.across d (hmem d hd) e he

/-- The end of a block in use is taken from it. -/
theorem cut {m r : Nat} (hk : k ∣ 8) (h : Lay base k top fl (b :: live)) (hm : b.size = m + r) (hpos : 0 < m) (hr : 0 < r) :
    Lay base k top fl (⟨b.start, m⟩ :: ⟨b.start + 8 * m, r⟩ :: live) := by
  have hb := h.used b List.mem_cons_self
  obtain ⟨hbl, hlive⟩ := List.pairwise_cons.1 h.disjoint
  -- both parts are inside the block
  have hparts : ∀ c : Blk, b.Apart c → (⟨b.start, m⟩ : Blk).Apart c ∧ (⟨b.start + 8 * m, r⟩ : Blk).Apart c := by
    intro c hc
    unfold Apart stop at *
    dsimp only
    omega
  have hfits : (⟨b.start, m⟩ : Blk).Fits base k top ∧ (⟨b.start + 8 * m, r⟩ : Blk).Fits base k top := by
    obtain ⟨habove, halign, -, hle⟩ := hb
    unfold stop at hle
    refine ⟨⟨habove, halign, hpos, ?_⟩, ⟨?_, ?_, hr, ?_⟩⟩
    · unfold stop
      dsimp only
      omega
    · dsimp only
      omega
    · exact Nat.dvd_add halign (Nat.dvd_mul_right_of_dvd hk m)
    · unfold stop
      dsimp only
      omega
  refine ⟨h.free, ?_, h.below, ?_, ?_⟩
  · intro c hc
    rcases List.mem_cons.1 hc with rfl | hc
    · exact hfits.1
    rcases List.mem_cons.1 hc with rfl | hc
    · exact hfits.2
    · exact h.used c (List.mem_cons_of_mem _ hc)
  · refine List.pairwise_cons.2 ⟨fun c hc => ?_, List.pairwise_cons.2 ⟨fun c hc => (hparts c (hbl c hc)).2, hlive⟩⟩
    rcases List.mem_cons.1 hc with rfl | hc
    · exact .inl le_rfl
    · exact (hparts c (hbl c hc)).1
  · intro c hc d hd
    have hcb := hparts c (h.across c hc b List.mem_cons_self).symm
    rcases List.mem_cons.1 hd with rfl | hd
    · exact hcb.1.symm
    rcases List.mem_cons.1 hd with rfl | hd
    · exact hcb.2.symm
    · exact h.across c hc d (List.mem_cons_of_mem _ hd)

theorem perm {live' : List Blk} (hp : live.Perm live') (h : Lay base k top fl live) : Lay base k top fl live' :=
  ⟨h.free, fun b hb => h.used b (hp.mem_iff.2 hb), h.below, (hp.pairwise_iff fun h => Apart.symm h).1 h.disjoint,
    fun b hb c hc => h.across b hb c (hp.mem_iff.2 hc)⟩

end Lay

/-! ## Headers -/

section
variable {E : Type} (W : World E)

/-- The headers of the blocks are in memory and say their sizes, that of `base` is 0, and the
blocks are what `sbrk` gave. -/
structure Holds (base : Nat) (h : Heap E) (bs : List Blk) : Prop where
  sizes : ∀ b ∈ bs, h.size b.start = b.size
  mapped : ∀ b ∈ bs, ∀ j < b.size, W.mapped h.env (b.start + 8 * j) = true
  base0 : h.size base = 0
  baseMapped : W.mapped h.env base = true
  units : (bs.map Blk.size).sum = h.units

/-- The headers represent the free blocks `fl` and the blocks `live` in use. -/
structure Rep (base k top : Nat) (h : Heap E) (fl live : List Blk) : Prop where
  lay : Lay base k top fl live
  walk : Walk h.ptr base (base :: fl.map Blk.start) base
  freep : h.freep ∈ base :: fl.map Blk.start
  holds : Holds W base h (fl ++ live)

end

section
variable {E : Type} {W : World E} {base k top : Nat} {h : Heap E} {bs fl l₁ l₂ live : List Blk} {b c d : Blk}

theorem ok_bind {α β : Type} (x : α) (f : α → Except Stop β) : (Except.ok x >>= f) = f x := rfl

theorem at_ok {α : Type} {a : Nat} (ha : W.mapped h.env a = true) (x : α) : h.at W a x = .ok x := if_pos ha

theorem setPtr_ok {a v : Nat} (ha : W.mapped h.env a = true) :
    h.setPtr W a v = .ok { h with ptr := Function.update h.ptr a v } := at_ok ha _

namespace Holds

theorem perm {bs' : List Blk} (hp : bs.Perm bs') (hh : Holds W base h bs) : Holds W base h bs' :=
  ⟨fun b hb => hh.sizes b (hp.mem_iff.2 hb), fun b hb => hh.mapped b (hp.mem_iff.2 hb), hh.base0, hh.baseMapped,
    (hp.map Blk.size).sum_eq.symm.trans hh.units⟩

theorem start_mapped (hh : Holds W base h bs) (hb : b ∈ bs) (hpos : 0 < b.size) : W.mapped h.env b.start = true := by
  have := hh.mapped b hb 0 hpos
  rwa [Nat.mul_zero, Nat.add_zero] at this

/-- Pointers do not matter here. -/
theorem setPtr (hh : Holds W base h bs) (ptr : Nat → Nat) (freep : Nat) : Holds W base { h with ptr, freep } bs :=
  ⟨hh.sizes, hh.mapped, hh.base0, hh.baseMapped, hh.units⟩

/-- The header of a block is overwritten with the size of both. -/
theorem join (hh : Holds W base h (b :: c :: bs)) (hbc : b.stop = c.start) (hne : ∀ d ∈ bs, d.start ≠ b.start)
    (hbase : base ≠ b.start) :
    Holds W base { h with size := Function.update h.size b.start (b.size + c.size) } (b.join c :: bs) := by
  have hb : b ∈ b :: c :: bs := List.mem_cons_self
  have hc : c ∈ b :: c :: bs := List.mem_cons_of_mem _ List.mem_cons_self
  have hbs : ∀ d ∈ bs, d ∈ b :: c :: bs := fun d hd => List.mem_cons_of_mem _ (List.mem_cons_of_mem _ hd)
  refine ⟨fun d hd => ?_, fun d hd j hj => ?_, (Function.update_of_ne hbase ..).trans hh.base0, hh.baseMapped, ?_⟩
  · rcases List.mem_cons.1 hd with rfl | hd
    · exact Function.update_self ..
    · exact (Function.update_of_ne (hne d hd) ..).trans (hh.sizes d (hbs d hd))
  · rcases List.mem_cons.1 hd with rfl | hd
    · by_cases hjb : j < b.size
      · exact hh.mapped b hb j hjb
      · obtain ⟨i, rfl⟩ := Nat.exists_eq_add_of_le (Nat.le_of_not_lt hjb)
        have hi : i < c.size := Nat.lt_of_add_lt_add_left hj
        have := hh.mapped c hc i hi
        rwa [← hbc, stop, Nat.add_assoc, ← Nat.mul_add] at this
    · exact hh.mapped d (hbs d hd) j hj
  · have := hh.units
    simp only [List.map_cons, List.sum_cons, Blk.join] at this ⊢
    omega

/-- A block is cut in two. -/
theorem cut {m r : Nat} (hh : Holds W base h (b :: bs)) (hm : b.size = m + r) (hr : 0 < r) (hpos : 0 < m)
    (hne : ∀ d ∈ bs, d.start ≠ b.start ∧ d.start ≠ b.start + 8 * m) (hbase : base < b.start) :
    Holds W base { h with size := Function.update (Function.update h.size b.start m) (b.start + 8 * m) r }
      (⟨b.start, m⟩ :: ⟨b.start + 8 * m, r⟩ :: bs) := by
  have hb : b ∈ b :: bs := List.mem_cons_self
  refine ⟨fun d hd => ?_, fun d hd j hj => ?_, ?_, hh.baseMapped, ?_⟩
  · rcases List.mem_cons.1 hd with rfl | hd
    · exact (Function.update_of_ne (by dsimp only; omega) ..).trans (Function.update_self ..)
    rcases List.mem_cons.1 hd with rfl | hd
    · exact Function.update_self ..
    · refine (Function.update_of_ne (hne d hd).2 ..).trans ((Function.update_of_ne (hne d hd).1 ..).trans ?_)
      exact hh.sizes d (List.mem_cons_of_mem _ hd)
  · rcases List.mem_cons.1 hd with rfl | hd
    · exact hh.mapped b hb j (by dsimp only at hj; omega)
    rcases List.mem_cons.1 hd with rfl | hd
    · have := hh.mapped b hb (m + j) (by dsimp only at hj; omega)
      rwa [Nat.mul_add, ← Nat.add_assoc] at this
    · exact hh.mapped d (List.mem_cons_of_mem _ hd) j hj
  · refine (Function.update_of_ne (by omega) ..).trans ((Function.update_of_ne (by omega) ..).trans hh.base0)
  · have := hh.units
    simp only [List.map_cons, List.sum_cons] at this ⊢
    omega

end Holds

end

end Xv6.Umalloc
