import Xv6.Blocks.Consistent
import Xv6.Mkfs.Code
/-!
# mkfs appends as the kernel writes

`iappend` and the kernel's `writei` were written independently. They agree on
the format: while `mkfs` runs, its image shows the disk that the kernel would
have if it had done the same writes, with the blocks below `freeblock` marked in
the free map. So what is known of `writei` holds for `iappend`.
-/

namespace Xv6

open Bytes Outcome

/-! ## Inodes in a sector -/

namespace Block

theorem word_setWords (m : Block) (vs : List (BitVec 32)) {j j' : Nat} (hj : j + vs.length ≤ NINDIRECT) (hj' : j' < NINDIRECT) :
    (m.setWords j vs).word j' = if j ≤ j' ∧ j' < j + vs.length then (vs.getD (j' - j) 0).toNat else m.word j' := by
  induction vs generalizing m j with
  | nil =>
    rw [if_neg (by simp only [List.length_nil]; omega)]
    rfl
  | cons v vs ih =>
    rw [List.length_cons] at hj ⊢
    rw [setWords, ih (m.setWord j v.toNat) (by omega), word_setWord (by omega) hj' v.isLt]
    by_cases heq : j' = j
    · rw [if_neg (by omega), if_pos heq, if_pos (by omega), heq, Nat.sub_self, List.getD_cons_zero]
    · rw [if_neg heq]
      by_cases hin : j + 1 ≤ j' ∧ j' < j + 1 + vs.length
      · rw [if_pos hin, if_pos (by omega), show j' - j = (j' - (j + 1)) + 1 by omega, List.getD_cons_succ]
      · rw [if_neg hin, if_neg (by omega)]

theorem length_words (d : RawInode) : d.words.length = 16 := by
  rw [RawInode.words, List.length_cons, List.length_cons, List.length_cons, List.length_ofFn]
  rfl

theorem ofWords_words (d : RawInode) : RawInode.ofWords (fun k => d.words.getD k 0) = d := by
  have hlow (a b : BitVec 16) : (a ++ b).extractLsb' 0 16 = b := by
    refine BitVec.eq_of_getLsbD_eq fun k hk => ?_
    rw [BitVec.getLsbD_extractLsb', BitVec.getLsbD_append]
    simp [hk]
  have hhigh (a b : BitVec 16) : (a ++ b).extractLsb' 16 16 = a := by
    refine BitVec.eq_of_getLsbD_eq fun k hk => ?_
    rw [BitVec.getLsbD_extractLsb', BitVec.getLsbD_append]
    simp [hk]
  unfold RawInode.ofWords RawInode.words
  simp only [List.getD_cons_zero, List.getD_cons_succ, hlow, hhigh]
  refine congrArg _ (funext fun k => ?_)
  rw [Nat.add_comm 3, List.getD_cons_succ, List.getD_cons_succ, List.getD_cons_succ,
    List.getD_eq_getElem _ _ (by rw [List.length_ofFn]; exact k.2), List.getElem_ofFn]

theorem ofWords_congr {w w' : Nat → BitVec 32} (h : ∀ k, k < 16 → w k = w' k) :
    RawInode.ofWords w = RawInode.ofWords w' := by
  unfold RawInode.ofWords
  rw [h 0 (by decide), h 1 (by decide), h 2 (by decide)]
  refine congrArg _ (funext fun k => h _ ?_)
  have hk : k.val < 13 := k.2
  omega

/-- An inode is read back as it was written. -/
theorem inode_setWords_self (m : Block) (i : Nat) (d : RawInode) :
    (m.setWords (16 * (i % IPB)) d.words).inode i = d := by
  have hi : i % IPB < 8 := Nat.mod_lt _ (by decide)
  have hlen := length_words d
  have hmax : NINDIRECT = 128 := rfl
  refine (ofWords_congr fun k hk => ?_).trans (ofWords_words d)
  rw [word_setWords m _ (by omega) (by omega), if_pos (by omega), Nat.add_sub_cancel_left, BitVec.ofNat_toNat,
    BitVec.setWidth_eq]

/-- The other inodes of the sector stay. -/
theorem inode_setWords_other (m : Block) (d : RawInode) {i j : Nat} (hij : j % IPB ≠ i % IPB) :
    (m.setWords (16 * (i % IPB)) d.words).inode j = m.inode j := by
  have hi : i % IPB < 8 := Nat.mod_lt _ (by decide)
  have hj : j % IPB < 8 := Nat.mod_lt _ (by decide)
  have hlen := length_words d
  have hmax : NINDIRECT = 128 := rfl
  refine ofWords_congr fun k hk => ?_
  rw [word_setWords m _ (by omega) (by omega), if_neg (by omega)]

theorem inode_zero (i : Nat) : inode (fun _ => 0) i = ⟨0, 0, 0, 0, 0, fun _ => 0⟩ := by
  unfold inode
  simp only [word_zero]
  rfl

end Block

namespace DiskImage

variable {m m' : DiskImage} {s s' : Volume} {i j b n : Nat}

/-- The inode number `i` of the image. -/
def inode (m : DiskImage) (i : Nat) : RawInode := (m.sect (mkfsSuper.IBLOCK i)).inode i

theorem seek_ofNat (h : n < 2 ^ 23) : seek (BitVec.ofNat 32 n) = n := by
  unfold seek
  rw [BitVec.toNat_mul, BitVec.toNat_ofNat, BitVec.toNat_ofNat]
  unfold BSIZE
  omega

theorem IBLOCK_lt (hi : i < NINODES) : mkfsSuper.IBLOCK i < nmeta - 1 := by
  unfold NINODES at hi
  have hstart : mkfsSuper.inodestart = 32 := rfl
  have hmeta : nmeta = 59 := rfl
  unfold Super.IBLOCK IPB
  omega

theorem rsect_eq (h : b < FSSIZE) : m.rsect (BitVec.ofNat 32 b) = .ok (m.sect b) := by
  unfold rsect
  have hb : b < 1000 := h
  rw [seek_ofNat (by omega), if_pos h]

theorem wsect_sect (h : b < FSSIZE) (buf : Block) :
    (m.wsect (BitVec.ofNat 32 b) buf).sect = Function.update m.sect b buf := by
  unfold wsect
  have hb : b < 1000 := h
  rw [seek_ofNat (by omega)]

theorem rinode_eq (hi : i < NINODES) : m.rinode i = .ok (m.inode i) := by
  unfold rinode
  have hlt := IBLOCK_lt hi
  have hmeta : nmeta = 59 := rfl
  rw [rsect_eq (show _ < 1000 by omega)]
  rfl

/-- An inode is changed in its sector, and nothing else. -/
structure Rewrote (m : DiskImage) (i : Nat) (d : RawInode) (m' : DiskImage) : Prop where
  self : m'.inode i = d
  other : ∀ j, j ≠ i → m'.inode j = m.inode j
  sect : ∀ b, nmeta - 1 ≤ b → m'.sect b = m.sect b
  super : m'.sect 1 = m.sect 1
  freeinode : m'.freeinode = m.freeinode
  freeblock : m'.freeblock = m.freeblock

theorem winode_ok (hi : i < NINODES) (d : RawInode) : ∃ m', m.winode i d = .ok m' ∧ Rewrote m i d m' := by
  have hlt := IBLOCK_lt hi
  have hmeta : nmeta = 59 := rfl
  have hfs : mkfsSuper.IBLOCK i < FSSIZE := show _ < 1000 by omega
  have hone : mkfsSuper.IBLOCK i ≠ 1 := by
    have hle : 32 ≤ mkfsSuper.IBLOCK i := Nat.le_add_left ..
    omega
  refine ⟨m.wsect (BitVec.ofNat 32 (mkfsSuper.IBLOCK i)) ((m.sect (mkfsSuper.IBLOCK i)).setWords (16 * (i % IPB)) d.words),
    ?_, ?_, fun j hj => ?_, fun b hb => ?_, ?_, rfl, rfl⟩
  · unfold winode
    dsimp only
    rw [rsect_eq hfs]
    rfl
  · unfold inode
    rw [wsect_sect hfs, Function.update_self, Block.inode_setWords_self]
  · unfold inode
    rw [wsect_sect hfs]
    by_cases hsame : mkfsSuper.IBLOCK j = mkfsSuper.IBLOCK i
    · rw [hsame, Function.update_self, Block.inode_setWords_other]
      unfold Super.IBLOCK IPB at hsame
      unfold IPB
      omega
    · rw [Function.update_of_ne hsame]
  · rw [wsect_sect hfs, Function.update_of_ne (by omega)]
  · rw [wsect_sect hfs, Function.update_of_ne hone.symm]

/-! ## The disk that the image shows -/

/-- `s` is the disk the kernel would have: the blocks given out are marked in its free map, and the others are zero. -/
structure Shows (m : DiskImage) (s : Volume) : Prop where
  sb : s.sb = mkfsSuper
  super : m.sect 1 = Block.setWords (fun _ => 0) 0 sbWords
  block : ∀ b, nmeta ≤ b → b < FSSIZE → s.block b = m.sect b
  dinode : ∀ i, i < NINODES → s.dinode i = (m.inode i).dinode
  marked : ∀ b, b < FSSIZE → (b ∈ s.marked ↔ b < m.freeblock)
  lower : nmeta ≤ m.freeblock
  upper : m.freeblock ≤ FSSIZE
  zero : ∀ b, m.freeblock ≤ b → b < FSSIZE → m.sect b = fun _ => 0

namespace Shows

theorem mem_data (h : Shows m s) : b ∈ s.sb.dataArea ↔ nmeta ≤ b ∧ b < FSSIZE := by
  rw [h.sb]
  rfl

theorem reserved (h : Shows m s) (b : Nat) (hb : b < s.sb.first) (hlt : b < s.sb.size) : b ∈ s.marked := by
  rw [h.sb] at hb hlt
  exact (h.marked b hlt).2 (Nat.lt_of_lt_of_le hb h.lower)

/-- The first block that is not marked is the one that `mkfs` takes. -/
theorem balloc (h : Shows m s) (hlt : m.freeblock < FSSIZE) :
    ∃ s', s.balloc = .ok (m.freeblock, s') ∧ Shows { m with freeblock := m.freeblock + 1 } s' := by
  have hsize : s.sb.size = FSSIZE := by rw [h.sb]; rfl
  have hfind : (List.range s.sb.size).find? (fun b => !s.used b) = some m.freeblock := by
    rw [hsize, List.find?_range_eq_some]
    refine ⟨?_, List.mem_range.2 hlt, fun j hj => ?_⟩
    · have : ¬s.used m.freeblock = true := fun hused => absurd ((h.marked _ hlt).1 hused) (Nat.lt_irrefl _)
      simpa using this
    · have : s.used j = true := (h.marked j (hj.trans hlt)).2 hj
      simp [this]
  obtain ⟨s', hs'⟩ : ∃ s', s.balloc = .ok (m.freeblock, s') := by
    unfold Volume.balloc
    rw [hfind]
    exact ⟨_, rfl⟩
  have ht := Volume.balloc_ends h.reserved
  rw [hs'] at ht
  refine ⟨s', hs', ?_⟩
  have hzero := h.zero _ le_rfl hlt
  refine
    { sb := ht.sb.trans h.sb
      super := h.super
      block := fun b hb hlt' => ?_
      dinode := fun i hi => by rw [ht.dinode]; exact h.dinode i hi
      marked := fun b hb => ?_
      lower := h.lower.trans (Nat.le_succ _)
      upper := hlt
      zero := fun b hb => h.zero b (Nat.le_of_succ_le hb) }
  · by_cases heq : b = m.freeblock
    · rw [heq, ht.zero, hzero]
    · rw [ht.block b (h.mem_data.2 ⟨hb, hlt'⟩) heq]
      exact h.block b hb hlt'
  · rw [ht.marked b (hsize ▸ hb), Set.mem_insert_iff, h.marked b hb]
    dsimp only
    omega

theorem balloc_full (h : Shows m s) (heq : m.freeblock = FSSIZE) : ∃ e, s.balloc = .error e := by
  have hsize : s.sb.size = FSSIZE := by rw [h.sb]; rfl
  have hfind : (List.range s.sb.size).find? (fun b => !s.used b) = none := by
    rw [List.find?_eq_none]
    intro b hb
    have hlt : b < FSSIZE := hsize ▸ List.mem_range.1 hb
    have : s.used b = true := (h.marked b hlt).2 (heq ▸ hlt)
    simp [this]
  unfold Volume.balloc
  rw [hfind]
  exact ⟨_, rfl⟩

/-- A data block that was given out is changed on both sides. -/
theorem write (h : Shows m s) (hb : nmeta ≤ b) (hlt : b < m.freeblock) (buf : Block) :
    Shows (m.wsect (BitVec.ofNat 32 b) buf) (s.logWrite b buf) := by
  have hfs : b < FSSIZE := hlt.trans_le h.upper
  have hsect := wsect_sect (m := m) hfs buf
  have hmeta : nmeta = 59 := rfl
  refine
    { sb := h.sb
      super := by rw [hsect, Function.update_of_ne (by omega)]; exact h.super
      block := fun c hc hclt => ?_
      dinode := fun i hi => ?_
      marked := fun c hc => ?_
      lower := h.lower
      upper := h.upper
      zero := fun c hc hclt => ?_ }
  · rw [hsect]
    unfold Volume.logWrite
    dsimp only
    by_cases hcb : c = b
    · rw [hcb, Function.update_self, Function.update_self]
    · rw [Function.update_of_ne hcb, Function.update_of_ne hcb]
      exact h.block c hc hclt
  · have hne : mkfsSuper.IBLOCK i ≠ b := by
      have := IBLOCK_lt hi
      omega
    unfold inode
    rw [hsect, Function.update_of_ne hne]
    exact h.dinode i hi
  · refine Iff.trans ?_ (h.marked c hc)
    have hsize : s.sb.size = FSSIZE := by rw [h.sb]; rfl
    exact Bool.eq_iff_iff.1 (Volume.used_logWrite (h.mem_data.2 ⟨hb, hfs⟩) (hsize ▸ hc))
  · have hne : c ≠ b := fun heq => absurd hc (Nat.not_le.2 (heq ▸ hlt))
    rw [hsect, Function.update_of_ne hne]
    exact h.zero c hc hclt

/-- An inode is changed on both sides. -/
theorem winode {d : RawInode} (h : Shows m s) (hw : Rewrote m i d m') (hsb : s'.sb = s.sb) (hblk : s'.block = s.block)
    (hdin : ∀ j, j < NINODES → s'.dinode j = Function.update s.dinode i d.dinode j) : Shows m' s' := by
  have hmeta : nmeta = 59 := rfl
  refine
    { sb := hsb.trans h.sb
      super := hw.super.trans h.super
      block := fun b hb hlt => ?_
      dinode := fun j hj => ?_
      marked := fun b hb => ?_
      lower := hw.freeblock ▸ h.lower
      upper := hw.freeblock ▸ h.upper
      zero := fun b hb hlt => ?_ }
  · rw [hblk, hw.sect b (by omega)]
    exact h.block b hb hlt
  · rw [hdin j hj]
    by_cases hji : j = i
    · rw [hji, Function.update_self, hw.self]
    · rw [Function.update_of_ne hji, hw.other j hji]
      exact h.dinode j hj
  · rw [hw.freeblock, ← h.marked b hb]
    unfold Volume.marked Volume.used
    rw [hsb, hblk]
  · rw [hw.freeblock] at hb
    rw [hw.sect b (by have := h.lower; omega)]
    exact h.zero b hb hlt

/-! ## Finding a block -/

theorem dinode_setAddr (d : RawInode) (k : Fin (NDIRECT + 1)) {a : Nat} (ha : a < 2 ^ 32) :
    (d.setAddr k (BitVec.ofNat 32 a)).dinode = d.dinode.setAddr k a := by
  unfold RawInode.setAddr RawInode.dinode Dinode.setAddr
  refine congrArg _ (funext fun k' => ?_)
  dsimp only
  by_cases hk : k' = k
  · rw [hk, Function.update_self, Function.update_self, BitVec.toNat_ofNat, Nat.mod_eq_of_lt ha]
  · rw [Function.update_of_ne hk, Function.update_of_ne hk]

/-- An entry of `addrs`: the kernel finds no free block exactly if the block that `mkfs` takes is behind the end. -/
theorem fill (h : Shows m s) (din : RawInode) (k : Fin (NDIRECT + 1)) :
    (∃ s', s.bmapAddr din.dinode k = .ok (((m.fill din k).1.addrs k).toNat, (m.fill din k).1.dinode, s') ∧
      Shows (m.fill din k).2 s' ∧ (m.fill din k).2.freeinode = m.freeinode) ∨
    (∃ e, s.bmapAddr din.dinode k = .error e) ∧ (m.fill din k).2.rsect ((m.fill din k).1.addrs k) = .error .read := by
  have hup : m.freeblock ≤ 1000 := h.upper
  have hzero : din.dinode.addrs k = 0 ↔ din.addrs k = 0 :=
    ⟨fun h0 => BitVec.eq_of_toNat_eq h0, fun h0 => by unfold RawInode.dinode; dsimp only; rw [h0]; rfl⟩
  unfold DiskImage.fill Volume.bmapAddr
  by_cases h0 : din.addrs k = 0
  · rw [if_pos h0, if_pos (hzero.2 h0)]
    have hnew : (din.setAddr k (BitVec.ofNat 32 m.freeblock)).addrs k = BitVec.ofNat 32 m.freeblock :=
      Function.update_self ..
    have hnat : (BitVec.ofNat 32 m.freeblock).toNat = m.freeblock := by
      rw [BitVec.toNat_ofNat, Nat.mod_eq_of_lt (by omega)]
    rcases Nat.lt_or_ge m.freeblock FSSIZE with hlt | hge
    · obtain ⟨s', hs', hshows⟩ := h.balloc hlt
      refine .inl ⟨s', ?_, hshows, rfl⟩
      rw [hs', hnew, hnat, dinode_setAddr _ _ (by omega)]
      rfl
    · obtain ⟨e, he⟩ := h.balloc_full (Nat.le_antisymm h.upper hge)
      refine .inr ⟨⟨e, by rw [he]; rfl⟩, ?_⟩
      dsimp only
      unfold rsect
      rw [hnew, seek_ofNat (by omega), if_neg (Nat.not_lt.2 hge)]
  · rw [if_neg h0, if_neg (mt hzero.1 h0)]
    exact .inl ⟨s, rfl, h, rfl⟩

theorem rsect (h : Shows m s) (hb : b ∈ s.sb.dataArea) : m.rsect (BitVec.ofNat 32 b) = .ok (s.block b) := by
  have hb' := h.mem_data.1 hb
  rw [rsect_eq hb'.2, h.block b hb'.1 hb'.2]

theorem ofNat_toNat_eq (x : BitVec 32) : BitVec.ofNat 32 x.toNat = x := by
  rw [BitVec.ofNat_toNat, BitVec.setWidth_eq]

/-- The block that `mkfs` reads and the one that `bmap` finds. -/
def Fetched (n : Nat) (r : BitVec 32 × Block × RawInode × DiskImage) (r' : Nat × Dinode × Volume) : Prop :=
  r.1 = BitVec.ofNat 32 r'.1 ∧ r.2.1 = r'.2.2.block r'.1 ∧ r.2.2.1.dinode = r'.2.1 ∧ Shows r.2.2.2 r'.2.2 ∧
    r.2.2.2.freeinode = n

variable {T : Nat → Dinode} {din : RawInode} {fbn : Nat}

/-- Blocks that are pointed to have been given out. -/
theorem held {x : Place} (h : Shows m s) (hown : Volume.Own s T) (hi : s.Live T i) (hne : (T i).ptr s.block x ≠ 0) :
    (T i).ptr s.block x ∈ s.sb.dataArea ∧ (T i).ptr s.block x < m.freeblock := by
  have hdata := hown.mem_data hi hne
  have hheld := hown.toOwns.held (x := (i, x)) (by rwa [Volume.pt_of_live hi])
  rw [Volume.pt_of_live hi] at hheld
  exact ⟨hdata, (h.marked _ (h.mem_data.1 hdata).2).1 hheld⟩

/-- A word of the indirect block, which is block `a`. -/
theorem word (h : Shows m s) (hown : Volume.Own s T) (hi : s.Live T i) (hT : T i = din.dinode)
    (ha : (din.addrs indirect).toNat ≠ 0) (j : Fin NINDIRECT) :
    Agree (Fetched m.freeinode)
      (do
        let ind ← m.rsect (din.addrs indirect)
        let (x, din, m) ← (if ind.word j = 0 then
          .ok (BitVec.ofNat 32 ((ind.setWord j m.freeblock).word j), din,
            { m with freeblock := m.freeblock + 1 }.wsect (din.addrs indirect) (ind.setWord j m.freeblock))
          else .ok (BitVec.ofNat 32 (ind.word j), din, m) : Except MkfsExit _)
        let buf ← m.rsect x
        .ok (x, buf, din, m))
      (if (s.block (din.addrs indirect).toNat).word j = 0 then do
        let (addr, s) ← s.balloc
        .ok (addr, din.dinode, s.logWrite (din.addrs indirect).toNat ((s.block (din.addrs indirect).toNat).setWord j addr))
      else .ok ((s.block (din.addrs indirect).toNat).word j, din.dinode, s)) := by
  obtain ⟨a, haeq⟩ : ∃ a, a = (din.addrs indirect).toNat := ⟨_, rfl⟩
  have hx : din.addrs indirect = BitVec.ofNat 32 a := by rw [haeq, ofNat_toNat_eq]
  rw [← haeq] at ha ⊢
  have hptr : (T i).ptr s.block (.addr indirect) = a := by rw [hT, haeq]; rfl
  obtain ⟨hdata, hused⟩ : a ∈ s.sb.dataArea ∧ a < m.freeblock := hptr ▸ h.held hown hi (hptr.trans_ne ha)
  have hword : (T i).ptr s.block (.inner j) = (s.block a).word j := by
    simp only [Dinode.ptr]
    rw [show (T i).addrs indirect = a from hptr, if_neg ha]
  have hup : m.freeblock ≤ 1000 := h.upper
  rw [hx, h.rsect hdata]
  dsimp only [bind, Except.bind]
  by_cases h0 : (s.block a).word j = 0
  · rw [if_pos h0, if_pos h0]
    dsimp only
    rw [Block.word_setWord j.2 j.2 (by omega), if_pos rfl]
    rcases Nat.lt_or_ge m.freeblock FSSIZE with hlt | hge
    · obtain ⟨s', hs', hshows⟩ := h.balloc hlt
      have hsame : s'.block a = s.block a := by
        have ha' := h.mem_data.1 hdata
        rw [hshows.block a ha'.1 ha'.2, h.block a ha'.1 ha'.2]
      have hw := hshows.write (b := a) (h.mem_data.1 hdata).1 (Nat.lt_succ_of_lt hused) ((s.block a).setWord j m.freeblock)
      rw [hs']
      dsimp only
      rw [hsame, hw.rsect (hw.mem_data.2 ⟨h.lower, hlt⟩)]
      exact ⟨rfl, rfl, rfl, hw, rfl⟩
    · obtain ⟨e, he⟩ := h.balloc_full (Nat.le_antisymm h.upper hge)
      rw [he]
      dsimp only
      unfold DiskImage.rsect
      rw [seek_ofNat (by omega), if_neg (Nat.not_lt.2 hge)]
      exact True.intro
  · rw [if_neg h0, if_neg h0]
    dsimp only
    rw [← hword] at h0 ⊢
    rw [h.rsect (h.held hown hi h0).1]
    exact ⟨rfl, rfl, rfl, h, rfl⟩

/-- The part of a round of `iappend` that finds the block and reads it. -/
def fetch (m : DiskImage) (din : RawInode) (fbn : Nat) : Except MkfsExit (BitVec 32 × Block × RawInode × DiskImage) := do
  let (x, din, m) ← m.blockOf din fbn
  let buf ← m.rsect x
  .ok (x, buf, din, m)

theorem fetch_agrees (h : Shows m s) (hown : Volume.Own s T) (hi : s.Live T i) (hT : T i = din.dinode)
    (hfbn : fbn < MAXFILE) : Agree (Fetched m.freeinode) (fetch m din fbn) (s.bmap din.dinode fbn) := by
  unfold fetch blockOf Volume.bmap
  by_cases hdir : fbn < NDIRECT
  · rw [dif_pos hdir, dif_pos hdir]
    rcases h.fill din ⟨fbn, Nat.lt_succ_of_lt hdir⟩ with ⟨s', hs', hshows, hino⟩ | ⟨⟨e, he⟩, hr⟩
    · have hstep := Volume.bmapAddr_ends hown hi ⟨fbn, Nat.lt_succ_of_lt hdir⟩
      rw [hT, hs'] at hstep
      have hdata := hstep.mem_data hi
      have hread := hshows.rsect hdata
      rw [ofNat_toNat_eq] at hread
      rw [hs']
      dsimp only [bind, Except.bind]
      rw [hread]
      exact ⟨(ofNat_toNat_eq _).symm, rfl, rfl, hshows, hino⟩
    · rw [he]
      dsimp only [bind, Except.bind]
      rw [hr]
      exact True.intro
  · have hlt : fbn - NDIRECT < NINDIRECT := by
      unfold MAXFILE at hfbn
      unfold NDIRECT NINDIRECT
      omega
    rw [dif_neg hdir, dif_neg hdir, if_pos hlt]
    rcases h.fill din indirect with ⟨s', hs', hshows, hino⟩ | ⟨⟨e, he⟩, hr⟩
    · have hstep := Volume.bmapAddr_ends hown hi indirect
      rw [hT, hs'] at hstep
      have hw := hshows.word hstep.own (hstep.live hi) (Function.update_self ..) hstep.there ⟨fbn - NDIRECT, hlt⟩
      have hread := hshows.rsect (hstep.mem_data hi)
      rw [ofNat_toNat_eq] at hread
      rw [hread] at hw
      rw [hs', ← hino]
      dsimp only [bind, Except.bind] at hw ⊢
      rw [hread]
      exact hw
    · rw [he]
      dsimp only [bind, Except.bind]
      rw [hr]
      exact True.intro

theorem fetch_bind {α : Type} (m : DiskImage) (din : RawInode) (fbn : Nat)
    (K : BitVec 32 → Block → RawInode → DiskImage → Except MkfsExit α) :
    (do
      let (x, din, m) ← m.blockOf din fbn
      let buf ← m.rsect x
      K x buf din m) = fetch m din fbn >>= fun r => K r.1 r.2.1 r.2.2.1 r.2.2.2 := by
  unfold fetch
  cases m.blockOf din fbn with
  | error e => rfl
  | ok r =>
    obtain ⟨x, din', m'⟩ := r
    dsimp only [bind, Except.bind]
    cases m'.rsect x with
    | error e => rfl
    | ok buf => rfl

/-! ## Appending -/

/-- What the loops of `iappend` and `writei` have reached. -/
def Reached (n : Nat) (r : Nat × RawInode × DiskImage) (r' : Nat × Dinode × Volume) : Prop :=
  r.1 = r'.1 ∧ r.2.1.dinode = r'.2.1 ∧ Shows r.2.2 r'.2.2 ∧ r.2.2.freeinode = n

theorem appendLoop_agrees (p : Nat → BitVec 8) (fuel : Nat) {off tot n : Nat} (h : Shows m s) (hown : Volume.Own s T)
    (hi : s.Live T i) (hT : T i = din.dinode) (hmax : off + n ≤ MAXFILE * BSIZE) :
    Agree (Reached m.freeinode) (appendLoop p fuel m din off tot n) (Volume.writeLoop p fuel s din.dinode off tot n) := by
  induction fuel generalizing m s T din off tot n with
  | zero => exact ⟨rfl, rfl, h, rfl⟩
  | succ fuel ih =>
    unfold appendLoop Volume.writeLoop
    by_cases hpos : 0 < n
    · have hlt : off / BSIZE < MAXFILE := Volume.touched_lt hmax (Volume.mem_touched.2 ⟨0, hpos, rfl⟩)
      have hBS : off % BSIZE < BSIZE := Nat.mod_lt _ (by decide)
      have hoff : off - off / BSIZE * BSIZE = off % BSIZE := by
        unfold BSIZE
        omega
      have hleft : (off / BSIZE + 1) * BSIZE - off = BSIZE - off % BSIZE := by
        unfold BSIZE
        omega
      rw [if_pos hpos, if_pos hpos, if_pos hlt, hoff, hleft]
      have hbmap := Volume.bmap_ends hown hi hlt
      rw [hT] at hbmap
      generalize hn1 : min n (BSIZE - off % BSIZE) = n1
      have hround := fetch_bind m din (off / BSIZE) fun x buf din m => appendLoop p fuel
        (m.wsect x (Bytes.write buf (BitVec.ofNat 9 (off % BSIZE)) n1 fun k => p (tot + k))) din (off + n1) (tot + n1) (n - n1)
      refine (congrArg (Agree (Reached m.freeinode) · _) hround).mpr ?_
      refine (h.fetch_agrees hown hi hT hlt).bind hbmap fun r r' hr hb => ?_
      obtain ⟨x, buf, din', m'⟩ := r
      obtain ⟨addr, ip', s'⟩ := r'
      obtain ⟨hx, hbuf, hip, hshows, hino⟩ := hr
      dsimp only at hx hbuf hip hshows hino hb ⊢
      have hw : Volume.Wrote s T i p off tot n1 ip' _ := hb.wrote hi (by omega) (by omega) (by omega)
      have hlive : s'.Live (Function.update T i ip') i := hw.live hi
      have haddr : (Function.update T i ip' i).ptr s'.block (.data (off / BSIZE)) = addr := by
        rw [Function.update_self, hb.addr]
      have hheld := hshows.held hb.own hlive (haddr.trans_ne hb.there)
      rw [haddr] at hheld
      rw [hx, hbuf, ← hip, ← hino]
      refine ih (hshows.write (hshows.mem_data.1 hheld.1).1 hheld.2 _) hw.own hlive ?_ (by omega)
      rw [Function.update_self, hip]
    · rw [if_neg hpos, if_neg hpos]
      exact ⟨rfl, rfl, h, rfl⟩

/-- The assertion in the loop: what is appended ends before `MAXFILE` blocks do. -/
theorem appendLoop_bound (p : Nat → BitVec 8) (fuel : Nat) {off tot n : Nat} (hn : n ≤ fuel) (hpos : 0 < n) :
    Ends (fun _ => True) (appendLoop p fuel m din off tot n) fun _ => off + n ≤ MAXFILE * BSIZE := by
  induction fuel generalizing m din off tot n with
  | zero => omega
  | succ fuel ih =>
    unfold appendLoop
    rw [if_pos hpos]
    split
    · rename_i hlt
      refine Ends.bind .trivial fun r _ => ?_
      obtain ⟨x, din', m'⟩ := r
      refine Ends.bind .trivial fun buf _ => ?_
      dsimp only
      generalize hn1 : min n ((off / BSIZE + 1) * BSIZE - off) = n1
      have hsmall : off + n1 ≤ MAXFILE * BSIZE := by
        unfold BSIZE MAXFILE at *
        omega
      have hbig : 0 < n1 := by
        unfold BSIZE at *
        omega
      rcases Nat.eq_zero_or_pos (n - n1) with h0 | hrest
      · exact Ends.mono .trivial fun _ _ => by omega
      · refine (ih (by omega) hrest).mono fun _ hle => ?_
        omega
    · exact True.intro

/-- `iappend` does what `writei` does at the end of the file. -/
theorem iappend_agrees (p : Nat → BitVec 8) (h : Shows m s) (hf : Volume.File s s.dinode i)
    (hmax : (s.dinode i).size + n ≤ MAXFILE * BSIZE) :
    Agree (fun m' r => Shows m' r.2.2 ∧ m'.freeinode = m.freeinode) (m.iappend i p n)
      (s.writei i (s.dinode i) p (BitVec.ofNat 32 (s.dinode i).size) (BitVec.ofNat 32 n)) := by
  have hi : i < NINODES := by
    have := hf.live.1
    rwa [h.sb] at this
  have hbound : MAXFILE * BSIZE = 71680 := rfl
  have hoff : (BitVec.ofNat 32 (s.dinode i).size).toNat = (s.dinode i).size := by
    rw [BitVec.toNat_ofNat, Nat.mod_eq_of_lt (by omega)]
  have hn : (BitVec.ofNat 32 n).toNat = n := by rw [BitVec.toNat_ofNat, Nat.mod_eq_of_lt (by omega)]
  have hnowrap : ¬((s.dinode i).size < (BitVec.ofNat 32 (s.dinode i).size).toNat ∨
      BitVec.ofNat 32 (s.dinode i).size + BitVec.ofNat 32 n < BitVec.ofNat 32 (s.dinode i).size) := by
    rw [Volume.wraps_iff, hoff, hn]
    omega
  unfold iappend Volume.writei
  rw [if_neg hnowrap, Volume.toNat_add_of_not_wraps (by rw [hoff, hn]; omega), hoff, hn, if_neg (Nat.not_lt.2 hmax),
    rinode_eq hi]
  have hdin := h.dinode i hi
  have hloop : Agree (Reached m.freeinode) (appendLoop p n m (m.inode i) (s.dinode i).size 0 n)
      (Volume.writeLoop p n s (m.inode i).dinode (s.dinode i).size 0 n) :=
    appendLoop_agrees p n h hf.own hf.live hdin hmax
  rw [← hdin] at hloop
  have hsize : (m.inode i).size.toNat = (s.dinode i).size := by rw [hdin]; rfl
  dsimp only [bind, Except.bind]
  rw [hsize]
  refine hloop.bind (Volume.writeLoop_ends p n hf.own hf.live le_rfl hmax) fun r r' hr hw => ?_
  obtain ⟨off, din, m₁⟩ := r
  obtain ⟨off', ip, s₁⟩ := r'
  obtain ⟨hoff', hip, hshows, hino⟩ := hr
  obtain ⟨hlast, hw⟩ := hw
  dsimp only at hoff' hip hshows hino hlast hw ⊢
  subst hoff'
  obtain ⟨m₂, hm₂, hre⟩ := winode_ok (m := m₁) hi { din with size := BitVec.ofNat 32 off }
  have hnew : ({ din with size := BitVec.ofNat 32 off } : RawInode).dinode = { ip with size := off } := by
    rw [← hip]
    unfold RawInode.dinode
    dsimp only
    rw [BitVec.toNat_ofNat, Nat.mod_eq_of_lt (by omega)]
  rw [hm₂]
  obtain ⟨addrs, haddrs⟩ := hw.fields
  split
  · refine ⟨hshows.winode hre rfl rfl fun j _ => ?_, hre.freeinode.trans hino⟩
    rw [hnew]
    rfl
  · rename_i hsame
    -- nothing was appended, and the inode is written as it was
    obtain rfl : n = 0 := by
      rw [haddrs] at hsame
      dsimp only at hsame
      omega
    have hquiet : ip = s.dinode i := hw.quiet fun bn hbn => by
      obtain ⟨k, hk, -⟩ := Volume.mem_touched.1 hbn
      omega
    refine ⟨hshows.winode hre rfl rfl fun j _ => ?_, hre.freeinode.trans hino⟩
    rw [hnew, hquiet, hlast, hw.dinode]
    exact (congrFun (Function.update_eq_self i s.dinode) j).symm

theorem iappend_ends (p : Nat → BitVec 8) (h : Shows m s) (hf : Volume.File s s.dinode i) :
    Ends (fun _ => MAXFILE * BSIZE < (s.dinode i).size + n ∨
        0 < ∑ bn ∈ Volume.touched (s.dinode i).size n, s.missing (s.dinode i) bn ∧
        s.free.card < (s.dinode i).lack + ∑ bn ∈ Volume.touched (s.dinode i).size n, s.missing (s.dinode i) bn)
      (m.iappend i p n) fun m' => m'.freeinode = m.freeinode ∧
        ∃ ip' s', Shows m' s' ∧ Volume.Written s s.dinode i p (s.dinode i).size n ip' s' := by
  by_cases hmax : (s.dinode i).size + n ≤ MAXFILE * BSIZE
  · have hbound : MAXFILE * BSIZE = 71680 := rfl
    have hoff : (BitVec.ofNat 32 (s.dinode i).size).toNat = (s.dinode i).size := by
      rw [BitVec.toNat_ofNat, Nat.mod_eq_of_lt (by omega)]
    have hn : (BitVec.ofNat 32 n).toNat = n := by rw [BitVec.toNat_ofNat, Nat.mod_eq_of_lt (by omega)]
    have hends := (Volume.writei_ends p (BitVec.ofNat 32 (s.dinode i).size) (BitVec.ofNat 32 n) hf).1
    rw [hoff, hn] at hends
    have hboth := (iappend_agrees p h hf hmax).ends (hends ⟨le_rfl, by omega, hmax⟩)
    refine Ends.mono (Ends.weaken hboth ?_) ?_
    · rintro _ ⟨e, -, hfew⟩
      exact .inr hfew
    · rintro m' ⟨r, ⟨hshows, hino⟩, -, hw⟩
      exact ⟨hino, r.2.1, r.2.2, hshows, hw⟩
  · have hi : i < NINODES := by
      have := hf.live.1
      rwa [h.sb] at this
    have hsize : (m.inode i).size.toNat = (s.dinode i).size := by rw [h.dinode i hi]; rfl
    have hlong : MAXFILE * BSIZE < (s.dinode i).size + n := Nat.not_le.1 hmax
    have hbound : Ends (fun _ => True) (appendLoop p n m (m.inode i) (s.dinode i).size 0 n) fun _ =>
        (s.dinode i).size + n ≤ MAXFILE * BSIZE := appendLoop_bound p n le_rfl (by have := hf.size; omega)
    have hloop := hbound.weaken (E := fun _ => MAXFILE * BSIZE < (s.dinode i).size + n ∨
        0 < ∑ bn ∈ Volume.touched (s.dinode i).size n, s.missing (s.dinode i) bn ∧
        s.free.card < (s.dinode i).lack + ∑ bn ∈ Volume.touched (s.dinode i).size n, s.missing (s.dinode i) bn)
      fun _ _ => .inl hlong
    unfold iappend
    rw [rinode_eq hi]
    dsimp only [bind, Except.bind]
    rw [hsize]
    exact hloop.bind fun r hr => absurd hr hmax

end Shows

end DiskImage

end Xv6
