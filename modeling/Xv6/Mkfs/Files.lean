import Xv6.Mkfs.Simulation
/-!
# Adding files to an image

`mkfs` starts from an empty disk and adds the root directory and the files one
by one. After each piece the image shows a disk without holes, whose root
directory has the entries added so far and whose files have what was read so
far.
-/

namespace Xv6

open Outcome

theorem getElem?_concat_cases {α : Type} {l : List α} {x v : α} {k : Nat} (h : (l ++ [x])[k]? = some v) :
    k < l.length ∧ l[k]? = some v ∨ k = l.length ∧ v = x := by
  rcases Nat.lt_or_ge k l.length with hlt | hge
  · rw [List.getElem?_append_left hlt] at h
    exact .inl ⟨hlt, h⟩
  · rw [List.getElem?_append_right hge, List.getElem?_singleton] at h
    split at h
    · exact .inr ⟨by omega, (Option.some.inj h).symm⟩
    · cases h

namespace Volume

variable {s s' : Volume} {T T' : Nat → Dinode} {dp : Dinode} {i : Nat}

/-! ## A directory that is left alone -/

theorem dirent_congr (h : s'.content dp = s.content dp) : s'.dirent dp = s.dirent dp := by
  unfold dirent
  rw [h]

theorem names_congr (h : s'.content dp = s.content dp) : s'.Names dp = s.Names dp := by
  unfold Names
  rw [dirent_congr h]

theorem dirMap_congr (h : s'.content dp = s.content dp) (nm : List (BitVec 8)) : s'.dirMap dp nm = s.dirMap dp nm := by
  unfold dirMap
  simp only [names_congr h, dirent_congr h]

theorem bytes_congr (h : s'.content dp = s.content dp) : s'.bytes dp = s.bytes dp := by
  unfold bytes
  rw [h]

theorem Dir.keep (hd : Dir s T i) (hown : Own s' T') (hsb : s'.sb = s.sb) (hT : T' i = T i)
    (hptr : ∀ y, (T i).ptr s'.block y = (T i).ptr s.block y) (hcont : s'.content (T i) = s.content (T i)) :
    Dir s' T' i := by
  have hlive : s'.Live T' i := by
    have := hd.live
    unfold Live at this ⊢
    rwa [hsb, hT]
  refine { own := hown, live := hlive, plain := ?_, size := ?_, backed := ?_, dir := ?_, whole := ?_, nodup := ?_ }
  · rw [hT]
    exact hd.plain
  · rw [hT]
    exact hd.size
  · rw [hT]
    intro bn hbn
    rw [hptr]
    exact hd.backed bn hbn
  · rw [hT]
    exact hd.dir
  · rw [hT]
    exact hd.whole
  · rw [hT, names_congr hcont]
    exact hd.nodup

/-! ## The root directory -/

/-- The root directory has the entries `l`, and nothing behind them. -/
structure Root (s : Volume) (l : List (List (BitVec 8) × Nat)) : Prop where
  dir : Dir s s.dinode ROOTINO.val
  size : (s.dinode ROOTINO.val).size = DIRENT * l.length
  bare : ∀ bn, bn < MAXFILE → DIRENT * l.length ≤ bn * BSIZE → (s.dinode ROOTINO.val).ptr s.block (.data bn) = 0
  tail : ∀ p, p / BSIZE < MAXFILE → DIRENT * l.length ≤ p → s.content (s.dinode ROOTINO.val) p = 0
  found : ∀ k nm inum, l[k]? = some (nm, inum) → s.dirMap (s.dinode ROOTINO.val) nm = some (inum, DIRENT * k)
  absent : ∀ nm, (∀ e ∈ l, e.1 ≠ nm) → s.dirMap (s.dinode ROOTINO.val) nm = none

variable {l : List (List (BitVec 8) × Nat)}

theorem Root.keep (h : Root s l) (hown : Own s' s'.dinode) (hsb : s'.sb = s.sb)
    (hT : s'.dinode ROOTINO.val = s.dinode ROOTINO.val)
    (hptr : ∀ y, (s.dinode ROOTINO.val).ptr s'.block y = (s.dinode ROOTINO.val).ptr s.block y)
    (hcont : s'.content (s.dinode ROOTINO.val) = s.content (s.dinode ROOTINO.val)) : Root s' l := by
  refine ⟨h.dir.keep hown hsb hT hptr hcont, ?_, ?_, ?_, ?_, ?_⟩
  · rw [hT]
    exact h.size
  · intro bn hbn hle
    rw [hT, hptr]
    exact h.bare bn hbn hle
  · intro p hp hle
    rw [hT, hcont]
    exact h.tail p hp hle
  · intro k nm inum hk
    rw [hT, dirMap_congr hcont]
    exact h.found k nm inum hk
  · intro nm hnm
    rw [hT, dirMap_congr hcont]
    exact h.absent nm hnm

/-- One entry more. -/
theorem Root.append {name : CString} {inum : Nat} {ip' : Dinode} (h : Root s l) (hinum : 0 < inum ∧ inum < 2 ^ 16)
    (hnew : ∀ e ∈ l, e.1 ≠ key name DIRSIZ)
    (hw : Written s s.dinode ROOTINO.val (RawDirent.mk inum fun j => (strncpy name DIRSIZ).getD j 0).bytes
      (s.dinode ROOTINO.val).size DIRENT ip' s') : Root s' (l ++ [(key name DIRSIZ, inum)]) := by
  have hdisk : s'.dinode ROOTINO.val = ip' := by rw [hw.disk, Function.update_self]
  have hent : entries (s.dinode ROOTINO.val) = l.length := by
    unfold entries
    rw [h.size, Nat.mul_div_cancel_left _ (by decide)]
  rw [h.size] at hw
  obtain ⟨hdir, hmap⟩ := hw.link h.dir hinum hent.ge (fun hlt => absurd hlt (by omega)) (h.absent _ hnew)
  have hsize := hw.size
  have hlen : DIRENT * (l ++ [(key name DIRSIZ, inum)]).length = DIRENT * l.length + DIRENT := by
    rw [List.length_append, List.length_singleton, Nat.mul_succ]
  refine ⟨?_, ?_, ?_, ?_, ?_, ?_⟩
  · rw [hw.disk]
    exact hdir
  · rw [hdisk, hsize, hlen, h.size]
    omega
  · intro bn hbn hle
    rw [hlen] at hle
    rw [hdisk, hw.rest bn hbn]
    · exact h.bare bn hbn (by omega)
    · intro hin
      obtain ⟨k, hk, hkbn⟩ := mem_touched.1 hin
      have : bn * BSIZE ≤ DIRENT * l.length + k := hkbn ▸ Nat.div_mul_le_self ..
      omega
  · intro p hp hle
    rw [hlen] at hle
    rw [hdisk]
    exact hw.tail p hp hle (h.tail p hp (by omega))
  · intro k nm v hk
    rw [hdisk, hmap]
    rcases getElem?_concat_cases hk with ⟨-, hk⟩ | ⟨hlast, heq⟩
    · have hne : nm ≠ key name DIRSIZ := hnew _ (List.mem_of_getElem? hk)
      rw [Function.update_of_ne hne]
      exact h.found k nm v hk
    · obtain ⟨rfl, rfl⟩ := Prod.mk.inj heq
      rw [Function.update_self, hlast]
  · intro nm hnm
    rw [hdisk, hmap, Function.update_of_ne]
    · exact h.absent nm fun e he => hnm e (List.mem_append_left _ he)
    · exact fun heq => hnm _ (List.mem_append_right _ (List.mem_singleton_self _)) heq.symm

end Volume

/-! ## The free map -/

/-- The loop of `balloc` marks the first `n` blocks. -/
theorem Block.bit_first (n : Nat) {b : Nat} (hn : n ≤ BPB) (hb : b < BPB) :
    ((List.range n).foldl Block.setBit fun _ => 0).bit b = decide (b < n) := by
  induction n with
  | zero =>
    rw [Block.bit_eq]
    simp
  | succ n ih =>
    rw [List.range_succ, List.foldl_append, List.foldl_cons, List.foldl_nil, bit_setBit (by omega) hb, ih (by omega),
      ← Bool.decide_or]
    exact decide_eq_decide.2 (by omega)

namespace DiskImage

variable {m m' : DiskImage} {s s' : Volume} {i b : Nat} {l : List (List (BitVec 8) × Nat)}
  {fs : List (List (BitVec 8) × List (BitVec 8))}

theorem used_eq_bit (hsb : s.sb = mkfsSuper) (hb : b < FSSIZE) : s.used b = (s.block (nmeta - 1)).bit b := by
  have hlt : b < BPB := Nat.lt_trans hb (by decide)
  unfold Volume.used Super.BBLOCK
  rw [hsb, Nat.mod_eq_of_lt hlt, Nat.div_eq_of_lt hlt]
  rfl

/-- The disk at the start: only the blocks that hold no data are marked. -/
def zeroVolume : Volume where
  sb := mkfsSuper
  block := fun b => if b = nmeta - 1 then (List.range nmeta).foldl Block.setBit fun _ => 0 else fun _ => 0
  dinode := fun _ => ⟨.free, 0, 0, 0, 0, fun _ => 0⟩
  logged := ∅

theorem zeroVolume_used (hb : b < FSSIZE) : zeroVolume.used b = decide (b < nmeta) := by
  rw [used_eq_bit rfl hb]
  exact (congrArg (Block.bit · b) (if_pos rfl)).trans (Block.bit_first nmeta (by decide) (Nat.lt_trans hb (by decide)))

theorem zeroVolume_pt (p : Nat × Place) : zeroVolume.pt zeroVolume.dinode p = 0 := if_neg fun h => h.2 rfl

theorem zeroVolume_sound : Volume.Sound zeroVolume := by
  have hfirst : zeroVolume.sb.first = nmeta := rfl
  refine ⟨⟨⟨fun p hp => absurd (zeroVolume_pt p) hp, fun p q _ hp => absurd (zeroVolume_pt p) hp, fun b hb => ?_⟩,
    fun b hb hlt => ?_, show 1000 < 2 ^ 32 by decide⟩, fun i hi => absurd rfl hi.2⟩
  · refine ⟨fun hused => ?_, fun ⟨p, hp⟩ => ?_⟩
    · have : zeroVolume.used b = true := hused
      rw [zeroVolume_used hb.2, decide_eq_true_eq] at this
      exact absurd hb.1 (Nat.not_le.2 this)
    · rw [zeroVolume_pt] at hp
      exact absurd hb (hp ▸ Volume.zero_not_data _)
  · exact (zeroVolume_used hlt).trans (decide_eq_true hb)

theorem zeroed_shows : Shows zeroed zeroVolume := by
  have hmeta : nmeta = 59 := rfl
  have hsect : zeroed.sect = Function.update (fun _ _ => 0) 1 (Block.setWords (fun _ => 0) 0 sbWords) := rfl
  have hzero : ∀ b, b ≠ 1 → zeroed.sect b = fun _ => 0 := fun b hb => by rw [hsect, Function.update_of_ne hb]
  refine
    { sb := rfl
      super := by rw [hsect, Function.update_self]
      block := fun b hb _ => ?_
      dinode := fun i _ => ?_
      marked := fun b hb => ?_
      lower := le_rfl
      upper := by decide
      zero := fun b hb _ => hzero b ?_ }
  · rw [hzero b (by omega)]
    exact if_neg (by omega)
  · have hle : 32 ≤ mkfsSuper.IBLOCK i := Nat.le_add_left ..
    unfold inode
    rw [hzero _ (by omega), Block.inode_zero]
    rfl
  · change zeroVolume.used b = true ↔ _
    rw [zeroVolume_used hb, decide_eq_true_eq]
    rfl
  · have : zeroed.freeblock = 59 := rfl
    omega

/-! ## Adding files -/

/-- The image shows a disk without holes: the root directory has the entries `l`, and the inodes from 2 on are
files with the contents given in `fs`. -/
structure Built (m : DiskImage) (l : List (List (BitVec 8) × Nat)) (fs : List (List (BitVec 8) × List (BitVec 8)))
    (s : Volume) : Prop where
  shows : Shows m s
  next : m.freeinode = fs.length + 2
  sound : Volume.Sound s
  unused : ∀ i, m.freeinode ≤ i → i < NINODES → (s.dinode i).type = .free
  root : Volume.Root s l
  file : ∀ k f, fs[k]? = some f →
    s.Live s.dinode (k + 2) ∧ (s.dinode (k + 2)).type = .file ∧ s.bytes (s.dinode (k + 2)) = f.2

/-- `iappend` to an inode that is allocated, with a bound for the blocks it takes. -/
theorem append_ends (p : Nat → BitVec 8) (n : Nat) (h : Shows m s) (hs : Volume.Sound s)
    (hi : s.Live s.dinode i ∧ (s.dinode i).type ≠ .dev) :
    Ends (fun _ => MAXFILE * BSIZE < (s.dinode i).size + n ∨ s.free.card < n / BSIZE + 3) (m.iappend i p n) fun m' =>
      m'.freeinode = m.freeinode ∧ ∃ ip' s', Shows m' s' ∧ Volume.Sound s' ∧
        Volume.Written s s.dinode i p (s.dinode i).size n ip' s' ∧ s.free.card ≤ s'.free.card + (n / BSIZE + 3) := by
  have hmiss := Volume.sum_missing_le (s := s) (s.dinode i) (s.dinode i).size n
  have hlack := Volume.lack_le (s.dinode i)
  refine Ends.mono (Ends.weaken (h.iappend_ends p (hs.file hi)) ?_) ?_
  · rintro _ (hlong | ⟨-, hfew⟩)
    · exact .inl hlong
    · exact .inr (by omega)
  · rintro m' ⟨hino, ip', s', hshows, hw⟩
    have hroom := hw.room
    exact ⟨hino, ip', s', hshows, hs.written hw, hw, by omega⟩

/-- `ialloc` takes the next inode. -/
theorem Shows.ialloc (h : Shows m s) (hi : m.freeinode < NINODES) (t : BitVec 16) :
    ∃ m', m.ialloc t = .ok (m.freeinode, m') ∧ m'.freeinode = m.freeinode + 1 ∧
      Shows m' (s.iupdate m.freeinode ⟨.ofShort t, 0, 0, 1, 0, fun _ => 0⟩) := by
  have hshows : Shows { m with freeinode := m.freeinode + 1 } s :=
    ⟨h.sb, h.super, h.block, h.dinode, h.marked, h.lower, h.upper, h.zero⟩
  obtain ⟨m', hm', hre⟩ := winode_ok (m := { m with freeinode := m.freeinode + 1 }) hi ⟨t, 0, 0, 1, 0, fun _ => 0⟩
  refine ⟨m', ?_, hre.freeinode, hshows.winode hre rfl rfl fun j _ => rfl⟩
  unfold DiskImage.ialloc
  rw [hm']
  rfl

theorem Built.root_live (h : Built m l fs s) : s.Live s.dinode ROOTINO.val ∧ (s.dinode ROOTINO.val).type ≠ .dev :=
  ⟨h.root.dir.live, h.root.dir.plain⟩

/-- The inode of one more file, which is empty. -/
theorem Built.ialloc (h : Built m l fs s) (hlt : fs.length + 2 < NINODES) (nm : List (BitVec 8)) :
    ∃ m' s', m.ialloc T_FILE = .ok (fs.length + 2, m') ∧ Built m' l (fs ++ [(nm, [])]) s' ∧ s'.free = s.free := by
  have hi : m.freeinode < NINODES := h.next ▸ hlt
  obtain ⟨m', hm', hino, hshows⟩ := h.shows.ialloc hi T_FILE
  rw [← h.next]
  have hne : ROOTINO.val ≠ m.freeinode := by
    rw [h.next]
    exact Nat.ne_of_lt (Nat.succ_lt_succ (Nat.succ_pos _))
  have hother : ∀ j, j ≠ m.freeinode →
      (s.iupdate m.freeinode ⟨.ofShort T_FILE, 0, 0, 1, 0, fun _ => 0⟩).dinode j = s.dinode j := fun j hj =>
    Function.update_of_ne hj ..
  have hself : (s.iupdate m.freeinode ⟨.ofShort T_FILE, 0, 0, 1, 0, fun _ => 0⟩).dinode m.freeinode =
      ⟨.ofShort T_FILE, 0, 0, 1, 0, fun _ => 0⟩ := Function.update_self ..
  have hsound : Volume.Sound (s.iupdate m.freeinode ⟨.ofShort T_FILE, 0, 0, 1, 0, fun _ => 0⟩) :=
    h.sound.replace (i := m.freeinode) rfl rfl rfl (fun x => if_neg fun hl => hl.2 (h.unused _ le_rfl hi)) rfl rfl
  refine ⟨m', _, hm', ⟨hshows, ?_, hsound, fun j hj hjlt => ?_, ?_, fun k f hk => ?_⟩, rfl⟩
  · rw [hino, h.next, List.length_append, List.length_singleton]
  · rw [hino] at hj
    rw [hother j (by omega)]
    exact h.unused j (by omega) hjlt
  · exact h.root.keep hsound.own rfl (hother _ hne) (fun _ => rfl) rfl
  · rcases getElem?_concat_cases hk with ⟨hkl, hk⟩ | ⟨hlast, rfl⟩
    · obtain ⟨hlive, htype, hbytes⟩ := h.file k f hk
      have hkn : k + 2 ≠ m.freeinode := by
        rw [h.next]
        omega
      unfold Volume.Live
      rw [hother _ hkn]
      exact ⟨hlive, htype, hbytes⟩
    · have hkn : k + 2 = m.freeinode := by rw [h.next, hlast]
      rw [hkn, hself]
      refine ⟨⟨?_, ?_⟩, rfl, rfl⟩
      · rw [show (s.iupdate m.freeinode ⟨.ofShort T_FILE, 0, 0, 1, 0, fun _ => 0⟩).sb = s.sb from rfl, h.shows.sb]
        exact hi
      · rw [hself]
        decide

/-- What is left alone when inode `i` is written. -/
theorem Built.unused_written {src : Nat → BitVec 8} {off n : Nat} {ip' : Dinode} (h : Built m l fs s)
    (hw : Volume.Written s s.dinode i src off n ip' s') (hi : i < m.freeinode) (j : Nat) (hj : m.freeinode ≤ j)
    (hlt : j < NINODES) : (s'.dinode j).type = .free := by
  rw [hw.dinode j (by omega)]
  exact h.unused j hj hlt

theorem Built.file_written {src : Nat → BitVec 8} {off n k : Nat} {ip' : Dinode}
    {f : List (BitVec 8) × List (BitVec 8)} (h : Built m l fs s) (hw : Volume.Written s s.dinode i src off n ip' s')
    (hk : fs[k]? = some f) (hi : k + 2 ≠ i) :
    s'.Live s'.dinode (k + 2) ∧ (s'.dinode (k + 2)).type = .file ∧ s'.bytes (s'.dinode (k + 2)) = f.2 := by
  obtain ⟨hlive, htype, hbytes⟩ := h.file k f hk
  have hcont := hw.other _ hi hlive
  unfold Volume.Live
  rw [hw.dinode _ hi, Volume.bytes_congr hcont, hw.sb]
  exact ⟨hlive, htype, hbytes⟩

/-- One more entry in the root directory. -/
theorem Built.entry (inum : Nat) (name : CString) (h : Built m l fs s) (hinum : 0 < inum ∧ inum < 2 ^ 16)
    (hnew : ∀ e ∈ l, e.1 ≠ key name DIRSIZ) (hlen : l.length < NINODES) :
    Ends (fun _ => s.free.card < 3)
      (m.iappend ROOTINO.val (RawDirent.mk inum fun j => (strncpy name DIRSIZ).getD j 0).bytes DIRENT) fun m' =>
      ∃ s', Built m' (l ++ [(key name DIRSIZ, inum)]) fs s' ∧ s.free.card ≤ s'.free.card + 3 := by
  have hlen' : l.length < 200 := hlen
  have hsize := h.root.size
  have hmax : MAXFILE * BSIZE = 71680 := rfl
  have hone : ROOTINO.val = 1 := rfl
  refine Ends.mono (Ends.weaken (append_ends _ DIRENT h.shows h.sound h.root_live) ?_) ?_
  · rintro _ (hlong | hfew)
    · rw [hsize] at hlong
      unfold DIRENT at hlong
      omega
    · exact hfew
  · rintro m' ⟨hino, ip', s', hshows, hsound, hw, hroom⟩
    refine ⟨s', ⟨hshows, hino.trans h.next, hsound, fun j hj hlt => ?_, h.root.append hinum hnew hw, fun k f hk => ?_⟩, hroom⟩
    · rw [hino] at hj
      exact h.unused_written hw (by rw [h.next]; omega) j hj hlt
    · exact h.file_written hw hk (by omega)

theorem map_cstring (buf : List (BitVec 8)) : (List.range buf.length).map (cstring buf) = buf := by
  refine List.ext_getElem (by simp) fun k hk hk' => ?_
  rw [List.getElem_map, List.getElem_range, cstring, List.getD_eq_getElem _ _ hk']

/-- More bytes for the last file. -/
theorem Built.chunk {nm c : List (BitVec 8)} (buf : List (BitVec 8)) (h : Built m l (fs ++ [(nm, c)]) s) :
    Ends (fun _ => MAXFILE * BSIZE < c.length + buf.length ∨ s.free.card < buf.length / BSIZE + 3)
      (m.iappend (fs.length + 2) (cstring buf) buf.length) fun m' =>
      ∃ s', Built m' l (fs ++ [(nm, c ++ buf)]) s' ∧ s.free.card ≤ s'.free.card + (buf.length / BSIZE + 3) := by
  obtain ⟨hlive, htype, hbytes⟩ := h.file fs.length (nm, c) List.getElem?_concat_length
  have hsize : (s.dinode (fs.length + 2)).size = c.length := by
    rw [← Volume.length_bytes (s := s), hbytes]
  have hne : ROOTINO.val ≠ fs.length + 2 := Nat.ne_of_lt (Nat.succ_lt_succ (Nat.succ_pos _))
  have hplain : (s.dinode (fs.length + 2)).type ≠ .dev := by
    rw [htype]
    decide
  have happend := append_ends (cstring buf) buf.length h.shows h.sound ⟨hlive, hplain⟩
  rw [hsize] at happend
  refine happend.mono ?_
  rintro m' ⟨hino, ip', s', hshows, hsound, hw, hroom⟩
  have hnext := h.next
  rw [List.length_append, List.length_singleton] at hnext
  have hself : s'.dinode (fs.length + 2) = ip' := by rw [hw.disk, Function.update_self]
  refine ⟨s', ⟨hshows, ?_, hsound, fun j hj hlt => ?_, ?_, fun k f hk => ?_⟩, hroom⟩
  · rw [hino, hnext, List.length_append, List.length_singleton]
  · rw [hino] at hj
    exact h.unused_written hw (by omega) j hj hlt
  · exact h.root.keep hsound.own hw.sb (hw.dinode _ hne) (hw.ptr _ hne h.root_live.1) (hw.other _ hne h.root_live.1)
  · rcases getElem?_concat_cases hk with ⟨hkl, hk⟩ | ⟨rfl, rfl⟩
    · exact h.file_written hw ((List.getElem?_append_left hkl).trans hk) (by omega)
    · have hf := hw.file
      rw [← hw.disk] at hf
      obtain ⟨addrs, hip⟩ := hw.fields
      refine ⟨hf.live, ?_, ?_⟩
      · rw [hself, hip]
        exact htype
      · rw [hself, hw.bytes_eq hsize.ge, map_cstring, hbytes, List.take_of_length_le le_rfl,
          List.drop_eq_nil_of_le (Nat.le_add_right ..), List.append_nil]

/-- Enough blocks for what `read` gives, and for a file with its entry. -/
def readsCost (bufs : List (List (BitVec 8))) : Nat := (bufs.map fun buf => buf.length / BSIZE + 3).sum

def fileCost (f : InFile) : Nat := 3 + readsCost f.reads

theorem appendReads_ends {nm c : List (BitVec 8)} (bufs : List (List (BitVec 8))) (h : Built m l (fs ++ [(nm, c)]) s) :
    Ends (fun _ => MAXFILE * BSIZE < c.length + bufs.flatten.length ∨ s.free.card < readsCost bufs)
      (appendReads (fs.length + 2) bufs m) fun m' =>
      ∃ s', Built m' l (fs ++ [(nm, c ++ bufs.flatten)]) s' ∧ s.free.card ≤ s'.free.card + readsCost bufs := by
  induction bufs generalizing m s c with
  | nil =>
    rw [List.flatten_nil, List.append_nil]
    exact ⟨s, h, Nat.le_add_right ..⟩
  | cons buf bufs ih =>
    have hcost : readsCost (buf :: bufs) = buf.length / BSIZE + 3 + readsCost bufs := List.sum_cons
    rw [hcost, List.flatten_cons, List.length_append]
    have hfirst := (h.chunk buf).weaken (E := fun _ => MAXFILE * BSIZE < c.length + (buf.length + bufs.flatten.length) ∨
      s.free.card < buf.length / BSIZE + 3 + readsCost bufs) fun _ he => by omega
    refine hfirst.bind fun m₁ h₁ => ?_
    obtain ⟨s₁, hbuilt, hroom⟩ := h₁
    refine Ends.mono (Ends.weaken (ih hbuilt) ?_) ?_
    · intro _ he
      rw [List.length_append] at he
      omega
    · rintro m₂ ⟨s₂, hbuilt₂, hroom₂⟩
      rw [List.append_assoc] at hbuilt₂
      exact ⟨s₂, hbuilt₂, by omega⟩

/-- The entries of the root directory. -/
def rootEntries (fs : List (List (BitVec 8) × List (BitVec 8))) : List (List (BitVec 8) × Nat) :=
  (key Volume.dot DIRSIZ, ROOTINO.val) :: (key Volume.dotdot DIRSIZ, ROOTINO.val) ::
    fs.mapIdx fun k f => (f.1.take DIRSIZ, k + 2)

theorem rootEntries_concat (fs : List (List (BitVec 8) × List (BitVec 8))) (f : List (BitVec 8) × List (BitVec 8)) :
    rootEntries (fs ++ [f]) = rootEntries fs ++ [(f.1.take DIRSIZ, fs.length + 2)] := by
  unfold rootEntries
  rw [List.mapIdx_concat]
  rfl

theorem length_rootEntries : (rootEntries fs).length = fs.length + 2 := by
  unfold rootEntries
  rw [List.length_cons, List.length_cons, List.length_mapIdx]

theorem key_cstring (nm : List (BitVec 8)) (n : Nat) (h0 : 0 ∉ nm) : key (cstring nm) n = nm.take n := by
  induction n generalizing nm with
  | zero => rfl
  | succ n ih =>
    cases nm with
    | nil => exact if_pos rfl
    | cons a nm =>
      have ha : a ≠ 0 := fun heq => h0 (heq ▸ List.mem_cons_self ..)
      refine (if_neg ha).trans (congrArg (a :: ·) (ih nm fun hmem => h0 (List.mem_cons_of_mem _ hmem)))

theorem zero_notMem_target (f : InFile) : 0 ∉ f.target := by
  unfold InFile.target
  split
  · exact fun h => f.terminated (List.mem_of_mem_tail h)
  · exact f.terminated

def Refused (f : InFile) : Prop := 47 ∈ f.name ∨ MAXFILE * BSIZE < f.contents.length

theorem addFile_ends (f : InFile) (h : Built m (rootEntries fs) fs s) (hlt : fs.length + 2 < NINODES)
    (hnew : f.target.take DIRSIZ ∉ (rootEntries fs).map Prod.fst) :
    Ends (fun _ => Refused f ∨ s.free.card < fileCost f) (m.addFile f) fun m' =>
      ∃ s', Built m' (rootEntries (fs ++ [(f.target, f.contents)])) (fs ++ [(f.target, f.contents)]) s' ∧
        s.free.card ≤ s'.free.card + fileCost f := by
  have hnum : fs.length + 2 < 200 := hlt
  have hcost : fileCost f = 3 + readsCost f.reads := rfl
  unfold addFile
  split
  · rename_i hslash
    exact .inl (.inl hslash)
  · obtain ⟨m₁, s₁, hm₁, hbuilt₁, hfree⟩ := h.ialloc hlt f.target
    have hkey := key_cstring f.target DIRSIZ (zero_notMem_target f)
    rw [hm₁]
    have hent := (hbuilt₁.entry (fs.length + 2) (cstring f.target) ⟨by omega, by omega⟩ (fun e he heq => hnew (by
      rw [← hkey, ← heq]
      exact List.mem_map_of_mem he)) (by rw [length_rootEntries]; exact hlt)).weaken
        (E := fun _ => Refused f ∨ s.free.card < fileCost f) fun _ he => .inr (by rw [← hfree]; omega)
    refine hent.bind fun m₂ h₂ => ?_
    obtain ⟨s₂, hbuilt₂, hroom₂⟩ := h₂
    have hroot := rootEntries_concat fs (f.target, f.contents)
    rw [hkey, ← hroot] at hbuilt₂
    refine Ends.mono (Ends.weaken (appendReads_ends f.reads hbuilt₂) ?_) ?_
    · rintro _ (hlong | hfew)
      · rw [List.length_nil, Nat.zero_add] at hlong
        exact .inl (.inr hlong)
      · rw [hfree] at hroom₂
        exact .inr (by omega)
    · rintro m₃ ⟨s₃, hbuilt₃, hroom₃⟩
      rw [hfree] at hroom₂
      exact ⟨s₃, hbuilt₃, by omega⟩

/-- Names and contents of the files that are added. -/
def added (files : List InFile) : List (List (BitVec 8) × List (BitVec 8)) := files.map fun f => (f.target, f.contents)

theorem addFiles_ends (files : List InFile) (h : Built m (rootEntries fs) fs s)
    (hlen : fs.length + files.length + 1 < NINODES)
    (hnodup : ((rootEntries fs).map Prod.fst ++ files.map fun f => f.target.take DIRSIZ).Nodup) :
    Ends (fun _ => (∃ f ∈ files, Refused f) ∨ s.free.card < (files.map fileCost).sum) (addFiles files m) fun m' =>
      ∃ s', Built m' (rootEntries (fs ++ added files)) (fs ++ added files) s' := by
  induction files generalizing m s fs with
  | nil =>
    rw [show added [] = [] from rfl, List.append_nil]
    exact ⟨s, h⟩
  | cons f files ih =>
    rw [List.length_cons] at hlen
    rw [List.map_cons, List.sum_cons]
    have hnew : f.target.take DIRSIZ ∉ (rootEntries fs).map Prod.fst := fun hmem =>
      (List.nodup_append.1 hnodup).2.2 _ hmem _ (List.mem_map_of_mem (List.mem_cons_self ..)) rfl
    have hfirst := (addFile_ends f h (by omega) hnew).weaken (E := fun _ => (∃ g ∈ f :: files, Refused g) ∨
      s.free.card < fileCost f + (files.map fileCost).sum) fun _ he =>
        he.imp (fun hr => ⟨f, List.mem_cons_self .., hr⟩) fun hfew => by omega
    refine hfirst.bind fun m₁ h₁ => ?_
    obtain ⟨s₁, hbuilt, hroom⟩ := h₁
    have hnodup' : ((rootEntries (fs ++ [(f.target, f.contents)])).map Prod.fst ++
        files.map fun f => f.target.take DIRSIZ).Nodup := by
      rw [rootEntries_concat, List.map_append, List.append_assoc]
      exact hnodup
    have hrest := ih hbuilt (by rw [List.length_append, List.length_singleton]; omega) hnodup'
    rw [List.append_assoc] at hrest
    refine hrest.weaken fun _ he => he.imp (fun ⟨g, hg, hr⟩ => ⟨g, List.mem_cons_of_mem _ hg, hr⟩) fun hfew => ?_
    omega

end DiskImage

end Xv6
