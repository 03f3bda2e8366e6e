import Xv6.Mkfs.Files
/-!
# The image is well formed

At the end `mkfs` rounds the size of the root directory up and writes the free
map. The kernel then finds every file, with two exceptions that are not
checked: `freeinode` may pass `NINODES`, and if the last block of the root
directory is full its size is rounded up to one block more than there is.
-/

namespace Xv6

open Outcome

namespace Volume

variable {s V : Volume} {i : Nat}

/-! ## Two views of one disk -/

/-- `V` has the inodes, the data and the free map of `s`. -/
structure Same (s V : Volume) : Prop where
  sb : V.sb = s.sb
  block : ∀ b ∈ s.sb.dataArea, V.block b = s.block b
  dinode : ∀ i, i < s.sb.ninodes → V.dinode i = s.dinode i
  used : ∀ b, b < s.sb.size → V.used b = s.used b

theorem Same.live (h : Same s V) : V.Live V.dinode i ↔ s.Live s.dinode i := by
  unfold Live
  rw [h.sb]
  exact and_congr_right fun hi => by rw [h.dinode i hi]

theorem Same.ptr (h : Same s V) (hown : Own s s.dinode) (hi : s.Live s.dinode i) (x : Place) :
    (V.dinode i).ptr V.block x = (s.dinode i).ptr s.block x := by
  rw [h.dinode i hi.1]
  exact ptr_congr (fun hne => h.block _ (hown.mem_data (x := .addr indirect) hi hne)) x

theorem Same.content (h : Same s V) (hown : Own s s.dinode) (hi : s.Live s.dinode i) :
    V.content (V.dinode i) = s.content (s.dinode i) := by
  funext p
  have hptr := h.ptr hown hi (.data (p / BSIZE))
  unfold Volume.content
  rw [hptr]
  by_cases h0 : (s.dinode i).ptr s.block (.data (p / BSIZE)) = 0
  · rw [if_pos h0, if_pos h0]
  · rw [if_neg h0, if_neg h0, h.block _ (hown.mem_data hi h0)]

theorem Same.own (h : Same s V) (hown : Own s s.dinode) : Own V V.dinode := by
  have hmark : ∀ b, b < s.sb.size → (b ∈ V.marked ↔ b ∈ s.marked) := fun b hb => Bool.eq_iff_iff.1 (h.used b hb)
  refine ⟨?_, fun b hb hlt => ?_, ?_⟩
  · rw [h.sb]
    refine hown.toOwns.congr (fun p => ?_) fun b hb => hmark b hb.2
    obtain ⟨j, x⟩ := p
    exact pt_congr h.live fun hj => h.ptr hown hj x
  · rw [h.sb] at hb hlt
    exact (hmark b hlt).2 (hown.reserved b hb hlt)
  · rw [h.sb]
    exact hown.small

theorem Same.sound (h : Same s V) (hs : Sound s) : Sound V := by
  refine ⟨h.own hs.own, fun i hi => ?_⟩
  have hi' := h.live.1 hi
  exact (hs.solid i hi').congr (by rw [h.dinode i hi'.1]) (h.ptr hs.own hi')

/-! ## The size of the root directory -/

/-- The root directory with its size rounded up. -/
def rounded (s : Volume) : Volume :=
  s.iupdate ROOTINO.val
    { s.dinode ROOTINO.val with size := ((s.dinode ROOTINO.val).size / BSIZE + 1) * BSIZE }

theorem rounded_root (s : Volume) : s.rounded.dinode ROOTINO.val =
    { s.dinode ROOTINO.val with size := ((s.dinode ROOTINO.val).size / BSIZE + 1) * BSIZE } := by
  rw [rounded, iupdate]
  dsimp only
  rw [Function.update_self]

theorem rounded_other (hi : i ≠ ROOTINO.val) : s.rounded.dinode i = s.dinode i := by
  rw [rounded, iupdate]
  dsimp only
  rw [Function.update_of_ne hi]

theorem rounded_fields (s : Volume) (i : Nat) :
    (s.rounded.dinode i).type = (s.dinode i).type ∧ (s.rounded.dinode i).addrs = (s.dinode i).addrs := by
  by_cases hi : i = ROOTINO.val
  · rw [hi, rounded_root]
    exact ⟨rfl, rfl⟩
  · rw [rounded_other hi]
    exact ⟨rfl, rfl⟩

theorem rounded_own (hown : Own s s.dinode) : Own s.rounded s.rounded.dinode :=
  hown.congr rfl rfl (rounded_fields s)

theorem rounded_live : s.rounded.Live s.rounded.dinode i ↔ s.Live s.dinode i := by
  unfold Live
  rw [(rounded_fields s i).1]
  rfl

theorem rounded_ptr (s : Volume) (i : Nat) (x : Place) :
    (s.rounded.dinode i).ptr s.rounded.block x = (s.dinode i).ptr s.block x := by
  unfold Dinode.ptr
  rw [(rounded_fields s i).2]
  rfl

theorem rounded_content (s : Volume) (i : Nat) : s.rounded.content (s.rounded.dinode i) = s.content (s.dinode i) := by
  funext p
  unfold Volume.content
  rw [rounded_ptr]
  rfl

variable {l : List (List (BitVec 8) × Nat)}

section Rounded

variable (h : Root s l) (hlen : l.length ≤ NINODES)
include h hlen

theorem Root.rounded_size : (s.rounded.dinode ROOTINO.val).size = (DIRENT * l.length / BSIZE + 1) * BSIZE ∧
    (s.rounded.dinode ROOTINO.val).size ≤ MAXFILE * BSIZE := by
  have hlen' : l.length ≤ 200 := hlen
  rw [rounded_root, h.size]
  refine ⟨rfl, ?_⟩
  unfold DIRENT BSIZE MAXFILE
  dsimp only
  omega

/-- There are no more names behind the last entry. -/
theorem Root.rounded_names {nm : List (BitVec 8)} {k : Nat} (hk : DIRENT * k < (s.rounded.dinode ROOTINO.val).size) :
    s.rounded.Names (s.rounded.dinode ROOTINO.val) nm k ↔ k < entries (s.dinode ROOTINO.val) ∧
      s.Names (s.dinode ROOTINO.val) nm k := by
  have hsize := h.rounded_size hlen
  have hent : entries (s.dinode ROOTINO.val) = l.length := by
    unfold entries
    rw [h.size, Nat.mul_div_cancel_left _ (by decide)]
  have hdirent : s.rounded.dirent (s.rounded.dinode ROOTINO.val) k = s.dirent (s.dinode ROOTINO.val) k := by
    unfold dirent
    rw [rounded_content]
  unfold Names
  rw [hdirent, hent]
  refine ⟨fun hn => ⟨?_, hn⟩, fun hn => hn.2⟩
  by_contra hge
  have hle : DIRENT * l.length ≤ DIRENT * k := Nat.mul_le_mul_left _ (Nat.not_lt.1 hge)
  have hin : (DIRENT * k + 1) / BSIZE < MAXFILE := by
    have := hsize.2
    unfold DIRENT BSIZE MAXFILE at *
    omega
  refine hn.1 ?_
  unfold dirent
  rw [h.tail (DIRENT * k) ((Nat.div_le_div_right (Nat.le_succ _)).trans_lt hin) hle, h.tail _ hin (by omega)]
  rfl

variable (hpart : ¬32 ∣ l.length)
include hpart

theorem Root.rounded_solid : Solid s.rounded (s.rounded.dinode ROOTINO.val) := by
  have hsize := h.rounded_size hlen
  refine ⟨hsize.2, fun bn hbn => ?_⟩
  rw [rounded_ptr]
  refine h.dir.backed bn ?_
  rw [hsize.1] at hbn
  rw [h.size]
  unfold DIRENT BSIZE at *
  omega

theorem Root.rounded_sound (hs : Sound s) : Sound s.rounded := by
  refine ⟨rounded_own hs.own, fun i hi => ?_⟩
  by_cases hroot : i = ROOTINO.val
  · rw [hroot]
    exact h.rounded_solid hlen hpart
  · rw [rounded_other hroot]
    exact (hs.solid i (rounded_live.1 hi)).congr rfl fun x => rfl

theorem Root.rounded_dir (hs : Sound s) : Dir s.rounded s.rounded.dinode ROOTINO.val := by
  have hsolid := h.rounded_solid hlen hpart
  have htype : (s.rounded.dinode ROOTINO.val).type = .dir := (rounded_fields s _).1.trans h.dir.dir
  refine
    { own := rounded_own hs.own
      live := rounded_live.2 h.dir.live
      plain := by rw [htype]; decide
      size := hsolid.size
      backed := hsolid.backed
      dir := htype
      whole := ?_
      nodup := fun nm k k' hk hk' hn hn' => ?_ }
  · rw [(h.rounded_size hlen).1]
    exact Dvd.dvd.mul_left (by decide) _
  · obtain ⟨hlt, hn⟩ := (h.rounded_names hlen hk).1 hn
    obtain ⟨hlt', hn'⟩ := (h.rounded_names hlen hk').1 hn'
    exact h.dir.nodup nm k k' (h.dir.entry_lt.2 hlt) (h.dir.entry_lt.2 hlt') hn hn'

theorem Root.rounded_dirMap (hs : Sound s) (nm : List (BitVec 8)) :
    s.rounded.dirMap (s.rounded.dinode ROOTINO.val) nm = s.dirMap (s.dinode ROOTINO.val) nm := by
  have hdir := h.rounded_dir hlen hpart hs
  have hdirent : s.rounded.dirent (s.rounded.dinode ROOTINO.val) = s.dirent (s.dinode ROOTINO.val) := by
    unfold dirent
    rw [rounded_content]
  refine Option.ext fun v => ?_
  rw [hdir.dirMap_eq_some_iff, h.dir.dirMap_eq_some_iff, hdirent]
  constructor
  · rintro ⟨k, hk, hn, rfl⟩
    obtain ⟨hlt, hn⟩ := (h.rounded_names hlen (hdir.entry_lt.2 hk)).1 hn
    exact ⟨k, hlt, hn, rfl⟩
  · rintro ⟨k, hk, hn, rfl⟩
    have hlt : DIRENT * k < (s.rounded.dinode ROOTINO.val).size := by
      have := h.dir.entry_lt.2 hk
      rw [(h.rounded_size hlen).1]
      rw [h.size] at this
      unfold DIRENT BSIZE at *
      omega
    exact ⟨k, hdir.entry_lt.1 hlt, (h.rounded_names hlen hlt).2 ⟨hk, hn⟩, rfl⟩

end Rounded

end Volume

namespace DiskImage

variable {m m' : DiskImage} {s : Volume} {l : List (List (BitVec 8) × Nat)}
  {fs : List (List (BitVec 8) × List (BitVec 8))}

/-! ## The end of main -/

/-- With the free map written, the kernel finds the disk that the image shows. -/
theorem Shows.volume (h : Shows m s) : Volume.Same s (m.wsect (BitVec.ofNat 32 mkfsSuper.bmapstart)
    ((List.range m.freeblock).foldl Block.setBit fun _ => 0)).volume := by
  have hsect := wsect_sect (m := m) (b := mkfsSuper.bmapstart) (by decide)
    ((List.range m.freeblock).foldl Block.setBit fun _ => 0)
  generalize hm' : m.wsect (BitVec.ofNat 32 mkfsSuper.bmapstart)
    ((List.range m.freeblock).foldl Block.setBit fun _ => 0) = m' at hsect ⊢
  have hstart : mkfsSuper.bmapstart = 58 := rfl
  have hmeta : nmeta = 59 := rfl
  have hone : m'.sect 1 = Block.setWords (fun _ => 0) 0 sbWords := by
    rw [hsect, Function.update_of_ne (by decide)]
    exact h.super
  have hword : ∀ k, k < NINDIRECT → (m'.sect 1).word k = if 0 ≤ k ∧ k < 0 + 7 then (sbWords.getD (k - 0) 0).toNat else 0 :=
    fun k hk => by
      rw [hone, Block.word_setWords _ _ (by decide) hk, Block.word_zero]
      rfl
  have hsb : m'.volume.sb = mkfsSuper := by
    unfold DiskImage.volume
    dsimp only
    rw [hword 0 (by decide), hword 2 (by decide), hword 5 (by decide), hword 6 (by decide)]
    rfl
  refine ⟨hsb.trans h.sb.symm, fun b hb => ?_, fun i hi => ?_, fun b hb => ?_⟩
  · have hb' := h.mem_data.1 hb
    rw [h.block b hb'.1 hb'.2]
    change m'.sect b = m.sect b
    rw [hsect, Function.update_of_ne (by omega)]
  · rw [h.sb] at hi
    rw [h.dinode i hi]
    change ((m'.sect (m'.volume.sb.IBLOCK i)).inode i).dinode = _
    have := IBLOCK_lt hi
    rw [hsb, hsect, Function.update_of_ne (by omega)]
    rfl
  · rw [h.sb] at hb
    have hup : m.freeblock ≤ 1000 := h.upper
    rw [used_eq_bit hsb hb]
    change (m'.sect (nmeta - 1)).bit b = _
    rw [hsect, show nmeta - 1 = mkfsSuper.bmapstart from rfl, Function.update_self,
      Block.bit_first _ (show m.freeblock ≤ 4096 by omega) (Nat.lt_trans hb (by decide))]
    exact Bool.eq_iff_iff.2 (decide_eq_true_iff.trans (h.marked b hb).symm)

/-- What `main` does after the files were added. -/
def finish (m : DiskImage) : Except MkfsExit DiskImage := do
  let din ← m.rinode ROOTINO.val
  let off := (din.size / BitVec.ofNat 32 BSIZE + 1) * BitVec.ofNat 32 BSIZE
  let m ← m.winode ROOTINO.val { din with size := off }
  m.balloc m.freeblock

theorem Built.finish (h : Built m l fs s) (hlen : l.length ≤ NINODES) :
    ∃ m', m.finish = .ok m' ∧ m'.freeinode = m.freeinode ∧ Volume.Same s.rounded m'.volume := by
  have hone : ROOTINO.val < NINODES := ROOTINO.2
  have hlen' : l.length ≤ 200 := hlen
  have hdin := h.shows.dinode _ hone
  have hsize : (m.inode ROOTINO.val).size.toNat = DIRENT * l.length := by
    rw [← h.root.size, hdin]
    rfl
  generalize hoff : ((m.inode ROOTINO.val).size / BitVec.ofNat 32 BSIZE + 1) * BitVec.ofNat 32 BSIZE = off
  have hround : off.toNat = (DIRENT * l.length / BSIZE + 1) * BSIZE := by
    rw [← hoff, BitVec.toNat_mul, BitVec.toNat_add, BitVec.toNat_udiv, hsize]
    unfold DIRENT BSIZE
    rw [show (BitVec.ofNat 32 512).toNat = 512 from rfl, show (1 : BitVec 32).toNat = 1 from rfl]
    omega
  obtain ⟨m₁, hm₁, hre⟩ := winode_ok (m := m) hone { m.inode ROOTINO.val with size := off }
  have hshows : Shows m₁ s.rounded := h.shows.winode hre rfl rfl fun j _ => by
    have hnew : ({ m.inode ROOTINO.val with size := off } : RawInode).dinode =
        { s.dinode ROOTINO.val with size := ((s.dinode ROOTINO.val).size / BSIZE + 1) * BSIZE } := by
      rw [h.root.size, ← hround, hdin]
      rfl
    rw [hnew]
    rfl
  have hup : m₁.freeblock ≤ 1000 := hshows.upper
  refine ⟨m₁.wsect (BitVec.ofNat 32 mkfsSuper.bmapstart) ((List.range m₁.freeblock).foldl Block.setBit fun _ => 0),
    ?_, hre.freeinode, hshows.volume⟩
  unfold DiskImage.finish
  rw [rinode_eq hone]
  dsimp only [bind, Except.bind]
  rw [hoff, hm₁]
  exact if_pos (show m₁.freeblock < 4096 by omega)

/-- The root directory before its first entry. -/
theorem zeroed_ialloc : ∃ m s, zeroed.ialloc T_DIR = .ok (ROOTINO.val, m) ∧ Built m [] [] s ∧ s.free.card = FSSIZE - nmeta := by
  obtain ⟨m, hm, hino, hshows⟩ := zeroed_shows.ialloc (by decide) T_DIR
  change zeroed.ialloc T_DIR = .ok (ROOTINO.val, m) at hm
  change Shows m (zeroVolume.iupdate ROOTINO.val _) at hshows
  generalize hs : zeroVolume.iupdate ROOTINO.val ⟨.ofShort T_DIR, 0, 0, 1, 0, fun _ => 0⟩ = s at hshows
  have hdin : s.dinode = Function.update zeroVolume.dinode ROOTINO.val ⟨.dir, 0, 0, 1, 0, fun _ => 0⟩ := hs ▸ rfl
  have hself : s.dinode ROOTINO.val = ⟨.dir, 0, 0, 1, 0, fun _ => 0⟩ := by rw [hdin, Function.update_self]
  have hptr : ∀ x, (s.dinode ROOTINO.val).ptr s.block x = 0 := fun x => by
    rw [hself]
    cases x <;> rfl
  have hsound : Volume.Sound s :=
    zeroVolume_sound.replace (hs ▸ rfl) (hs ▸ rfl) hdin (fun x => zeroVolume_pt _) rfl rfl
  have hlive : s.Live s.dinode ROOTINO.val := by
    refine ⟨hs ▸ show 1 < 200 by decide, ?_⟩
    rw [hself]
    decide
  have hsize : (s.dinode ROOTINO.val).size = 0 := by rw [hself]
  have hnot : ∀ n, ¬n < (s.dinode ROOTINO.val).size := fun n => by
    rw [hsize]
    exact Nat.not_lt_zero n
  refine ⟨m, s, hm, ⟨hshows, hino, hsound, fun i hi _ => ?_, ?_, nofun⟩, ?_⟩
  · have hne : i ≠ ROOTINO.val := by
      rw [hino] at hi
      exact Nat.ne_of_gt hi
    rw [hdin, Function.update_of_ne hne]
    rfl
  · refine
      { dir := { own := hsound.own, live := hlive, plain := ?_, size := ?_, backed := fun bn hbn => absurd hbn (hnot _),
                 dir := by rw [hself], whole := hsize ▸ Nat.dvd_zero _, nodup := fun _ k _ hk => absurd hk (hnot _) }
        size := hsize
        bare := fun bn _ _ => hptr _
        tail := fun p _ _ => if_pos (hptr _)
        found := nofun
        absent := fun nm _ => ?_ }
    · rw [hself]
      decide
    · rw [hsize]
      exact Nat.zero_le _
    · rw [hself]
      rfl
  · have hfree : s.free = Finset.Ico nmeta FSSIZE := by
      rw [← hs]
      ext b
      simp only [Volume.free, Finset.mem_filter, Finset.mem_range, Finset.mem_Ico]
      change b < FSSIZE ∧ zeroVolume.used b = false ↔ _
      constructor
      · rintro ⟨hb, hused⟩
        rw [zeroVolume_used hb, decide_eq_false_iff_not] at hused
        exact ⟨Nat.not_lt.1 hused, hb⟩
      · rintro ⟨hb, hlt⟩
        rw [zeroVolume_used hlt, decide_eq_false_iff_not]
        exact ⟨hlt, Nat.not_lt.2 hb⟩
    rw [hfree, Nat.card_Ico]

theorem getD_replicate_zero (n k : Nat) : (List.replicate n (0 : BitVec 8)).getD k 0 = 0 := by
  rw [List.getD_eq_getElem?_getD, List.getElem?_replicate]
  split <;> rfl

/-- `strcpy` into an entry that was cleared does what `strncpy` does. -/
theorem strcpy_dot : (fun j => (strncpy Volume.dot DIRSIZ).getD j 0) = Volume.dot := by
  rw [show strncpy Volume.dot DIRSIZ = 46 :: List.replicate 13 0 by decide]
  funext j
  match j with
  | 0 => rfl
  | j + 1 => exact getD_replicate_zero 13 j

theorem strcpy_dotdot : (fun j => (strncpy Volume.dotdot DIRSIZ).getD j 0) = Volume.dotdot := by
  rw [show strncpy Volume.dotdot DIRSIZ = 46 :: 46 :: List.replicate 12 0 by decide]
  funext j
  match j with
  | 0 => rfl
  | 1 => rfl
  | j + 2 => exact getD_replicate_zero 12 j

/-- With fewer than `NINODES` inodes in use, `mkfs` builds the root directory and the files, unless a name has a
slash, a file is too long, or there are too few blocks. -/
theorem mkfs_ends (files : List InFile) (hlen : files.length + 2 ≤ NINODES)
    (hnodup : ((rootEntries []).map Prod.fst ++ files.map fun f => f.target.take DIRSIZ).Nodup) :
    Ends (fun _ => (∃ f ∈ files, Refused f) ∨ FSSIZE - nmeta < 6 + (files.map fileCost).sum) (mkfs files) fun m' =>
      ∃ m s, m'.freeinode = files.length + 2 ∧ Built m (rootEntries (added files)) (added files) s ∧
        Volume.Same s.rounded m'.volume := by
  obtain ⟨m₀, s₀, hm₀, hbuilt₀, hfree⟩ := zeroed_ialloc
  unfold mkfs
  rw [hm₀]
  dsimp only [bind, Except.bind]
  rw [if_neg (not_not_intro rfl)]
  have hfirst := (hbuilt₀.entry ROOTINO.val Volume.dot (by decide) (fun e he => nomatch he) (by decide)).weaken
    (E := fun _ => (∃ f ∈ files, Refused f) ∨ FSSIZE - nmeta < 6 + (files.map fileCost).sum) fun _ he => .inr (by omega)
  rw [strcpy_dot] at hfirst
  refine hfirst.bind fun m₁ h₁ => ?_
  obtain ⟨s₁, hbuilt₁, hroom₁⟩ := h₁
  have hsecond := (hbuilt₁.entry ROOTINO.val Volume.dotdot (by decide) (by decide) (by decide)).weaken
    (E := fun _ => (∃ f ∈ files, Refused f) ∨ FSSIZE - nmeta < 6 + (files.map fileCost).sum) fun _ he => .inr (by omega)
  rw [strcpy_dotdot] at hsecond
  refine hsecond.bind fun m₂ h₂ => ?_
  obtain ⟨s₂, hbuilt₂, hroom₂⟩ := h₂
  have hfiles := (addFiles_ends files (show Built m₂ (rootEntries []) [] s₂ from hbuilt₂) (by rw [List.length_nil]; omega) hnodup).weaken
    (E := fun _ => (∃ f ∈ files, Refused f) ∨ FSSIZE - nmeta < 6 + (files.map fileCost).sum) fun _ he =>
      he.imp_right fun hfew => by omega
  rw [List.nil_append] at hfiles
  refine hfiles.bind fun m₃ h₃ => ?_
  obtain ⟨s₃, hbuilt₃⟩ := h₃
  have hcount : (added files).length = files.length := List.length_map _
  obtain ⟨m₄, hm₄, hino, hsame⟩ := hbuilt₃.finish (by rw [length_rootEntries, hcount]; exact hlen)
  refine (congrArg (Ends _ · _) hm₄).mpr ⟨m₃, s₃, ?_, hbuilt₃, hsame⟩
  rw [hino, hbuilt₃.next, hcount]

/-! ## Inode numbers -/

theorem winode_freeinode (m : DiskImage) (i : Nat) (d : RawInode) :
    Ends (fun _ => True) (m.winode i d) fun m' => m'.freeinode = m.freeinode :=
  Ends.bind .trivial fun _ _ => rfl

theorem fill_freeinode (m : DiskImage) (din : RawInode) (k : Fin (NDIRECT + 1)) :
    (m.fill din k).2.freeinode = m.freeinode := by
  unfold fill
  split <;> rfl

theorem blockOf_freeinode (m : DiskImage) (din : RawInode) (fbn : Nat) :
    Ends (fun _ => True) (m.blockOf din fbn) fun r => r.2.2.freeinode = m.freeinode := by
  unfold blockOf
  split
  · exact fill_freeinode m din _
  · refine Ends.bind .trivial fun ind _ => ?_
    split
    · exact fill_freeinode m din indirect
    · exact fill_freeinode m din indirect

theorem appendLoop_freeinode (p : Nat → BitVec 8) (fuel : Nat) (m : DiskImage) (din : RawInode) (off tot n : Nat) :
    Ends (fun _ => True) (appendLoop p fuel m din off tot n) fun r => r.2.2.freeinode = m.freeinode := by
  induction fuel generalizing m din off tot n with
  | zero => exact rfl
  | succ fuel ih =>
    unfold appendLoop
    split
    · split
      · refine (blockOf_freeinode m din _).bind fun r hr => ?_
        refine Ends.bind .trivial fun buf _ => ?_
        exact (ih _ _ _ _ _).mono fun r' hr' => hr'.trans hr
      · exact True.intro
    · exact rfl

theorem iappend_freeinode (m : DiskImage) (i : Nat) (p : Nat → BitVec 8) (n : Nat) :
    Ends (fun _ => True) (m.iappend i p n) fun m' => m'.freeinode = m.freeinode := by
  refine Ends.bind .trivial fun din _ => ?_
  refine (appendLoop_freeinode p n m din _ 0 n).bind fun r hr => ?_
  exact (winode_freeinode _ i _).mono fun m' hm' => hm'.trans hr

theorem appendReads_freeinode (i : Nat) (bufs : List (List (BitVec 8))) (m : DiskImage) :
    Ends (fun _ => True) (appendReads i bufs m) fun m' => m'.freeinode = m.freeinode := by
  induction bufs generalizing m with
  | nil => exact rfl
  | cons buf bufs ih =>
    refine (iappend_freeinode m i _ _).bind fun m₁ h₁ => ?_
    exact (ih m₁).mono fun m' hm' => hm'.trans h₁

theorem ialloc_freeinode (m : DiskImage) (t : BitVec 16) :
    Ends (fun _ => True) (m.ialloc t) fun r => r.2.freeinode = m.freeinode + 1 :=
  (winode_freeinode _ _ _).bind fun _ h => h

theorem addFiles_freeinode (files : List InFile) (m : DiskImage) :
    Ends (fun _ => True) (addFiles files m) fun m' => m'.freeinode = m.freeinode + files.length := by
  induction files generalizing m with
  | nil => exact rfl
  | cons f files ih =>
    have hfirst : Ends (fun _ => True) (m.addFile f) fun m' => m'.freeinode = m.freeinode + 1 := by
      unfold addFile
      split
      · exact True.intro
      · refine (ialloc_freeinode m T_FILE).bind fun r hr => ?_
        refine (iappend_freeinode _ _ _ _).bind fun m₁ h₁ => ?_
        exact (appendReads_freeinode _ _ m₁).mono fun m' hm' => (hm'.trans h₁).trans hr
    refine hfirst.bind fun m₁ h₁ => (ih m₁).mono fun m' hm' => ?_
    rw [hm', h₁, List.length_cons]
    omega

/-- Every file takes an inode number, whether or not there is room for it in the inode blocks. -/
theorem mkfs_freeinode (files : List InFile) :
    Ends (fun _ => True) (mkfs files) fun m => m.freeinode = files.length + 2 := by
  refine (ialloc_freeinode zeroed T_DIR).bind fun r hr => ?_
  dsimp only
  split
  · exact True.intro
  · refine (iappend_freeinode _ _ _ _).bind fun m₁ h₁ => ?_
    refine (iappend_freeinode _ _ _ _).bind fun m₂ h₂ => ?_
    refine (addFiles_freeinode files m₂).bind fun m₃ h₃ => ?_
    refine Ends.bind .trivial fun din _ => ?_
    refine (winode_freeinode m₃ _ _).bind fun m₄ h₄ => ?_
    have hstart : zeroed.freeinode = 1 := rfl
    have hcount : m₄.freeinode = files.length + 2 := by
      rw [h₄, h₃, h₂, h₁, hr, hstart]
      omega
    unfold balloc
    split
    · exact hcount
    · exact True.intro

/-! ## The image as the kernel sees it -/

/-- Inode numbers are below `NINODES`, every block of every inode is backed by a data block of the disk, no block has
two places, the free map marks what is in use, and `dirlookup` and `readi` find every file with its contents. -/
structure WellFormed (files : List InFile) (m : DiskImage) : Prop where
  inums : ∀ i, i < m.freeinode → i < NINODES
  backed : ∀ i bn, m.volume.Live m.volume.dinode i → bn < ((m.volume.dinode i).size + (BSIZE - 1)) / BSIZE →
    bn < MAXFILE ∧ nmeta ≤ (m.volume.dinode i).ptr m.volume.block (.data bn) ∧
      (m.volume.dinode i).ptr m.volume.block (.data bn) < FSSIZE
  once : ∀ i j x y, m.volume.Live m.volume.dinode i → m.volume.Live m.volume.dinode j →
    (m.volume.dinode i).ptr m.volume.block x ≠ 0 →
    (m.volume.dinode i).ptr m.volume.block x = (m.volume.dinode j).ptr m.volume.block y → i = j ∧ x = y
  bitmap : ∀ b, b < FSSIZE → (m.volume.used b = true ↔ b < nmeta ∨
    ∃ i x, m.volume.Live m.volume.dinode i ∧ (m.volume.dinode i).ptr m.volume.block x = b)
  found : ∀ f ∈ files, ∃ inum off,
    m.volume.dirlookup (m.volume.dinode ROOTINO.val) (cstring f.target) =
      .ok (some (inum, off), m.volume.dinode ROOTINO.val, m.volume) ∧
    m.volume.Live m.volume.dinode inum ∧ (m.volume.dinode inum).type = .file ∧
    (m.volume.dinode inum).size = f.contents.length ∧
    m.volume.readi (m.volume.dinode inum) 0 (BitVec.ofNat 32 f.contents.length) =
      .ok (some f.contents, m.volume.dinode inum, m.volume)

theorem added_getElem? {files : List InFile} {f : InFile} {k : Nat} (hk : files[k]? = some f) :
    (added files)[k]? = some (f.target, f.contents) := by
  rw [added, List.getElem?_map, hk]
  rfl

theorem rootEntries_getElem? {files : List InFile} {f : InFile} {k : Nat} (hk : files[k]? = some f) :
    (rootEntries (added files))[k + 2]? = some (f.target.take DIRSIZ, k + 2) := by
  rw [rootEntries, List.getElem?_cons_succ, List.getElem?_cons_succ, List.getElem?_mapIdx, added_getElem? hk]
  rfl

section Root

variable (h : Built m l fs s) (hsame : Volume.Same s.rounded m'.volume) (hlen : l.length ≤ NINODES)
  (hpart : ¬32 ∣ l.length)
include h hsame hlen hpart

theorem Built.volume_dir : Volume.Dir m'.volume m'.volume.dinode ROOTINO.val := by
  have hdir := h.root.rounded_dir hlen hpart h.sound
  have hT := hsame.dinode _ hdir.live.1
  have hptr := hsame.ptr hdir.own hdir.live
  have hcont := hsame.content hdir.own hdir.live
  rw [hT] at hptr hcont
  exact hdir.keep (hsame.own hdir.own) hsame.sb hT hptr hcont

theorem Built.volume_dirMap (nm : List (BitVec 8)) :
    m'.volume.dirMap (m'.volume.dinode ROOTINO.val) nm = s.dirMap (s.dinode ROOTINO.val) nm := by
  have hdir := h.root.rounded_dir hlen hpart h.sound
  have hT := hsame.dinode _ hdir.live.1
  have hcont := hsame.content hdir.own hdir.live
  rw [hT] at hcont
  rw [hT, Volume.dirMap_congr hcont]
  exact h.root.rounded_dirMap hlen hpart h.sound nm

end Root

section Kernel

variable {files : List InFile} (h : Built m (rootEntries (added files)) (added files) s)
  (hsame : Volume.Same s.rounded m'.volume) (hlen : files.length + 2 ≤ NINODES)
include h hsame

/-- The block behind a full last block of the root directory. -/
theorem Built.unbacked (bn : Nat) (hbn : bn < MAXFILE) (hend : DIRENT * (files.length + 2) ≤ bn * BSIZE) :
    m'.volume.Live m'.volume.dinode ROOTINO.val ∧
    (m'.volume.dinode ROOTINO.val).ptr m'.volume.block (.data bn) = 0 := by
  have hlive := Volume.rounded_live.2 h.root.dir.live
  refine ⟨hsame.live.2 hlive, ?_⟩
  rw [hsame.ptr (Volume.rounded_own h.sound.own) hlive, Volume.rounded_ptr]
  refine h.root.bare bn hbn ?_
  rwa [length_rootEntries, show (added files).length = files.length from List.length_map _]

include hlen

theorem Built.root_size :
    (m'.volume.dinode ROOTINO.val).size = (DIRENT * (files.length + 2) / BSIZE + 1) * BSIZE := by
  have hcount : (rootEntries (added files)).length = files.length + 2 := by
    rw [length_rootEntries]
    exact congrArg (· + 2) (List.length_map _)
  have hsize := h.root.rounded_size (hcount ▸ hlen)
  rw [hcount] at hsize
  rw [hsame.dinode _ (Volume.rounded_live.2 h.root.dir.live).1, hsize.1]

theorem Built.wellFormed (hpart : ¬32 ∣ files.length + 2) (hino : m'.freeinode = files.length + 2) :
    WellFormed files m' := by
  have hcount : (rootEntries (added files)).length = files.length + 2 := by
    rw [length_rootEntries]
    exact congrArg (· + 2) (List.length_map _)
  rw [← hcount] at hpart
  have hlen' : (rootEntries (added files)).length ≤ NINODES := hcount ▸ hlen
  have hrounded := h.root.rounded_sound hlen' hpart h.sound
  have hsound : Volume.Sound m'.volume := hsame.sound hrounded
  have hsb : m'.volume.sb = mkfsSuper := hsame.sb.trans h.shows.sb
  have harea : ∀ b, b ∈ m'.volume.sb.dataArea ↔ nmeta ≤ b ∧ b < FSSIZE := fun b => by
    rw [hsb]
    rfl
  refine
    { inums := fun i hi => by omega
      backed := fun i bn hi hbn => ?_
      once := fun i j x y hi hj hne heq => hsound.own.place_inj hi hj hne heq
      bitmap := fun b hb => ?_
      found := fun f hf => ?_ }
  · have hsolid := hsound.solid i hi
    have hlt : bn * BSIZE < (m'.volume.dinode i).size := by
      unfold BSIZE at *
      omega
    have hmax : bn < MAXFILE := by
      have := hsolid.size
      unfold BSIZE at *
      omega
    exact ⟨hmax, (harea _).1 (hsound.own.mem_data hi (hsolid.backed bn hlt))⟩
  · rcases Nat.lt_or_ge b nmeta with hlt | hge
    · have hmark : m'.volume.used b = true := hsound.own.reserved b (hsb ▸ hlt) (hsb ▸ hb)
      exact iff_of_true hmark (.inl hlt)
    · rw [hsound.own.marked_iff ((harea b).2 ⟨hge, hb⟩), or_iff_right (Nat.not_lt.2 hge)]
      constructor
      · rintro ⟨p, hp, -⟩
        exact ⟨p.1, p.2, hp⟩
      · rintro ⟨i, x, hi, rfl⟩
        refine ⟨(i, x), ⟨hi, rfl⟩, fun q hq => ?_⟩
        have hne : (m'.volume.dinode q.1).ptr m'.volume.block q.2 ≠ 0 := by
          rw [hq.2]
          exact Volume.ne_zero_of_data ((harea _).2 ⟨hge, hb⟩)
        exact Prod.ext_iff.2 (hsound.own.place_inj hq.1 hi hne hq.2)
  · obtain ⟨k, hk⟩ := List.mem_iff_getElem?.1 hf
    obtain ⟨hlive, htype, hbytes⟩ := h.file k (f.target, f.contents) (added_getElem? hk)
    have hlive' := Volume.rounded_live.2 hlive
    have hdin : m'.volume.dinode (k + 2) = s.dinode (k + 2) := by
      rw [hsame.dinode _ hlive'.1]
      exact Volume.rounded_other (Nat.ne_of_gt (Nat.succ_lt_succ (Nat.succ_pos _)))
    have hcont : m'.volume.content (m'.volume.dinode (k + 2)) = s.content (s.dinode (k + 2)) :=
      (hsame.content hrounded.own hlive').trans (Volume.rounded_content s _)
    dsimp only at hbytes
    have hall : m'.volume.bytes (m'.volume.dinode (k + 2)) = f.contents := by
      rw [← hbytes]
      unfold Volume.bytes
      rw [hcont, hdin]
    have hsize : (m'.volume.dinode (k + 2)).size = f.contents.length := by
      rw [← Volume.length_bytes (s := m'.volume), hall]
    have hfile : Volume.File m'.volume m'.volume.dinode (k + 2) := hsound.file ⟨hsame.live.2 hlive', by
      rw [hdin, htype]
      decide⟩
    refine ⟨k + 2, DIRENT * (k + 2), ?_, hfile.live, by rw [hdin, htype], hsize, ?_⟩
    · rw [Volume.dirlookup_eq (h.volume_dir hsame hlen' hpart) (cstring f.target), key_cstring _ _ (zero_notMem_target f),
        h.volume_dirMap hsame hlen' hpart, h.root.found (k + 2) _ _ (rootEntries_getElem? hk)]
    · have hmax : f.contents.length ≤ 71680 := hsize ▸ hfile.size
      have hn : (BitVec.ofNat 32 f.contents.length).toNat = f.contents.length := by
        rw [BitVec.toNat_ofNat, Nat.mod_eq_of_lt (by omega)]
      rw [Volume.readi_eq _ _ hfile, hn, hall, if_pos ⟨Nat.zero_le _, by
        rw [show (0 : BitVec 32).toNat = 0 from rfl]
        omega⟩]
      rw [show (0 : BitVec 32).toNat = 0 from rfl, List.drop_zero, List.take_of_length_le le_rfl]

end Kernel

end DiskImage

open DiskImage

/-- The names are those of the files and the two of the directory itself. -/
theorem names_nodup {files : List InFile} (hdots : ∀ f ∈ files, f.target ≠ [46] ∧ f.target ≠ [46, 46])
    (hdiff : (files.map fun f => f.target.take DIRSIZ).Nodup) :
    ((rootEntries []).map Prod.fst ++ files.map fun f => f.target.take DIRSIZ).Nodup := by
  have hshort : ∀ f ∈ files, ∀ a : List (BitVec 8), a.length < DIRSIZ → f.target.take DIRSIZ = a → f.target = a :=
    fun f _ a ha heq => by
      have hlen := congrArg List.length heq
      rw [List.length_take] at hlen
      rw [← heq, List.take_of_length_le (by omega)]
  rw [show (rootEntries []).map Prod.fst = [[46], [46, 46]] by decide]
  refine List.nodup_append.2 ⟨by decide, hdiff, fun a ha b hb heq => ?_⟩
  obtain ⟨f, hf, rfl⟩ := List.mem_map.1 hb
  rcases List.mem_cons.1 ha with rfl | ha
  · exact (hdots f hf).1 (hshort f hf _ (by decide) heq.symm)
  · obtain rfl := List.mem_singleton.1 ha
    exact (hdots f hf).2 (hshort f hf _ (by decide) heq.symm)

/-- When `mkfs` ends with status 0. -/
theorem mkfs_ok (files : List InFile) (hlen : files.length + 2 ≤ NINODES)
    (hnodup : ((rootEntries []).map Prod.fst ++ files.map fun f => f.target.take DIRSIZ).Nodup)
    (hfine : ∀ f ∈ files, ¬(47 ∈ f.name ∨ MAXFILE * BSIZE < f.contents.length))
    (hroom : 6 + (files.map fileCost).sum ≤ FSSIZE - nmeta) :
    ∃ m' m s, mkfs files = .ok m' ∧ Built m (rootEntries (added files)) (added files) s ∧
      Volume.Same s.rounded m'.volume := by
  have hends := (mkfs_ends files hlen hnodup).weaken (E := fun _ => False) fun _ he => by
    rcases he with ⟨f, hf, hr⟩ | hfew
    · exact hfine f hf hr
    · exact absurd hroom (Nat.not_le.2 hfew)
  obtain ⟨m', hm', m, s, -, hbuilt, hsame⟩ := hends.ok
  exact ⟨m', m, s, hm', hbuilt, hsame⟩

/-- An image that `mkfs` builds with status 0 is well formed exactly if there is an inode for every file and the
root directory does not end with a full block. -/
theorem mkfs_wellFormed_iff {files : List InFile} {m : DiskImage}
    (hdots : ∀ f ∈ files, f.target ≠ [46] ∧ f.target ≠ [46, 46])
    (hdiff : (files.map fun f => f.target.take DIRSIZ).Nodup) (hm : mkfs files = .ok m) :
    WellFormed files m ↔ files.length ≤ 198 ∧ ¬32 ∣ files.length + 2 := by
  have hino := mkfs_freeinode files
  rw [hm] at hino
  have hino' : m.freeinode = files.length + 2 := hino
  by_cases hlen : files.length ≤ 198
  · have hends := mkfs_ends files (show files.length + 2 ≤ 200 by omega) (names_nodup hdots hdiff)
    rw [hm] at hends
    obtain ⟨m₀, s, -, hbuilt, hsame⟩ := hends
    constructor
    · intro hwf
      refine ⟨hlen, fun hfull => ?_⟩
      obtain ⟨bn, hbn⟩ := hfull
      have hlast : bn < MAXFILE := show bn < 140 by omega
      obtain ⟨hlive, hzero⟩ := hbuilt.unbacked hsame bn hlast (by unfold DIRENT BSIZE; omega)
      have hsize := hbuilt.root_size hsame (show files.length + 2 ≤ 200 by omega)
      have hback := hwf.backed ROOTINO.val bn hlive (by
        rw [hsize]
        unfold DIRENT BSIZE
        omega)
      rw [hzero] at hback
      exact absurd hback.2.1 (by decide)
    · rintro ⟨-, hpart⟩
      exact hbuilt.wellFormed hsame (show files.length + 2 ≤ 200 by omega) hpart hino'
  · refine iff_of_false (fun hwf => ?_) fun hcond => hlen hcond.1
    have hlt : 200 < 200 := hwf.inums 200 (by omega)
    omega

/-- One small file. -/
def catFile : InFile := ⟨[95, 99, 97, 116], [[1, 2, 3]], by decide⟩

theorem catFile_wellFormed : ∃ m, mkfs [catFile] = .ok m ∧ WellFormed [catFile] m := by
  have hdots : ∀ f ∈ [catFile], f.target ≠ [46] ∧ f.target ≠ [46, 46] := by decide
  have hdiff : ([catFile].map fun f => f.target.take DIRSIZ).Nodup := by decide
  obtain ⟨m, m₀, s, hm, -⟩ := mkfs_ok [catFile] (by decide) (names_nodup hdots hdiff) (by decide) (by decide)
  exact ⟨m, hm, (mkfs_wellFormed_iff hdots hdiff hm).2 (by decide)⟩

/-- Thirty empty files, with names of one letter. -/
def thirtyFiles : List InFile :=
  (List.finRange 30).map fun k => ⟨[BitVec.ofNat 8 (65 + k.val)], [], by revert k; decide⟩

/-- With thirty files the root directory has 32 entries, which fill its one block, but its size is two blocks. -/
theorem thirtyFiles_hole : ∃ m, mkfs thirtyFiles = .ok m ∧ (m.volume.dinode 1).size = 1024 ∧
    (m.volume.dinode 1).ptr m.volume.block (.data 1) = 0 ∧ ¬WellFormed thirtyFiles m := by
  have hlen : thirtyFiles.length = 30 := by decide
  obtain ⟨m, m₀, s, hm, hbuilt, hsame⟩ := mkfs_ok thirtyFiles (by decide)
    (names_nodup (by decide) (by decide)) (by decide) (by decide)
  obtain ⟨hlive, hzero⟩ := hbuilt.unbacked hsame 1 (by decide) (by rw [hlen]; decide)
  have hsize := hbuilt.root_size hsame (by decide)
  rw [hlen] at hsize
  refine ⟨m, hm, hsize, hzero, fun hwf => ?_⟩
  have hback := hwf.backed ROOTINO.val 1 hlive (by rw [hsize]; decide)
  rw [hzero] at hback
  exact absurd hback.2.1 (by decide)

end Xv6
