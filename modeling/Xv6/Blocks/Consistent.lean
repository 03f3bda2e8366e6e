import Xv6.Blocks.Trunc
/-!
# The free map and the inodes agree

Between two calls a cached inode is as it is on the disk, so every operation
here starts from the inodes of the disk. File system calls are made of these
operations: `create` allocates an inode, writes to files and directories are
`writei`, links are counted in `nlink`, and the `iput` that drops the last
reference to an inode without links frees it.
-/

namespace Xv6

open Outcome

namespace Volume

inductive Op where
  | create (t : FileType) (major minor : Int)
  | write (i : Nat) (src : Nat → BitVec 8) (off n : BitVec 32)
  | read (i : Nat) (off n : BitVec 32)
  | relink (i : Nat) (nlink : Int)
  | drop (i : Nat)

/-- An operation on inode `i` is one on an inode that is allocated. Devices have their own read and write. -/
def Op.run : Op → Volume → Except BlockPanic Volume
  | .create t major minor, s => do
    let (i, s) ← s.ialloc t
    .ok (s.iupdate i { s.dinode i with major, minor, nlink := 1 })
  | .write i src off n, s =>
    if s.Live s.dinode i ∧ (s.dinode i).type ≠ .dev then do
      let (_, _, s) ← s.writei i (s.dinode i) src off n
      .ok s
    else .ok s
  | .read i off n, s =>
    if s.Live s.dinode i ∧ (s.dinode i).type ≠ .dev then do
      let (_, _, s) ← s.readi (s.dinode i) off n
      .ok s
    else .ok s
  | .relink i nlink, s => .ok (if s.Live s.dinode i then s.iupdate i { s.dinode i with nlink } else s)
  | .drop i, s =>
    if s.Live s.dinode i then do
      let (ip, s) ← s.itrunc i (s.dinode i)
      .ok (s.iupdate i { ip with type := .free })
    else .ok s

def runOps : List Op → Volume → Except BlockPanic Volume
  | [], s => .ok s
  | op :: ops, s => do
    let s ← op.run s
    runOps ops s

variable {s s' : Volume} {T : Nat → Dinode} {i j : Nat}

/-- Files have no holes. -/
structure Solid (s : Volume) (ip : Dinode) : Prop where
  size : ip.size ≤ MAXFILE * BSIZE
  backed : ∀ bn, bn * BSIZE < ip.size → ip.ptr s.block (.data bn) ≠ 0

theorem Solid.congr {ip ip' : Dinode} (h : Solid s ip) (hsize : ip'.size = ip.size)
    (hptr : ∀ x, ip'.ptr s'.block x = ip.ptr s.block x) : Solid s' ip' := by
  refine ⟨hsize ▸ h.size, fun bn hbn => ?_⟩
  rw [hptr]
  exact h.backed bn (hsize ▸ hbn)

theorem Solid.empty {ip : Dinode} (h : ip.size = 0) : Solid s ip :=
  ⟨h ▸ Nat.zero_le _, fun _ hbn => absurd (h ▸ hbn) (Nat.not_lt_zero _)⟩

structure Sound (s : Volume) : Prop where
  own : Own s s.dinode
  solid : ∀ i, s.Live s.dinode i → Solid s (s.dinode i)

theorem Sound.file (h : Sound s) (hi : s.Live s.dinode i ∧ (s.dinode i).type ≠ .dev) : File s s.dinode i :=
  ⟨h.own, hi.1, hi.2, (h.solid i hi.1).size, (h.solid i hi.1).backed⟩

/-! ## One operation -/

/-- An inode without blocks is put in place of one without blocks. -/
theorem Sound.replace {p : Dinode} (h : Sound s) (hsb : s'.sb = s.sb) (hblk : s'.block = s.block)
    (hdin : s'.dinode = Function.update s.dinode i p) (hold : ∀ x, s.pt s.dinode (i, x) = 0)
    (haddrs : p.addrs = fun _ => 0) (hsize : p.size = 0) : Sound s' := by
  have hother : ∀ j, j ≠ i → s'.dinode j = s.dinode j := fun j hj => by rw [hdin, Function.update_of_ne hj]
  have hlive : ∀ j, j ≠ i → (s'.Live s'.dinode j ↔ s.Live s.dinode j) := fun j hj => by
    unfold Live
    rw [hother j hj, hsb]
  refine ⟨h.own.same hsb hblk fun q => ?_, fun j hj => ?_⟩
  · obtain ⟨j, x⟩ := q
    by_cases hj : j = i
    · subst hj
      have hptr : (s'.dinode j).ptr s'.block x = 0 := by
        rw [hdin, Function.update_self]
        unfold Dinode.ptr
        rw [haddrs]
        split
        · rfl
        · exact if_pos rfl
      rw [hold]
      unfold pt
      rw [hptr, ite_self]
    · refine pt_congr (hlive j hj) fun _ => ?_
      rw [hother j hj, hblk]
  · by_cases hji : j = i
    · subst hji
      refine Solid.empty ?_
      rw [hdin, Function.update_self, hsize]
    · exact (h.solid j ((hlive j hji).1 hj)).congr (by rw [hother j hji]) fun x => by rw [hother j hji, hblk]

/-- The inode that `ialloc` finds was free. -/
theorem ialloc_ends (s : Volume) (t : FileType) : Ends (fun e => e = .ialloc) (s.ialloc t) fun r =>
    (r.1 < s.sb.ninodes ∧ (s.dinode r.1).type = .free) ∧ r.2.sb = s.sb ∧ r.2.block = s.block ∧
      r.2.dinode = Function.update s.dinode r.1 ⟨t, 0, 0, 0, 0, fun _ => 0⟩ := by
  unfold ialloc
  split
  · exact rfl
  · rename_i i hfind
    have hfound := List.find?_some hfind
    have hfree := of_decide_eq_true hfound
    exact ⟨⟨List.mem_range.1 (List.mem_of_find?_eq_some hfind), hfree.2⟩, rfl, rfl, rfl⟩

theorem Sound.create (h : Sound s) (t : FileType) (major minor : Int) :
    Ends (fun e => e = .ialloc) ((Op.create t major minor).run s) Sound := by
  simp only [Op.run]
  refine (ialloc_ends s t).bind fun r hr => ?_
  obtain ⟨i, s₁⟩ := r
  obtain ⟨⟨hi, hfree⟩, hsb, hblk, hdin⟩ := hr
  dsimp only at hi hfree hsb hblk hdin ⊢
  have hnew : s₁.dinode i = ⟨t, 0, 0, 0, 0, fun _ => 0⟩ := by rw [hdin, Function.update_self]
  refine h.replace (i := i) hsb hblk ?_ (fun x => if_neg fun hl => hl.2 hfree) ?_ ?_
    (p := { s₁.dinode i with major, minor, nlink := 1 })
  · unfold iupdate
    dsimp only
    rw [hdin, Function.update_idem]
  · rw [hnew]
  · rw [hnew]

/-- The inode that was written is on the disk. -/
theorem Written.disk {src : Nat → BitVec 8} {off n : Nat} {ip' : Dinode} (hw : Written s s.dinode i src off n ip' s') :
    s'.dinode = Function.update s.dinode i ip' := by
  funext j
  by_cases hj : j = i
  · rw [hj, Function.update_self, hw.update rfl]
  · rw [Function.update_of_ne hj, hw.dinode j hj]

theorem Sound.written {src : Nat → BitVec 8} {off n : Nat} {ip' : Dinode} (h : Sound s)
    (hw : Written s s.dinode i src off n ip' s') : Sound s' := by
  have hf := hw.file
  rw [← hw.disk] at hf
  refine ⟨hf.own, fun j hj => ?_⟩
  by_cases hji : j = i
  · rw [hji]
    exact ⟨hf.size, hf.backed⟩
  · have hlive : s.Live s.dinode j := by
      unfold Live at hj ⊢
      rwa [hw.dinode j hji, hw.sb] at hj
    rw [hw.dinode j hji]
    exact (h.solid j hlive).congr rfl (hw.ptr j hji hlive)

theorem Sound.drop (h : Sound s) (i : Nat) : Ends (fun _ => False) ((Op.drop i).run s) Sound := by
  simp only [Op.run]
  split
  · rename_i hi
    refine (itrunc_ends h.own hi).bind fun r hr => ?_
    obtain ⟨ip, s₁⟩ := r
    dsimp only at hr ⊢
    have hdin := hr.dinode
    have hother : ∀ j, j ≠ i → s₁.dinode j = s.dinode j := fun j hj => by rw [hdin, Function.update_of_ne hj]
    have hself : s₁.dinode i = ip := by rw [hdin, Function.update_self]
    have hsound : Sound s₁ := by
      refine ⟨hdin ▸ hr.own, fun j hj => ?_⟩
      by_cases hji : j = i
      · rw [hji, hself]
        exact Solid.empty (by rw [hr.ip])
      · have hlive : s.Live s.dinode j := by
          unfold Live at hj ⊢
          rwa [hother j hji, hr.sb] at hj
        rw [hother j hji]
        refine (h.solid j hlive).congr rfl fun x => ptr_congr (fun hne => ?_) x
        exact hr.block _ (h.own.mem_data (x := .addr indirect) hlive hne)
    refine hsound.replace (i := i) rfl rfl rfl (fun x => ?_) ?_ ?_
    · unfold pt
      have hptr : (s₁.dinode i).ptr s₁.block x = 0 := by
        rw [hself, hr.ip]
        cases x <;> rfl
      rw [hptr, ite_self]
    · rw [hr.ip]
    · rw [hr.ip]
  · exact h

theorem Sound.relink (h : Sound s) (i : Nat) (nlink : Int) : Sound (s.iupdate i { s.dinode i with nlink }) := by
  have hsame : ∀ j, ((s.iupdate i { s.dinode i with nlink }).dinode j).type = (s.dinode j).type ∧
      ((s.iupdate i { s.dinode i with nlink }).dinode j).addrs = (s.dinode j).addrs ∧
      ((s.iupdate i { s.dinode i with nlink }).dinode j).size = (s.dinode j).size := fun j => by
    unfold iupdate
    dsimp only
    by_cases hj : j = i
    · rw [hj, Function.update_self]
      exact ⟨rfl, rfl, rfl⟩
    · rw [Function.update_of_ne hj]
      exact ⟨rfl, rfl, rfl⟩
  refine ⟨h.own.congr rfl rfl fun j => ⟨(hsame j).1, (hsame j).2.1⟩, fun j hj => ?_⟩
  refine (h.solid j ⟨hj.1, (hsame j).1 ▸ hj.2⟩).congr (hsame j).2.2 fun x => ?_
  unfold Dinode.ptr
  rw [(hsame j).2.1]
  rfl

theorem Op.run_ends (h : Sound s) (op : Op) : Ends (fun e => e = .balloc ∨ e = .ialloc) (op.run s) Sound := by
  cases op with
  | create t major minor => exact (h.create t major minor).weaken fun e he => .inr he
  | write i src off n =>
    simp only [Op.run]
    split
    · rename_i hi
      have hw := writei_ends src off n (h.file hi)
      by_cases hfits : off.toNat ≤ (s.dinode i).size ∧ off.toNat + n.toNat < 2 ^ 32 ∧
          off.toNat + n.toNat ≤ MAXFILE * BSIZE
      · exact ((hw.1 hfits).weaken fun e he => .inl he.1).bind fun r hr => h.written hr.2
      · rw [hw.2 hfits]
        exact h
    · exact h
  | read i off n =>
    simp only [Op.run]
    split
    · rename_i hi
      rw [readi_eq off n (h.file hi)]
      exact h
    · exact h
  | relink i nlink =>
    simp only [Op.run]
    split
    · exact h.relink i nlink
    · exact h
  | drop i => exact (h.drop i).weaken fun e he => he.elim

/-! ## Sequences of operations -/

theorem runOps_ends (h : Sound s) (ops : List Op) :
    Ends (fun e => e = .balloc ∨ e = .ialloc) (runOps ops s) Sound := by
  induction ops generalizing s with
  | nil => exact h
  | cons op ops ih => exact (Op.run_ends h op).bind fun s₁ hs₁ => ih hs₁

/-- A block of the data area is marked if and only if one pointer leads to it. -/
theorem Own.marked_iff (h : Own s T) {b : Nat} (hb : b ∈ s.sb.dataArea) :
    s.used b = true ↔ ∃! p : Nat × Place, s.Live T p.1 ∧ (T p.1).ptr s.block p.2 = b := by
  have hne : b ≠ 0 := fun h0 => zero_not_data s.sb (h0 ▸ hb)
  have hpt : ∀ p : Nat × Place, s.pt T p = b ↔ s.Live T p.1 ∧ (T p.1).ptr s.block p.2 = b := fun p => by
    unfold pt
    split
    · rename_i hl
      exact (and_iff_right hl).symm
    · rename_i hl
      exact ⟨fun h0 => absurd h0.symm hne, fun hp => absurd hp.1 hl⟩
  refine (h.toOwns.used b hb).trans ⟨fun ⟨p, hp⟩ => ⟨p, (hpt p).1 hp, fun q hq => ?_⟩, fun ⟨p, hp, _⟩ => ⟨p, (hpt p).2 hp⟩⟩
  have hq' := (hpt q).2 hq
  exact h.toOwns.inj q p (hq'.trans hp.symm) (hq' ▸ hne)

/-- Whatever is created, written, read, linked and freed, the free map says which blocks are in use: a block of the
data area is marked if and only if exactly one pointer of one allocated inode leads to it, and pointers lead nowhere
else. The disk may have too few blocks or inodes, but `bfree` is never given a block that is free already. -/
theorem block_allocation_consistent (h : Sound s) (ops : List Op) :
    Ends (fun e => e = .balloc ∨ e = .ialloc) (runOps ops s) fun s' =>
      (∀ b, s'.sb.first ≤ b → b < s'.sb.size →
        (s'.used b = true ↔ ∃! p : Nat × Place, s'.Live s'.dinode p.1 ∧ (s'.dinode p.1).ptr s'.block p.2 = b)) ∧
      ∀ i x, s'.Live s'.dinode i → (s'.dinode i).ptr s'.block x ≠ 0 →
        s'.sb.first ≤ (s'.dinode i).ptr s'.block x ∧ (s'.dinode i).ptr s'.block x < s'.sb.size := by
  refine (runOps_ends h ops).mono fun s' hs' => ⟨fun b hlo hhi => hs'.own.marked_iff ⟨hlo, hhi⟩, fun i x hi hne => ?_⟩
  exact hs'.own.mem_data hi hne

/-- The inode of a small disk is written, freed, allocated again and written with two blocks. -/
def rewritten : Except BlockPanic Volume :=
  runOps [.write 1 (fun _ => 7) 0 3, .drop 1, .create .file 0 0, .write 1 (fun _ => 8) 0 600, .read 1 0 600, .relink 1 2]
    (blank .file)

theorem rewritten_consistent : ∃ s', rewritten = .ok s' ∧ (s'.used 3, s'.used 4, s'.used 5) = (true, true, false) ∧
    ∃! p : Nat × Place, s'.Live s'.dinode p.1 ∧ (s'.dinode p.1).ptr s'.block p.2 = 4 := by
  have hsound : Sound (blank .file) :=
    ⟨(blank_file (t := .file) (by decide) (by decide)).own, fun i _ => Solid.empty rfl⟩
  have hrun : rewritten.toOption.map (fun s' => (s'.sb.first, s'.sb.size, s'.used 3, s'.used 4, s'.used 5)) =
      some (3, 16, true, true, false) := by decide
  have hends := block_allocation_consistent hsound
    [.write 1 (fun _ => 7) 0 3, .drop 1, .create .file 0 0, .write 1 (fun _ => 8) 0 600, .read 1 0 600, .relink 1 2]
  change Ends _ rewritten _ at hends
  cases hr : rewritten with
  | error e =>
    rw [hr] at hrun
    cases hrun
  | ok s' =>
    rw [hr] at hrun hends
    obtain ⟨hfirst, hsize, h3, h4, h5⟩ : s'.sb.first = 3 ∧ s'.sb.size = 16 ∧ s'.used 3 = true ∧ s'.used 4 = true ∧
      s'.used 5 = false := by simpa [Except.toOption] using hrun
    exact ⟨s', rfl, by rw [h3, h4, h5], (hends.1 4 (by omega) (by omega)).1 h4⟩

end Volume

end Xv6
