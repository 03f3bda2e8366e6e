import Xv6.Fs.Paths
/-!
# Making, linking and unlinking inodes

Each of `create`, `sys_link` and `sys_unlink` writes one or two inodes. The
table of inodes it leaves behind is put together from `Links.alloc`,
`Links.link`, `Links.unlink`, `Links.relink` and `Links.free`.
-/

namespace Xv6

open Outcome Inodes

/-! ## Writing inodes -/

namespace Inode

variable {x y : Inode} {off : Nat} {e : Dirent}

theorem blocks_mono (h : x.size ≤ y.size) : x.blocks ≤ y.blocks := by
  have hdiv : (x.size + (BSIZE - 1)) / BSIZE ≤ (y.size + (BSIZE - 1)) / BSIZE := Nat.div_le_div_right (by omega)
  unfold blocks
  dsimp only
  split <;> split <;> omega

theorem blocks_put : x.blocks ≤ (x.put off e).blocks := by
  refine blocks_mono ?_
  unfold size put
  split
  · rw [List.length_set]
  · dsimp only
    rw [List.length_append]
    omega

end Inode

namespace Fs

variable {P : Type} {a g : Prop} {s t u : Fs P} {T U : Inodes} {ip dp : Ip} {i d : Inum} {x y : Inode} {name : Name}

/-- The blocks of an inode, if it is allocated. -/
def taken (x : Inode) : Nat := if x.type = .free then 0 else x.blocks

theorem total_update (T : Inodes) (i : Inum) (x : Inode) :
    total (Function.update T i x) + taken (T i) = total T + taken x := by
  have h := Sums.sum_move (f := fun c => taken (T c)) (g := fun c => taken (Function.update T i x c)) i
    (fun c hc => by rw [Function.update_of_ne hc])
  rw [Function.update_self, Fin.sum_univ_def, Fin.sum_univ_def] at h
  exact h

/-- Only the inodes change, to those of `T`, and the blocks are counted. -/
structure Wrote (s : Fs P) (T : Inodes) (t : Fs P) : Prop where
  inode : t.inode = T
  space : t.free + total t.inode = s.free + total s.inode
  cache : t.cache = s.cache
  ft : t.ft = s.ft
  proc : t.proc = s.proc
  ops : t.ops = s.ops

namespace Wrote

theorem trans (hst : Wrote s T t) (htu : Wrote t U u) : Wrote s U u :=
  ⟨htu.inode, htu.space.trans hst.space, htu.cache.trans hst.cache, htu.ft.trans hst.ft, htu.proc.trans hst.proc,
    htu.ops.trans hst.ops⟩

theorem inum (h : Wrote s T t) : t.inum = s.inum := by
  funext ip
  rw [Fs.inum, Fs.inum, h.cache]

theorem node (h : Wrote s T t) : t.node ip = T (s.inum ip) := by
  rw [Fs.node, h.inum, h.inode]

variable [Fintype P]

theorem frame (h : Wrote s T t) : Frame s t := ⟨h.ft, h.proc, h.ops, fun ip _ => by rw [h.inum]⟩

theorem refs (hw : Wrote s T t) {h : List (Ip × Inum)} {l : List Ip} {k : List FileId} (hs : Refs s h l k)
    (htype : ∀ c, (s.inode c).type ≠ .free → (T c).type = (s.inode c).type) : Refs t h l k :=
  hs.table hw.ft hw.proc hw.cache (by rw [hw.inode]; exact htype)

end Wrote

theorem wrote_setInode (hx : taken x = taken (s.inode i)) : Wrote s (Function.update s.inode i x) (s.setInode i x) := by
  refine ⟨rfl, ?_, rfl, rfl, rfl, rfl⟩
  have h := total_update s.inode i x
  change s.free + total (Function.update s.inode i x) = _
  omega

theorem wrote_addLink (ip : Ip) (n : Int) :
    Wrote s (Function.update s.inode (s.inum ip) { s.node ip with nlink := (s.node ip).nlink + n }) (s.addLink ip n) :=
  wrote_setInode rfl

theorem store_wrote (htype : (s.node ip).type ≠ .free) (hx : x.type = (s.node ip).type)
    (hb : (s.node ip).blocks ≤ x.blocks) :
    Ends (Err a) (s.store ip x) (Wrote s (Function.update s.inode (s.inum ip) x)) := by
  unfold store
  dsimp only
  split
  · trivial
  · refine ⟨rfl, ?_, rfl, rfl, rfl, rfl⟩
    have h := total_update s.inode (s.inum ip) x
    have hold : taken (s.inode (s.inum ip)) = (s.node ip).blocks := if_neg htype
    have hnew : taken x = x.blocks := if_neg (hx ▸ htype)
    change s.free - _ + total (Function.update s.inode (s.inum ip) x) = _
    omega

theorem dirlink_absent (hdir : (s.node dp).type = .dir) (hoff : (s.node dp).offsetOf name = none) :
    Ends (Err a) (s.dirlink dp name i) fun r => r.1 = true ∧
      Wrote s (Function.update s.inode (s.inum dp) ((s.node dp).put (s.node dp).freeSlot ⟨name, i⟩)) r.2 := by
  have hlook : s.dirlookup dp name = .ok (none, s) := by
    unfold dirlookup
    rw [if_neg (not_not.2 hdir), hoff]
  have hfree : (s.node dp).type ≠ .free := by
    rw [hdir]
    exact nofun
  have hput : ∀ off e, ((s.node dp).put off e).type = (s.node dp).type := fun _ _ => rfl
  unfold dirlink
  rw [hlook]
  change Ends _ (if MAXDIRENTS ≤ (s.node dp).freeSlot then _ else _) _
  by_cases hmax : MAXDIRENTS ≤ (s.node dp).freeSlot
  · rw [if_pos hmax]
    trivial
  · rw [if_neg hmax]
    have hstore := store_wrote (a := a) hfree (hput (s.node dp).freeSlot ⟨name, i⟩) Inode.blocks_put
    exact hstore.bind fun t ht => ⟨rfl, ht⟩

/-- The `.` and `..` entries go into a directory that is still empty. -/
theorem mkdots_ends {ma mi n : Int} (hip : s.inum ip = i) (hdp : s.inum dp = d) (hne : i ≠ d) (hz : i ≠ noInum)
    (hnew : s.inode i = ⟨.dir, ma, mi, n, [], []⟩) :
    Ends (Err a) (s.mkdots ip dp) (Wrote s (Function.update
      (Function.update s.inode d { s.inode d with nlink := (s.inode d).nlink + 1 }) i
      ⟨.dir, ma, mi, n, [⟨dot, i⟩, ⟨dotdot, d⟩], []⟩)) := by
  have hw₁ := wrote_addLink (s := s) dp 1
  have hnode : s.node dp = s.inode d := by rw [node, hdp]
  rw [hnode, hdp] at hw₁
  have hn₁ : (s.addLink dp 1).node ip = ⟨.dir, ma, mi, n, [], []⟩ := by
    rw [hw₁.node, hip, Function.update_of_ne hne, hnew]
  unfold mkdots
  refine (dirlink_absent (by rw [hn₁]) (by rw [hn₁]; rfl)).bind fun r hr => ?_
  obtain ⟨hok, hw₂⟩ := hr
  obtain ⟨ok, s₂⟩ := r
  subst hok
  have hi₁ : (s.addLink dp 1).inum ip = i := by rw [hw₁.inum, hip]
  rw [hn₁, hi₁, hip] at hw₂
  replace hw₂ := hw₁.trans hw₂
  have hput : Inode.put ⟨.dir, ma, mi, n, [], []⟩ (Inode.freeSlot ⟨.dir, ma, mi, n, [], []⟩) ⟨dot, i⟩ =
      ⟨.dir, ma, mi, n, [⟨dot, i⟩], []⟩ := rfl
  rw [hput, hw₁.inode] at hw₂
  have hn₂ : s₂.node ip = ⟨.dir, ma, mi, n, [⟨dot, i⟩], []⟩ := by rw [hw₂.node, hip, Function.update_self]
  have hoff : Inode.offsetOf ⟨.dir, ma, mi, n, [⟨dot, i⟩], []⟩ dotdot = none := by
    simp [Inode.offsetOf, dot, dotdot]
  refine (dirlink_absent (by rw [hn₂]) (by rw [hn₂, hoff])).bind fun r hr => ?_
  obtain ⟨hok, hw₃⟩ := hr
  obtain ⟨ok, s₃⟩ := r
  subst hok
  have hslot : Inode.freeSlot ⟨.dir, ma, mi, n, [⟨dot, i⟩], []⟩ = 1 := by simp [Inode.freeSlot, List.findIdx_cons, hz]
  have hput₂ : Inode.put ⟨.dir, ma, mi, n, [⟨dot, i⟩], []⟩ 1 ⟨dotdot, d⟩ =
      ⟨.dir, ma, mi, n, [⟨dot, i⟩, ⟨dotdot, d⟩], []⟩ := rfl
  have hi₂ : s₂.inum ip = i := by rw [hw₂.inum, hip]
  have hd₂ : s₂.inum dp = d := by rw [hw₂.inum, hdp]
  rw [hn₂, hi₂, hslot, hd₂, hput₂, hw₂.inode, Function.update_idem] at hw₃
  exact hw₂.trans hw₃

/-- The inodes are those of `T` and the blocks are counted; the cache may differ where
nobody uses it. -/
structure Made [Fintype P] (s : Fs P) (T : Inodes) (t : Fs P) : Prop extends Frame s t where
  inode : t.inode = T
  space : t.free + total t.inode = s.free + total s.inode

section Made

variable [Fintype P] {h : List (Ip × Inum)} {l : List Ip} {k : List FileId} {pr pr' : List Inum} {ty : FileType}

theorem Still.made (hst : Still s t) : Made s s.inode t := ⟨hst.toFrame, hst.inode, by rw [hst.free, hst.inode]⟩

theorem Wrote.made (hw : Wrote s T t) : Made s T t := ⟨hw.frame, hw.inode, hw.space⟩

theorem Freed.made (hf : Freed s i t) (hi : (s.inode i).type ≠ .free) :
    Made s (Function.update s.inode i { s.inode i with type := .free, ents := [], data := [] }) t := by
  refine ⟨hf.toFrame, hf.inode, ?_⟩
  have htotal := total_update s.inode i { s.inode i with type := .free, ents := [], data := [] }
  have hold : taken (s.inode i) = (s.inode i).blocks := if_neg hi
  have hnew : taken { s.inode i with type := .free, ents := [], data := [] } = 0 := if_pos rfl
  rw [hf.free, hf.inode]
  omega

namespace Made

theorem trans (hst : Made s T t) (htu : Made t U u) : Made s U u :=
  ⟨hst.toFrame.trans htu.toFrame, htu.inode, htu.space.trans hst.space⟩

theorem still (hst : Made s T t) (htu : Still t u) : Made s T u := by
  have hmade := hst.trans htu.made
  rwa [hst.inode] at hmade

theorem toStill (hm : Made s s.inode t) : Still s t := by
  have hspace := hm.space
  rw [hm.inode] at hspace
  exact ⟨hm.toFrame, hm.inode, by omega⟩

theorem kept (hm : Made s T t)
    (hk : ∀ i, (T i).type ≠ .free → (T i).nlink ≤ 0 → ∃ ip, s.inum ip = i ∧ 0 < s.users ip) : Kept t := by
  intro i hi hn
  rw [hm.inode] at hi hn
  obtain ⟨ip, hip, hu⟩ := hk i hi hn
  exact ⟨ip, by rw [hm.inum ip hu, hip], by rwa [hm.users]⟩

theorem good (hm : Made s T t) (hg : Good a g s pr) (hl : Inodes.Links a g T pr')
    (hk : ∀ i, (T i).type ≠ .free → (T i).nlink ≤ 0 → ∃ ip, s.inum ip = i ∧ 0 < s.users ip) : Good a g t pr' :=
  ⟨hm.inode ▸ hl, hm.space.trans hg.space, hm.kept hk⟩

theorem op (hm : Made s.beginOp T t) : Made s T t.endOp := ⟨hm.toFrame.op, hm.inode, hm.space⟩

end Made

/-! ## `create` -/

theorem Refs.ialloc (hs : Refs s h l k) (hty : ty ≠ .free) :
    Ends (Err a) (s.ialloc ty) fun r => ∃ i, i ≠ noInum ∧ (s.inode i).type = .free ∧
      Made s (Function.update s.inode i ⟨ty, 0, 0, 0, [], []⟩) r.2 ∧ Refs r.2 ((r.1, i) :: h) l k := by
  unfold Fs.ialloc
  split
  · trivial
  · rename_i i hfind
    have hi : i ≠ noInum ∧ (s.inode i).type = .free := by simpa using List.find?_some hfind
    have hblocks : taken ⟨ty, 0, 0, 0, [], []⟩ = taken (s.inode i) := by
      rw [taken, if_neg hty, taken, if_pos hi.2]
      simp [Inode.blocks, Inode.size, BSIZE, NDIRECT]
    have hwrote := wrote_setInode hblocks
    have hs₁ := hwrote.refs hs fun c hc => by
      rw [Function.update_of_ne]
      rintro rfl
      exact hc hi.2
    refine (hs₁.iget i fun _ => trivial).mono fun r hr => ?_
    exact ⟨i, hi.1, hi.2, hwrote.made.still hr.1, hr.2⟩

/-- The last part of `create`: the entry for the new inode `i`, whose fields are `y`. -/
theorem Refs.createEntry (hs : Refs t ((ip, i) :: (dp, d) :: h) [ip, dp] k) (hg : Good a g s [])
    (hd : (s.inode d).type = .dir) (hoff : (s.inode d).offsetOf name = none) (hz : i ≠ noInum)
    (hi : (s.inode i).type = .free) (hroom : g ∨ (a ∧ y.type = .dir) → 1 ≤ (s.inode d).nlink) (hy : y.type ≠ .free)
    (hdots : y.type = .dir → y.ents = [⟨dot, i⟩, ⟨dotdot, d⟩]) (hn : y.nlink = 1)
    (hm : Made s (Function.update (Function.update s.inode d
      { s.inode d with nlink := (s.inode d).nlink + if y.type = .dir then 1 else 0 }) i y) t) :
    Ends (Err a) (t.dirlink dp name (t.inum ip) >>= fun r =>
      if !r.1 then .error .create else r.2.iunlockput dp >>= fun u => .ok (some ip, u)) fun r =>
      ∃ ip i, r.1 = some ip ∧ (s.inode i).type = .free ∧ (r.2.inode i).type = y.type ∧ Frame s r.2 ∧ Good a g r.2 [] ∧
        Refs r.2 ((ip, i) :: h) [ip] k := by
  have hne : d ≠ i := by
    rintro rfl
    rw [hd] at hi
    cases hi
  generalize hw : ({ s.inode d with nlink := (s.inode d).nlink + if y.type = .dir then 1 else 0 } : Inode) = w at hm
  have hdt : t.inum dp = d := hs.inum (dp, d) (List.mem_cons_of_mem _ List.mem_cons_self)
  have hit : t.inum ip = i := hs.inum _ List.mem_cons_self
  have hwd : t.inode d = w := by rw [hm.inode, Function.update_of_ne hne, Function.update_self]
  have hnode : t.node dp = w := by rw [node, hdt, hwd]
  refine (dirlink_absent (by rw [hnode, ← hw]; exact hd) (by rw [hnode, ← hw]; exact hoff)).bind fun r hr => ?_
  obtain ⟨hok, hw₁⟩ := hr
  obtain ⟨ok, u⟩ := r
  subst hok
  have hput : w.put w.freeSlot ⟨name, i⟩ = { (s.inode d).put (s.inode d).freeSlot ⟨name, i⟩ with nlink := w.nlink } := by
    rw [← hw]
    rfl
  rw [hnode, hdt, hit, hput] at hw₁
  have hu := hw₁.refs hs fun c _ => by
    by_cases hc : c = d
    · rw [hc, Function.update_self, hwd, ← hw]
      rfl
    · rw [Function.update_of_ne hc]
  replace hw₁ := hm.trans hw₁.made
  rw [hm.inode, Function.update_comm hne, Function.update_idem] at hw₁
  have hlinks := hg.links.create name hz hi List.not_mem_nil hd hroom hy hdots hn (n := w.nlink) (by rw [← hw])
  have hkept := hw₁.kept fun c hc hc0 => by
    by_cases hcd : c = d
    · rw [hcd, Function.update_self, ← hw] at hc0
      refine hcd ▸ hg.kept d (by rw [hd]; decide) ?_
      dsimp only at hc0
      split at hc0 <;> omega
    · rw [Function.update_of_ne hcd] at hc hc0
      by_cases hci : c = i
      · rw [hci, Function.update_self, hn] at hc0
        exact absurd hc0 (by decide)
      · rw [Function.update_of_ne hci] at hc hc0
        exact hg.kept c hc hc0
  refine (hu.iunlockput_quiet hkept (.swap ..) (.swap ..)).bind fun v hv => ?_
  have hm₂ := hw₁.still hv.1
  refine ⟨ip, i, rfl, hi, ?_, hm₂.toFrame, (⟨hw₁.inode ▸ hlinks, hw₁.space.trans hg.space, hkept⟩ : Good a g u []).still hv.1, hv.2⟩
  rw [hm₂.inode, Function.update_of_ne hne.symm, Function.update_self]

/-- A new inode is locked and has an entry; the directory is put. -/
theorem Refs.createNew (hs : Refs s ((dp, d) :: h) [dp] k) (hg : Good a g s []) (hd : (s.inode d).type = .dir)
    (hoff : (s.inode d).offsetOf name = none) (hroom : g ∨ (a ∧ ty = .dir) → 1 ≤ (s.inode d).nlink) (hty : ty ≠ .free)
    (ma mi : Int) : Ends (Err a) (s.createNew dp name ty ma mi) fun r => ∃ ip i, r.1 = some ip ∧ (s.inode i).type = .free ∧
      (r.2.inode i).type = ty ∧ Frame s r.2 ∧ Good a g r.2 [] ∧ Refs r.2 ((ip, i) :: h) [ip] k := by
  unfold Fs.createNew
  refine (hs.ialloc hty).bind fun r hr => ?_
  obtain ⟨ip, s₁⟩ := r
  obtain ⟨i, hz, hfree, hm₁, hs₁⟩ := hr
  have hne : d ≠ i := by
    rintro rfl
    rw [hd] at hfree
    cases hfree
  have hn₁ : s₁.node ip = ⟨ty, 0, 0, 0, [], []⟩ := by
    rw [hs₁.node_held List.mem_cons_self, hm₁.inode, Function.update_self]
  refine (hs₁.ilock (hs₁.ref_held List.mem_cons_self) (fun _ => trivial) fun hf => absurd (by rwa [hn₁] at hf) hty).bind
    fun s₂ hs₂ => ?_
  obtain ⟨hst₂, hs₂⟩ := hs₂
  have hm₂ := hm₁.still hst₂
  have hi₂ : s₂.inum ip = i := hs₂.inum _ List.mem_cons_self
  have hd₂ : s₂.inum dp = d := hs₂.inum (dp, d) (List.mem_cons_of_mem _ List.mem_cons_self)
  have hx₂ : s₂.inode i = ⟨ty, 0, 0, 0, [], []⟩ := by rw [hm₂.inode, Function.update_self]
  have hn₂ : s₂.node ip = ⟨ty, 0, 0, 0, [], []⟩ := by rw [node, hi₂, hx₂]
  dsimp only
  rw [hn₂, hi₂]
  have hw₃ : Wrote s₂ (Function.update s₂.inode i ⟨ty, ma, mi, 1, [], []⟩) (s₂.setInode i ⟨ty, ma, mi, 1, [], []⟩) :=
    wrote_setInode (by rw [hx₂]; rfl)
  generalize s₂.setInode i ⟨ty, ma, mi, 1, [], []⟩ = s₃ at hw₃
  have hs₃ := hw₃.refs hs₂ fun c _ => by
    by_cases hc : c = i
    · rw [hc, Function.update_self, hx₂]
    · rw [Function.update_of_ne hc]
  have hm₃ := hm₂.trans hw₃.made
  rw [hm₂.inode, Function.update_idem] at hm₃
  have hd₃ : s₃.inode d = s.inode d := by rw [hm₃.inode, Function.update_of_ne hne]
  by_cases hdir : ty = .dir
  · subst hdir
    rw [if_pos rfl]
    refine (mkdots_ends (hs₃.inum _ List.mem_cons_self) (by rw [hw₃.inum, hd₂]) hne.symm hz
      (by rw [hm₃.inode, Function.update_self])).bind fun s₄ hw₄ => ?_
    have hs₄ := hw₄.refs hs₃ fun c _ => by
      by_cases hci : c = i
      · rw [hci, Function.update_self, hm₃.inode, Function.update_self]
      · rw [Function.update_of_ne hci]
        by_cases hcd : c = d
        · rw [hcd, Function.update_self]
        · rw [Function.update_of_ne hcd]
    have hm₄ := hm₃.trans hw₄.made
    rw [hd₃, hm₃.inode, Function.update_comm hne.symm, Function.update_idem] at hm₄
    exact hs₄.createEntry hg hd hoff hz hfree hroom hty (fun _ => rfl) rfl hm₄
  · rw [if_neg hdir]
    refine hs₃.createEntry (y := ⟨ty, ma, mi, 1, [], []⟩) hg hd hoff hz hfree hroom hty (fun hd => absurd hd hdir)
      rfl ?_
    rw [if_neg hdir, Int.add_zero, Function.update_eq_self]
    exact hm₃

/-- The path leads to a directory that has no entry for its last name. -/
def Absent (s : Fs P) (cwd : Ip) (path : List Char) : Prop :=
  ∃ d name, s.resolve cwd true path = some (d, name) ∧ (s.inode d).lookup name = none

/-- If an entry is to be made for the path, then in a directory that has a link. -/
def Room (s : Fs P) (cwd : Ip) (path : List Char) : Prop :=
  ∀ d name, s.resolve cwd true path = some (d, name) → (s.inode d).lookup name = none → 1 ≤ (s.inode d).nlink

/-- A call has the inode `i` locked, and has made it if it is new. -/
structure Got (a g : Prop) (s : Fs P) (k : List FileId) (new : Prop) (ip : Ip) (i : Inum) (t : Fs P) : Prop where
  refs : Refs t [(ip, i)] [ip] k
  good : Good a g t []
  frame : Frame s t
  old : ¬ new → Still s t
  made : new → (s.inode i).type = .free ∧ (t.inode i).type ≠ .free

/-- `create` makes an inode, or returns a file that is there, or nothing. -/
theorem Refs.create (hs : Refs s [] [] k) (hg : Good a g s []) (cwd : Ip) (hcwd : 0 < s.users cwd) (path : List Char)
    (hroom : g ∨ (a ∧ ty = .dir) → s.Room cwd path) (hty : ty ≠ .free) (ma mi : Int) :
    Ends (Err a) (s.create cwd path ty ma mi) fun r =>
      match r.1 with
      | none => Still s r.2 ∧ Refs r.2 [] [] k ∧ ¬ Absent s cwd path
      | some ip => ∃ i, Got a g s k (Absent s cwd path) ip i r.2 ∧ (r.2.inode i).type = ty := by
  unfold Fs.create
  refine (hs.nameiparent hg hcwd path).bind fun r hr => ?_
  obtain ⟨r₁, s₁⟩ := r
  cases hw : s.resolve cwd true path with
  | none =>
    rw [hw] at hr
    obtain ⟨rfl, hst₁, hs₁⟩ := hr
    refine ⟨hst₁, hs₁, ?_⟩
    rintro ⟨d, name, hw', -⟩
    rw [hw] at hw'
    cases hw'
  | some w =>
    obtain ⟨d, name⟩ := w
    rw [hw] at hr
    obtain ⟨hdir, dp, rfl, hlock⟩ := hr
    refine hlock.bind fun s₂ hs₂ => ?_
    obtain ⟨hst, hs₂, hnode₂⟩ := hs₂
    refine (hs₂.dirlookup name (by rw [hnode₂, hdir]) fun _ => trivial).bind fun r hr => ?_
    obtain ⟨r₃, s₃⟩ := r
    obtain ⟨hst₃, hr⟩ := hr
    rw [hnode₂] at hr
    replace hst := hst.trans hst₃
    cases hoff : (s.inode d).offsetOf name with
    | none =>
      rw [hoff] at hr
      obtain ⟨rfl, rfl⟩ := hr
      have hnone : (s.inode d).lookup name = none := by
        rw [Inode.lookup, hoff]
        rfl
      have habsent : Absent s cwd path := ⟨d, name, hw, hnone⟩
      have hs₃ : Refs s₃ [(dp, d)] [dp] k := hs₂
      refine (hs₃.createNew (hg.still hst) (by rw [hst.inode, hdir]) (by rw [hst.inode, hoff])
        (fun hag => by rw [hst.inode]; exact hroom hag d name hw hnone) hty ma mi).mono fun r hr => ?_
      obtain ⟨r₄, s₄⟩ := r
      obtain ⟨ip, i, rfl, hfree, htype, hframe, hgood, hs₄⟩ := hr
      rw [hst.inode] at hfree
      exact ⟨i, ⟨hs₄, hgood, hst.toFrame.trans hframe, fun h => absurd habsent h, fun _ => ⟨hfree, htype ▸ hty⟩⟩, htype⟩
    | some off =>
      rw [hoff] at hr
      obtain ⟨ip, rfl, hs₃⟩ := hr
      have hthere : ¬ Absent s cwd path := by
        rintro ⟨d', name', hw', hnone⟩
        rw [hw] at hw'
        obtain ⟨rfl, rfl⟩ := Prod.mk.inj (Option.some.inj hw')
        rw [Inode.lookup, hoff] at hnone
        cases hnone
      generalize hi : ((s.inode d).ents.getD off .empty).inum = i at hs₃
      refine (hs₃.iunlockput_quiet (hg.kept.still hst) (.swap ..) (.refl _)).bind fun s₄ hs₄ => ?_
      obtain ⟨hst₄, hs₄⟩ := hs₄
      replace hst := hst.trans hst₄
      refine (hs₄.ilock (hs₄.ref_held List.mem_cons_self) (fun _ => trivial) fun hfree ha => ?_).bind fun s₅ hs₅ => ?_
      · obtain ⟨hmem, hz, -⟩ := Inode.offsetOf_some hoff
        rw [hs₄.node_held List.mem_cons_self, hst.inode, ← hi] at hfree
        exact hg.entries ha d hdir _ hmem hz hfree
      · obtain ⟨hst₅, hs₅⟩ := hs₅
        replace hst := hst.trans hst₅
        split
        · rename_i hfile
          rw [hs₅.node_held List.mem_cons_self] at hfile
          exact ⟨i, ⟨hs₅, hg.still hst, hst.toFrame, fun _ => hst, fun h => absurd h hthere⟩, hfile.2.trans hfile.1.symm⟩
        · refine (hs₅.iunlockput_quiet (hg.kept.still hst) (.refl _) (.refl _)).bind fun s₆ hs₆ => ?_
          exact ⟨hst.trans hs₆.1, hs₆.2, hthere⟩

end Made

end Fs

end Xv6
