import Xv6.Fs.Create
/-!
# Linking and unlinking

`sys_unlink` clears an entry and only then takes the link away, and `sys_link`
counts the link before it has the entry: in between the link is a promised one.
The last reference to an inode without links frees it, which can happen to the
directory as well, if that has been unlinked while somebody was in it.
-/

namespace Xv6

open Outcome Inodes

namespace Fs

variable {P : Type} [Fintype P] {a g : Prop} {s s₀ t : Fs P} {h h' : List (Ip × Inum)} {l l' : List Ip} {k : List FileId}
  {pr : List Inum} {ip dp cwd : Ip} {i d : Inum} {name : Name} {off : Nat}

/-- Between two calls everything is counted. -/
structure Sane (a g : Prop) (s : Fs P) : Prop where
  refs : Refs s [] [] []
  good : Good a g s []

/-- The beginning and the end of a transaction change nothing that is counted. -/
theorem Good.ops (hg : Good a g s pr) {n : Nat} : Good a g { s with ops := n } pr := by
  refine ⟨hg.links, hg.space, fun i hi hn => ?_⟩
  obtain ⟨ip, hip, hu⟩ := hg.kept i hi hn
  exact ⟨ip, hip, by rwa [users_congr (s := s) (t := { s with ops := n }) rfl rfl]⟩

theorem Sane.endOp (hs : Sane a g s) : Sane a g s.endOp := ⟨hs.refs.endOp, hs.good.ops⟩

theorem Sane.still (hg : Good a g s []) (hst : Still s t) (ht : Refs t [] [] []) : Sane a g t := ⟨ht, hg.still hst⟩

theorem Sane.beginOp (hs : Sane a g s) : Sane a g s.beginOp := ⟨hs.refs.beginOp, hs.good.ops⟩

/-- `namei`, and `ilock` of the inode that it finds. -/
theorem Sane.namei (hs : Sane a g s) (hcwd : 0 < s.users cwd) (path : List Char) :
    Ends (Err a) (s.namex cwd false path) fun r => Still s r.2 ∧
      match r.1 with
      | none => Refs r.2 [] [] []
      | some (ip, _) => ∃ i, Ends (Err a) (r.2.ilock ip) fun t => Still s t ∧ Refs t [(ip, i)] [ip] [] := by
  refine (hs.refs.path false path hs.good hcwd).mono fun r hr => ?_
  obtain ⟨hst, hr⟩ := hr
  obtain ⟨r₁, t⟩ := r
  refine ⟨hst, ?_⟩
  cases hw : s.resolve cwd false path with
  | none =>
    rw [hw] at hr
    obtain ⟨rfl, ht⟩ := hr
    exact ht
  | some w =>
    obtain ⟨i, name⟩ := w
    rw [hw] at hr
    obtain ⟨ip, rfl, ht⟩ := hr
    refine ⟨i, (ht.ilock (ht.ref_held List.mem_cons_self) (fun _ => trivial) fun hfree ha => ?_).mono fun u hu => ?_⟩
    · rw [ht.node_held List.mem_cons_self, hst.inode] at hfree
      exact hs.good.resolve hs.refs hcwd ha hw hfree
    · exact ⟨hst.trans hu.1, hu.2⟩

/-! ## The last reference -/

/-- `iput` where only the inode itself may be without links and not in use. -/
theorem Refs.iput_good (hs : Refs s h l k) (hh : h.Perm ((ip, i) :: h')) (hlinks : Inodes.Links a g s.inode pr)
    (hspace : s.free + total s.inode = SPACE)
    (hkept : ∀ j, j ≠ i → (s.inode j).type ≠ .free → (s.inode j).nlink ≤ 0 → ∃ jp, s.inum jp = j ∧ 0 < s.users jp)
    (hvalid : (s.cache ip).valid = true ∨ i = ROOTINO) (hlast : (h'.map Prod.fst).count ip = 0) :
    Ends (Err a) (s.iput ip) fun t => Refs t h' l k ∧ Good a g t pr ∧ Frame s t ∧
      ∀ j, t.inode j = s.inode j ∨ (j = i ∧ (t.inode j).type = .free) := by
  refine (hs.iput_cases hh fun _ => trivial).mono fun t ht => ?_
  obtain ⟨ht, ⟨hst, huse⟩ | ⟨hfreed, -, hn, htype⟩⟩ := ht
  · have hk : Kept s := by
      intro j hj hjn
      by_cases hji : j = i
      · subst hji
        have hcount := hlinks.count j hj
        have hv : (s.cache ip).valid = true := by
          refine hvalid.resolve_right ?_
          rintro rfl
          have := hlinks.root_linked
          omega
        have hu := huse hv (by omega)
        rw [hlast, Nat.add_zero] at hu
        exact ⟨ip, hs.inum _ (hh.mem_iff.2 List.mem_cons_self), hu⟩
      · exact hkept j hji hj hjn
    exact ⟨ht, (⟨hlinks, hspace, hk⟩ : Good a g s pr).still hst, hst.toFrame, fun j => .inl (by rw [hst.inode])⟩
  · have hm := hfreed.made htype
    refine ⟨ht, ⟨?_, hm.space.trans hspace, hm.kept fun j hj hjn => ?_⟩, hfreed.toFrame, fun j => ?_⟩
    · rw [hfreed.inode]
      exact hlinks.freed htype (by omega) rfl
    · have hji : j ≠ i := by
        rintro rfl
        rw [Function.update_self] at hj
        exact hj rfl
      rw [Function.update_of_ne hji] at hj hjn
      exact hkept j hji hj hjn
    · rw [hfreed.inode]
      by_cases hji : j = i
      · rw [hji, Function.update_self]
        exact .inr ⟨rfl, rfl⟩
      · exact .inl (Function.update_of_ne hji ..)

theorem Refs.iunlockput_good (hs : Refs s h l k) (hh : h.Perm ((ip, i) :: h')) (hl : l.Perm (ip :: l'))
    (hlinks : Inodes.Links a g s.inode pr) (hspace : s.free + total s.inode = SPACE)
    (hkept : ∀ j, j ≠ i → (s.inode j).type ≠ .free → (s.inode j).nlink ≤ 0 → ∃ jp, s.inum jp = j ∧ 0 < s.users jp)
    (hlast : (h'.map Prod.fst).count ip = 0) :
    Ends (Err a) (s.iunlockput ip) fun t =>
      Refs t h' l' k ∧ Good a g t pr ∧ Frame s t ∧ ∀ j, t.inode j = s.inode j ∨ (j = i ∧ (t.inode j).type = .free) := by
  unfold Fs.iunlockput
  refine (hs.iunlock hl).bind fun t ht => ?_
  obtain ⟨hst, ht, hv⟩ := ht
  refine (ht.iput_good hh (hst.inode ▸ hlinks) (by rw [hst.free, hst.inode, hspace]) (fun j hji hj hjn => ?_) (.inl hv)
    hlast).mono fun u hu => ?_
  · rw [hst.inode] at hj hjn
    obtain ⟨jp, hjp, hu⟩ := hkept j hji hj hjn
    exact ⟨jp, by rw [hst.inum jp hu, hjp], by rwa [hst.users]⟩
  · rw [hst.inode] at hu
    exact ⟨hu.1, hu.2.1, hst.toFrame.trans hu.2.2.1, hu.2.2.2⟩

/-! ## `sys_unlink` -/

/-- The promised link of an inode whose entry is gone. -/
theorem Refs.dropLink (hs : Refs s [(ip, i)] [ip] []) (hg : Good a g s [i]) (halloc : (s.inode i).type ≠ .free)
    (hempty : (s.inode i).type = .dir → ∀ e ∈ (s.inode i).rest, e.inum = noInum)
    (hup : a → (s.inode i).type = .dir → ∀ c, (s.inode c).type = .dir → (s.inode c).up ≠ i) :
    Ends (Err a) ((s.addLink ip (-1)).iunlockput ip) (Sane a g) := by
  have hip : s.inum ip = i := hs.inum _ List.mem_cons_self
  have hw := wrote_addLink (s := s) ip (-1)
  have hnode : s.node ip = s.inode i := by rw [node, hip]
  rw [hip, hnode] at hw
  generalize hx : ({ s.inode i with nlink := (s.inode i).nlink + -1 } : Inode) = x at hw
  have htype : x.type = (s.inode i).type := by rw [← hx]
  have hn : x.nlink = (s.inode i).nlink + -1 := by rw [← hx]
  have hs₁ := hw.refs hs fun c _ => by
    by_cases hc : c = i
    · rw [hc, Function.update_self, htype]
    · rw [Function.update_of_ne hc]
  -- the links of `i` are the promised one and at least its entries and directories
  have hpr : [i].count i = 1 := List.count_singleton_self
  have hle := hg.links.count i halloc
  rw [bonds, hpr] at hle
  have hsubs := hg.links.subs_empty hempty
  have hchild (hd : (s.inode i).type = .dir) : Inodes.Childless a g s.inode i :=
    ⟨fun ha => hup ha hd, fun _ => hempty hd⟩
  unfold Fs.iunlockput
  refine (hs₁.iunlock (.refl _)).bind fun s₂ hs₂ => ?_
  obtain ⟨hst, hs₂, hv⟩ := hs₂
  have hm := hw.made.still hst
  have hi₂ : s₂.inode i = x := by rw [hm.inode, Function.update_self]
  refine (hs₂.iput_cases (.refl _) fun _ => trivial).mono fun t ht => ?_
  rw [hm.users, hi₂] at ht
  obtain ⟨ht, ⟨hst₂, huse⟩ | ⟨hfreed, -, hn0, -⟩⟩ := ht
  · have huse : (s.inode i).nlink ≤ 1 → 0 < s.users ip := fun h1 => by simpa using huse hv (by omega)
    refine ⟨ht, (hm.still hst₂).good hg ?_ fun j hj hjn => ?_⟩
    · refine hg.links.relink htype (by rw [← hx]) ?_ (fun j hji => ?_) fun hd => ⟨Nat.zero_le _, hchild hd⟩
      · rw [hpr, hn, List.count_nil]
        omega
      · rw [List.count_nil, List.count_singleton, if_neg (by simpa using Ne.symm hji)]
    · by_cases hji : j = i
      · rw [hji, Function.update_self] at hjn
        exact ⟨ip, hip.trans hji.symm, huse (by omega)⟩
      · rw [Function.update_of_ne hji] at hj hjn
        exact hg.kept j hj hjn
  · have hm₂ := hm.trans (hfreed.made (by rw [hi₂, htype]; exact halloc))
    rw [hm.inode, Function.update_idem] at hm₂
    refine ⟨ht, hm₂.good hg ?_ fun j hj hjn => ?_⟩
    · refine hg.links.free (hg.links.ne_zero halloc) ?_ (by omega) hsubs hchild (fun j hji => ?_) rfl
      · intro hroot
        have hown : own i = 1 := if_pos hroot
        omega
      · rw [List.count_nil, List.count_singleton, if_neg (by simpa using Ne.symm hji)]
    · have hji : j ≠ i := by
        rintro rfl
        rw [Function.update_self] at hj
        exact hj rfl
      rw [Function.update_of_ne hji] at hj hjn
      exact hg.kept j hj hjn

theorem Refs.unlinkBad (hs : Refs s [(dp, d)] [dp] []) (hg : Good a g s []) (hst : Still s₀.beginOp s) :
    Ends (Err a) (s.unlinkBad dp) fun r => Sane a g r.2 ∧ (r.1 = -1 → Still s₀ r.2) := by
  unfold Fs.unlinkBad
  refine (hs.iunlockput_quiet hg.kept (.refl _) (.refl _)).bind fun t ht => ?_
  exact ⟨(Sane.still hg ht.1 ht.2).endOp, fun _ => (hst.trans ht.1).op⟩

/-- The entry of `d` for `i` is cleared, with the link that a directory has by its `..`. -/
theorem Refs.clearEnt (hs : Refs s [(ip, i), (dp, d)] [ip, dp] []) (hg : Good a g s []) (hd : (s.inode d).type = .dir)
    (hne : ip ≠ dp) (hid : i ≠ d) (hoff : 2 ≤ off) (hi : ((s.inode d).ents.getD off .empty).inum = i) :
    Ends (Err a) (s.store dp ((s.node dp).put off .empty) >>= fun t =>
        (if (t.node ip).type = .dir then t.addLink dp (-1) else t).iunlockput dp) fun t =>
      Refs t [(ip, i)] [ip] [] ∧ Good a g t [i] ∧ t.inode i = s.inode i ∧
        ∀ c, (t.inode c).type = .dir → (s.inode c).type = .dir ∧ (t.inode c).up = (s.inode c).up := by
  have hdp : s.inum dp = d := hs.inum (dp, d) (List.mem_cons_of_mem _ List.mem_cons_self)
  have hip : s.inum ip = i := hs.inum (ip, i) List.mem_cons_self
  have hnode : s.node dp = s.inode d := by rw [node, hdp]
  have hfree : (s.node dp).type ≠ .free := by
    rw [hnode, hd]
    decide
  have hput : ((s.node dp).put off .empty).type = (s.node dp).type := rfl
  refine (store_wrote hfree hput Inode.blocks_put).bind fun t hw => ?_
  rw [hnode, hdp] at hw
  -- the links of the directory
  have hw₂ : Wrote s (Function.update s.inode d
      { (s.inode d).put off .empty with nlink := (s.inode d).nlink - (dirAt s.inode i : Nat) })
      (if (t.node ip).type = .dir then t.addLink dp (-1) else t) := by
    have hit : t.node ip = s.inode i := by rw [hw.node, hip, Function.update_of_ne hid]
    rw [hit, dirAt]
    split
    · have hdt : t.node dp = (s.inode d).put off .empty := by rw [hw.node, hdp, Function.update_self]
      have hadd := wrote_addLink (s := t) dp (-1)
      rw [hdt, hw.inum, hdp] at hadd
      replace hadd := hw.trans hadd
      rwa [hw.inode, Function.update_idem] at hadd
    · rw [Int.ofNat_zero, Int.sub_zero]
      exact hw
  generalize (if (t.node ip).type = .dir then t.addLink dp (-1) else t) = u at hw₂
  have hu := hw₂.refs hs fun c _ => by
    by_cases hc : c = d
    · rw [hc, Function.update_self]
      rfl
    · rw [Function.update_of_ne hc]
  have hedit := Inode.put_edit .empty hd (hg.links.dots d hd) hoff
    ((s.inode d).nlink - (dirAt s.inode i : Nat))
  have hlinks := hg.links.unlink hedit hi rfl (Int.sub_add_cancel ..).symm
  rw [← hw₂.inode] at hlinks
  refine (hu.iunlockput_good (.swap ..) (.swap ..) hlinks (hw₂.space.trans hg.space) (fun j hjd hj hjn => ?_)
    ?_).mono fun v hv => ?_
  · rw [hw₂.inode, Function.update_of_ne hjd] at hj hjn
    obtain ⟨jp, hjp, husers⟩ := hg.kept j hj hjn
    exact ⟨jp, by rw [hw₂.inum, hjp], by rwa [hw₂.frame.users]⟩
  · exact List.count_eq_zero.2 (by simpa using hne.symm)
  · obtain ⟨hv, hgv, -, hsame⟩ := hv
    refine ⟨hv, hgv, ?_, fun c hc => ?_⟩
    · rw [(hsame i).resolve_right fun h => hid h.1, hw₂.inode, Function.update_of_ne hid]
    · obtain heq | ⟨-, hfree⟩ := hsame c
      · rw [heq, hw₂.inode] at hc ⊢
        rw [← edit_type hedit, ← edit_up hedit]
        exact ⟨hc, rfl⟩
      · rw [hc] at hfree
        cases hfree

theorem Refs.unlinkEnt (hs : Refs s [(ip, i), (dp, d)] [dp] []) (hg : Good a g s []) (hst : Still s₀.beginOp s)
    (hd : (s.inode d).type = .dir) (hname : ¬(name = dot ∨ name = dotdot)) (hoff : (s.inode d).offsetOf name = some off)
    (hi : ((s.inode d).ents.getD off .empty).inum = i) (hup : a → (s.inode i).type = .dir → (s.inode i).isdirempty = true → ∀ c, (s.inode c).type = .dir → (s.inode c).up ≠ i) :
    Ends (Err a) (s.unlinkEnt dp ip off) fun r => Sane a g r.2 ∧ (r.1 = -1 → Still s₀ r.2) := by
  rw [not_or] at hname
  obtain ⟨htwo, hmem⟩ := Inode.offsetOf_rest (hg.links.dots d hd) (Ne.symm hname.1) (Ne.symm hname.2) hoff
  obtain ⟨-, hz, -⟩ := Inode.offsetOf_some hoff
  have halloc : (s.inode i).type ≠ .free := hi ▸ hg.links.named d _ hd hmem hz
  have hnamed := names_pos hd hmem hi
  have hcount := hg.links.count i halloc
  unfold bonds at hcount
  have hnode := hs.node_held (List.mem_cons_self ..)
  unfold Fs.unlinkEnt
  refine (hs.ilock (hs.ref_held List.mem_cons_self) (fun _ => trivial) fun hf => absurd (hnode ▸ hf) halloc).bind
    fun s₁ hs₁ => ?_
  obtain ⟨hst₁, hs₁⟩ := hs₁
  have hnode₁ : s₁.node ip = s.inode i := by rw [hs₁.node_held List.mem_cons_self, hst₁.inode]
  have hg₁ := hg.still hst₁
  have hne : ip ≠ dp := by
    intro heq
    exact (List.nodup_cons.1 hs₁.lock.1).1 (heq ▸ List.mem_cons_self)
  have hid : i ≠ d := by
    intro heq
    have hpos {e : Ip × Inum} (he : e ∈ [(ip, i), (dp, d)]) : 0 < (s₁.cache e.1).ref := hs₁.ref_held (i := e.2) he
    refine hne (hs₁.unique ip dp (hpos List.mem_cons_self) (hpos (List.mem_cons_of_mem _ List.mem_cons_self)) ?_)
    rw [hs₁.inum (ip, i) List.mem_cons_self, hs₁.inum (dp, d) (List.mem_cons_of_mem _ List.mem_cons_self), heq]
  rw [hnode₁, if_neg (by omega)]
  split
  · refine (hs₁.iunlockput_quiet hg₁.kept (.refl _) (.refl _)).bind fun t ht => ?_
    exact ht.2.unlinkBad (hg₁.still ht.1) ((hst.trans hst₁).trans ht.1)
  · rename_i hempty
    have hclear := hs₁.clearEnt hg₁ (by rw [hst₁.inode, hd]) hne hid htwo (by rw [hst₁.inode, hi])
    rw [← bind_assoc]
    refine hclear.bind fun t ht => ?_
    obtain ⟨ht, hgt, hit, hups⟩ := ht
    have htype : t.inode i = s.inode i := by rw [hit, hst₁.inode]
    have hall (hdir : (s.inode i).type = .dir) : (s.inode i).isdirempty = true := by simpa [hdir] using hempty
    refine (ht.dropLink hgt (htype ▸ halloc) (fun hdir e he => ?_) fun ha hdir c hc => ?_).bind fun u hu => ⟨hu.endOp, nofun⟩
    · rw [htype] at hdir he
      simpa using List.all_eq_true.1 (hall hdir) e he
    · rw [htype] at hdir
      obtain ⟨hc, heq⟩ := hups c hc
      rw [hst₁.inode] at hc heq
      rw [heq]
      exact hup ha hdir (hall hdir) c hc

/-- What `unlink` removes is not a directory that the `..` of another names. -/
def NotParent (s : Fs P) (cwd : Ip) (path : List Char) : Prop :=
  ∀ d name i, s.resolve cwd true path = some (d, name) → ¬(name = dot ∨ name = dotdot) →
    (s.inode d).lookup name = some i → (s.inode i).type = .dir → (s.inode i).isdirempty = true →
    ∀ c, (s.inode c).type = .dir → (s.inode c).up ≠ i

theorem Sane.sysUnlink (hs : Sane a g s) {x : Files} (hcwd : 0 < s.users x.cwd) (path : Option (List Char))
    (hup : a → ∀ p ∈ path, s.NotParent x.cwd p) :
    Ends (Err a) (s.sysUnlink x path) fun r => Sane a g r.2 ∧ (r.1 = -1 → Still s r.2) := by
  unfold Fs.sysUnlink
  cases path with
  | none => exact ⟨hs, fun _ => .refl s⟩
  | some path =>
    have husers := users_beginOp (s := s)
    have hg₀ : Good a g s.beginOp [] := hs.good.ops
    refine (hs.refs.beginOp.nameiparent hg₀ (husers ▸ hcwd) path).bind fun r hr => ?_
    obtain ⟨r₁, s₁⟩ := r
    cases hw : s.beginOp.resolve x.cwd true path with
    | none =>
      rw [hw] at hr
      obtain ⟨rfl, hst₁, hs₁⟩ := hr
      exact ⟨(Sane.still hg₀ hst₁ hs₁).endOp, fun _ => hst₁.op⟩
    | some w =>
      obtain ⟨d, name⟩ := w
      rw [hw] at hr
      obtain ⟨hdir, dp, rfl, hlock⟩ := hr
      change (s.inode d).type = .dir at hdir
      refine hlock.bind fun s₂ hs₂ => ?_
      obtain ⟨hst, hs₂, hnode₂⟩ := hs₂
      change s₂.node dp = s.inode d at hnode₂
      split
      · exact hs₂.unlinkBad (hg₀.still hst) hst
      · rename_i hname
        refine (hs₂.dirlookup name (by rw [hnode₂, hdir]) fun _ => trivial).bind fun r hr => ?_
        obtain ⟨r₃, s₃⟩ := r
        obtain ⟨hst₃, hr⟩ := hr
        rw [hnode₂] at hr
        replace hst := hst.trans hst₃
        have hinode : s₃.inode = s.inode := hst.inode
        cases hoff : (s.inode d).offsetOf name with
        | none =>
          rw [hoff] at hr
          obtain ⟨rfl, rfl⟩ := hr
          exact hs₂.unlinkBad (hg₀.still hst) hst
        | some off =>
          rw [hoff] at hr
          obtain ⟨ip, rfl, hs₃⟩ := hr
          refine hs₃.unlinkEnt (hg₀.still hst) hst (by rw [hinode, hdir]) hname (by rw [hinode, hoff])
            (by rw [hinode]) fun ha hd hempty => ?_
          rw [hinode] at hd hempty ⊢
          exact hup ha path rfl d name _ hw hname (by rw [Inode.lookup, hoff]; rfl) hd hempty

/-! ## `sys_link` -/

/-- The table while the link to `i` is promised. -/
def promised (T : Inodes) (i : Inum) : Inodes := Function.update T i { T i with nlink := (T i).nlink + 1 }

/-- The link is taken back. -/
theorem Refs.linkBad (hs : Refs s [(ip, i)] [] []) (hg : Good a g s₀ []) (hi : (s₀.inode i).type ≠ .free)
    (hm : Made s₀.beginOp (promised s₀.inode i) s) :
    Ends (Err a) (s.linkBad ip) fun r => Sane a g r.2 ∧ Still s₀ r.2 := by
  have hinode : s.inode i = { s₀.inode i with nlink := (s₀.inode i).nlink + 1 } := by
    rw [hm.inode, promised, Function.update_self]
  unfold Fs.linkBad
  refine (hs.ilock (hs.ref_held List.mem_cons_self) (fun _ => trivial) fun hf => ?_).bind fun s₁ hs₁ => ?_
  · rw [hs.node_held List.mem_cons_self, hinode] at hf
    exact absurd hf hi
  · obtain ⟨hst₁, hs₁⟩ := hs₁
    have hm₁ := hm.still hst₁
    have hip : s₁.inum ip = i := hs₁.inum _ List.mem_cons_self
    have hnode : s₁.node ip = { s₀.inode i with nlink := (s₀.inode i).nlink + 1 } := by
      rw [node, hip, hst₁.inode, hinode]
    have hw := wrote_addLink (s := s₁) ip (-1)
    rw [hnode, hip] at hw
    dsimp only at hw
    rw [Int.add_neg_cancel_right] at hw
    have hs₂ := hw.refs hs₁ fun c _ => by
      by_cases hc : c = i
      · rw [hc, Function.update_self, ← hip, ← node, hnode, hip]
      · rw [Function.update_of_ne hc]
    have hm₂ := hm₁.trans hw.made
    rw [hm₁.inode, promised, Function.update_idem, Function.update_eq_self] at hm₂
    have hst₂ : Still s₀.beginOp _ := hm₂.toStill
    have hg₂ := (hg.ops : Good a g s₀.beginOp []).still hst₂
    refine (hs₂.iunlockput_quiet hg₂.kept (.refl _) (.refl _)).bind fun t ht => ?_
    exact ⟨(Sane.still hg₂ ht.1 ht.2).endOp, (hst₂.trans ht.1).op⟩

/-- `dirlink` finds the name in the directory, or writes the entry. -/
theorem Refs.dirlink (hs : Refs s h l k) (hk : Kept s) (hdir : (s.node dp).type = .dir) :
    Ends (Err a) (s.dirlink dp name i) fun r =>
      (r.1 = false ∧ Still s r.2 ∧ Refs r.2 h l k) ∨
      (r.1 = true ∧ (s.node dp).offsetOf name = none ∧ Wrote s (Function.update s.inode (s.inum dp) ((s.node dp).put (s.node dp).freeSlot ⟨name, i⟩)) r.2) := by
  cases hoff : (s.node dp).offsetOf name with
  | none => exact (dirlink_absent hdir hoff).mono fun r hr => .inr ⟨hr.1, rfl, hr.2⟩
  | some off =>
    unfold Fs.dirlink
    refine (hs.dirlookup name hdir fun _ => trivial).bind fun r hr => ?_
    rw [hoff] at hr
    obtain ⟨r₁, s₁⟩ := r
    obtain ⟨hst, jp, rfl, hs₁⟩ := hr
    refine (hs₁.iput_quiet (hk.still hst) (.refl _) fun _ => trivial).bind fun t ht => ?_
    exact .inl ⟨rfl, hst.trans ht.1, ht.2⟩

/-- The disk while the link is promised. -/
theorem Good.promised (hg : Good a g s₀ []) (halloc : (s₀.inode i).type ≠ .free) (hfile : (s₀.inode i).type ≠ .dir)
    (hm : Made s₀.beginOp (promised s₀.inode i) s) : Good a g s [i] := by
  have hcount := hg.links.count i halloc
  refine hm.good (hg.ops : Good a g s₀.beginOp []) ?_ fun j hj hjn => ?_
  · refine hg.links.relink rfl rfl ?_ (fun j hji => ?_) fun hdir => absurd hdir hfile
    · rw [List.count_nil, List.count_singleton_self]
      dsimp only
      omega
    · rw [List.count_nil, List.count_singleton, if_neg (by simpa using Ne.symm hji)]
  · unfold Fs.promised at hj hjn
    by_cases hji : j = i
    · rw [hji, Function.update_self] at hjn
      dsimp only at hjn
      omega
    · rw [Function.update_of_ne hji] at hj hjn
      exact (hg.ops : Good a g s₀.beginOp []).kept j hj hjn

/-- The entry is made. -/
theorem Good.linkEntry (hg : Good a g s [i]) (hw : Wrote s (Function.update s.inode d ((s.inode d).put (s.inode d).freeSlot ⟨name, i⟩)) t)
    (halloc : (s.inode i).type ≠ .free) (hfile : (s.inode i).type ≠ .dir) (hd : (s.inode d).type = .dir)
    (hroom : g → 1 ≤ (s.inode d).nlink) : Good a g t [] := by
  have hslot := Inode.freeSlot_free (hg.links.dots d hd) (hg.links.ne_zero_of_dir hd) (hg.links.up d hd)
  have hedit := Inode.put_edit ⟨name, i⟩ hd (hg.links.dots d hd) hslot.1 (s.inode d).nlink
  have hdirAt : dirAt s.inode i = 0 := if_neg hfile
  refine hw.made.good hg (hg.links.link hedit hslot.2 rfl halloc (fun hdir => absurd hdir hfile) hd
    (fun hgg => hg.links.bond (.inl hgg) hd (hroom hgg)) (by rw [hdirAt]; exact (Int.add_zero _).symm)) fun j hj hjn => ?_
  by_cases hjd : j = d
  · rw [hjd, Function.update_self] at hj hjn
    exact hjd ▸ hg.kept d hj hjn
  · rw [Function.update_of_ne hjd] at hj hjn
    exact hg.kept j hj hjn

theorem Refs.linkNew (hs : Refs s [(ip, i)] [] []) (hg : Good a g s₀ []) (halloc : (s₀.inode i).type ≠ .free)
    (hfile : (s₀.inode i).type ≠ .dir) (hm : Made s₀.beginOp (promised s₀.inode i) s) {x : Files}
    (hcwd : 0 < s₀.users x.cwd) (new : List Char) (hroom : g → s₀.Room x.cwd new) :
    Ends (Err a) (s.linkNew x ip new) fun r => Sane a g r.2 ∧ (r.1 = -1 → Still s₀ r.2) := by
  have husers : s.users = s₀.users := hm.users.trans users_beginOp
  have hgs := hg.promised halloc hfile hm
  have htype (c : Inum) : (s.inode c).type = (s₀.inode c).type := by
    rw [hm.inode, Fs.promised]
    by_cases hc : c = i
    · rw [hc, Function.update_self]
    · rw [Function.update_of_ne hc]
  have hents (c : Inum) : (s.inode c).ents = (s₀.inode c).ents := by
    rw [hm.inode, Fs.promised]
    by_cases hc : c = i
    · rw [hc, Function.update_self]
    · rw [Function.update_of_ne hc]
  have hresolve : s.resolve x.cwd true new = s₀.resolve x.cwd true new := by
    have hinum : s.inum x.cwd = s₀.inum x.cwd := hm.inum x.cwd (by rwa [users_beginOp])
    unfold resolve
    rw [walk_congr htype hents, hinum]
  unfold Fs.linkNew
  refine (hs.nameiparent hgs (husers ▸ hcwd) new).bind fun r hr => ?_
  obtain ⟨r₁, s₁⟩ := r
  cases hw : s.resolve x.cwd true new with
  | none =>
    rw [hw] at hr
    obtain ⟨rfl, hst₁, hs₁⟩ := hr
    exact (hs₁.linkBad hg halloc (hm.still hst₁)).mono fun r hr => ⟨hr.1, fun _ => hr.2⟩
  | some w =>
    obtain ⟨d, name⟩ := w
    rw [hw] at hr
    obtain ⟨hdir, dp, rfl, hlock⟩ := hr
    have hid : d ≠ i := by
      rintro rfl
      exact hfile (htype d ▸ hdir)
    refine hlock.bind fun s₂ hs₂ => ?_
    obtain ⟨hst, hs₂, -⟩ := hs₂
    have hg₂ := hgs.still hst
    have hnode₂ : s₂.node dp = s₂.inode d := hs₂.node_held List.mem_cons_self
    have hdp : s₂.inum dp = d := hs₂.inum _ List.mem_cons_self
    have hip : s₂.inum ip = i := hs₂.inum (ip, i) (List.mem_cons_of_mem _ List.mem_cons_self)
    refine (hs₂.dirlink hg₂.kept (by rw [hnode₂, hst.inode, hdir])).bind fun r hr => ?_
    obtain ⟨ok, s₃⟩ := r
    obtain ⟨rfl, hst₃, hs₃⟩ | ⟨rfl, hoff, hw₃⟩ := hr
    · -- the name is there already
      have hst' := hst.trans hst₃
      refine (hs₃.iunlockput_quiet (hgs.kept.still hst') (.refl _) (.refl _)).bind fun s₄ hs₄ => ?_
      exact (hs₄.2.linkBad hg halloc (hm.still (hst'.trans hs₄.1))).mono fun r hr => ⟨hr.1, fun _ => hr.2⟩
    · rw [hnode₂, hdp, hip] at hw₃
      rw [hnode₂, hst.inode] at hoff
      have hg₃ := hg₂.linkEntry hw₃ (by rw [hst.inode, htype]; exact halloc) (by rw [hst.inode, htype]; exact hfile)
        (by rw [hst.inode, hdir]) fun hgg => ?_
      · have hs₃ := hw₃.refs hs₂ fun c _ => by
          by_cases hc : c = d
          · rw [hc, Function.update_self]
            rfl
          · rw [Function.update_of_ne hc]
        refine (hs₃.iunlockput_quiet hg₃.kept (.refl _) (.refl _)).bind fun s₄ hs₄ => ?_
        have hg₄ := hg₃.still hs₄.1
        refine (hs₄.2.iput_quiet hg₄.kept (.refl _) fun _ => trivial).bind fun s₅ hs₅ => ?_
        exact ⟨(Sane.still hg₄ hs₅.1 hs₅.2).endOp, nofun⟩
      · have hsame : s.inode d = s₀.inode d := by rw [hm.inode, Fs.promised, Function.update_of_ne hid]
        rw [hst.inode, hsame]
        rw [hsame] at hoff
        exact hroom hgg d name (hresolve ▸ hw) (by rw [Inode.lookup, hoff]; rfl)

theorem Sane.sysLink (hs : Sane a g s) {x : Files} (hcwd : 0 < s.users x.cwd) (old new : Option (List Char))
    (hroom : g → ∀ p ∈ new, s.Room x.cwd p) :
    Ends (Err a) (s.sysLink x old new) fun r => Sane a g r.2 ∧ (r.1 = -1 → Still s r.2) := by
  have hfail : Sane a g s ∧ ((-1 : Int) = -1 → Still s s) := ⟨hs, fun _ => .refl s⟩
  unfold Fs.sysLink
  cases old with
  | none => exact hfail
  | some old =>
    cases new with
    | none => exact hfail
    | some new =>
      have hg₀ : Good a g s.beginOp [] := hs.good.ops
      refine (hs.beginOp.namei (by rwa [users_beginOp]) old).bind fun r hr => ?_
      obtain ⟨r₁, s₁⟩ := r
      obtain ⟨hst₁, hr⟩ := hr
      cases r₁ with
      | none => exact ⟨(Sane.still hg₀ hst₁ hr).endOp, fun _ => hst₁.op⟩
      | some w =>
        obtain ⟨ip, name⟩ := w
        obtain ⟨i, hlock⟩ := hr
        refine hlock.bind fun s₂ hs₂ => ?_
        obtain ⟨hst, hs₂⟩ := hs₂
        have hip : s₂.inum ip = i := hs₂.inum _ List.mem_cons_self
        have hnode₂ : s₂.node ip = s.inode i := by
          rw [node, hip, hst.inode]
          rfl
        have halloc : (s.inode i).type ≠ .free := by
          have hl := hs₂.lock.2 ip List.mem_cons_self
          rw [← hnode₂]
          exact hs₂.valid ip hl.1 hl.2
        rw [hnode₂]
        split
        · refine (hs₂.iunlockput_quiet (hg₀.kept.still hst) (.refl _) (.refl _)).bind fun s₃ hs₃ => ?_
          exact ⟨(Sane.still (hg₀.still hst) hs₃.1 hs₃.2).endOp, fun _ => (hst.trans hs₃.1).op⟩
        · rename_i hfile
          have hadd := wrote_addLink (s := s₂) ip 1
          have hinode : s₂.inode = s.inode := hst.inode
          rw [hnode₂, hip, hinode] at hadd
          have hs₃ := hadd.refs hs₂ fun c _ => by
            rw [hinode]
            by_cases hc : c = i
            · rw [hc, Function.update_self]
            · rw [Function.update_of_ne hc]
          have hm₃ : Made s.beginOp (promised s.inode i) (s₂.addLink ip 1) := hst.made.trans hadd.made
          refine (hs₃.iunlock (.refl _)).bind fun s₄ hs₄ => ?_
          exact hs₄.2.1.linkNew hs.good halloc hfile (hm₃.still hs₄.1) hcwd new fun hgg => hroom hgg new rfl

end Fs

end Xv6
