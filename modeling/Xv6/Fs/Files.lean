import Xv6.Fs.Unlink
/-!
# Open files, current directories and processes

The calls that move references between the descriptors of a process, the table
of open files and the inode cache. What a process refers to is changed in one
place (`Refs.rehold`); a call that lets go of an inode ends in `iput_good`.
-/

namespace Xv6

open Outcome

namespace Fs

variable {P : Type} [Fintype P] {a g : Prop} {s t : Fs P} {h h' : List (Ip × Inum)} {l : List Ip}
  {k k' : List FileId} {pr : List Inum} {ip cwd : Ip} {i : Inum} {f : FileId} {p : P} {x y : Files}

/-! ## References of processes -/

/-- Files and processes change, and nothing else: a reference that one of them has more
the call has less. -/
theorem Refs.rehold (hs : Refs s h l k) (hcache : t.cache = s.cache) (hinode : t.inode = s.inode)
    (hh : ∀ e ∈ h', s.inum e.1 = e.2)
    (husers : ∀ ip, t.users ip + (h'.map Prod.fst).count ip = s.users ip + (h.map Prod.fst).count ip)
    (hfiles : t.ft.Inv fun f => t.slots f + k'.count f)
    (hused : ∀ ip, 0 < t.users ip → 0 < s.users ip ∨ (s.cache ip).valid = true)
    (hcwd : ∀ p x, t.proc p = some x → (s.node x.cwd).type = .dir)
    (hplain : ∀ f ip, (t.ft.file f).type = .inode ip → (t.ft.file f).writable = true → (s.node ip).type ≠ .dir) :
    Refs t h' l k' := by
  have hinum : t.inum = s.inum := by
    funext ip
    rw [Fs.inum, Fs.inum, hcache]
  have hnode : t.node = s.node := by
    funext ip
    rw [node, node, hinum, hinode]
  refine ⟨fun ip => ?_, by rwa [hinum], by rw [hcache, hinum]; exact hs.unique, by rw [hcache]; exact hs.locked,
    by rw [hcache]; exact hs.lock, hfiles, by rw [hcache, hnode]; exact hs.valid, fun ip hip => ?_, by rwa [hnode], by rwa [hnode]⟩
  · rw [hcache, hs.ref, husers]
  · rw [hnode, hcache, hinum]
    obtain hu | hv := hused ip hip
    · exact hs.used ip hu
    · have hpos : 0 < (s.cache ip).ref := by
        have := husers ip
        rw [hs.ref]
        omega
      exact ⟨hs.valid ip hpos hv, .inl hv⟩

/-- Nothing that is in use is given up. -/
theorem Good.more (hg : Good a g s pr) (hcache : t.cache = s.cache) (hinode : t.inode = s.inode) (hfree : t.free = s.free)
    (husers : ∀ ip, 0 < s.users ip → 0 < t.users ip) : Good a g t pr := by
  refine ⟨hinode ▸ hg.links, by rw [hfree, hinode, hg.space], fun i hi hn => ?_⟩
  rw [hinode] at hi hn
  obtain ⟨ip, hip, hu⟩ := hg.kept i hi hn
  exact ⟨ip, by rw [Fs.inum, hcache]; exact hip, husers ip hu⟩

/-- The same files are open, with other numbers of references. -/
theorem Refs.setFt (hs : Refs s h l k) {ft : Ftable Ip} (hft : Ftable.Kept s.ft ft)
    (hinv : ft.Inv fun f => s.slots f + k'.count f) : Refs { s with ft } h l k' := by
  have husers (ip : Ip) : users { s with ft } ip = s.users ip := by
    unfold users
    rw [hft.users, cwds_congr (s := s) (t := { s with ft }) rfl]
  have hslots : slots { s with ft } = s.slots := slots_congr rfl
  refine hs.rehold rfl rfl hs.inum (fun ip => by rw [husers]) (by rwa [hslots])
    (fun ip hip => .inl (by rwa [husers] at hip)) hs.cwd fun f ip hf hw => hs.plain f ip ?_ ?_
  · rwa [← hft.type]
  · rwa [← hft.writable]

theorem Good.setFt (hg : Good a g s pr) {ft : Ftable Ip} (hft : Ftable.Kept s.ft ft) : Good a g { s with ft } pr := by
  refine hg.more rfl rfl rfl fun ip hip => ?_
  unfold users at hip ⊢
  rwa [hft.users, cwds_congr (s := s) (t := { s with ft }) rfl]

section Proc

variable [DecidableEq P]

omit [Fintype P] in
@[simp] theorem setProc_self {y : Option Files} : (s.setProc p y).proc p = y := Function.update_self ..

omit [Fintype P] in
theorem setProc_of_ne {y : Option Files} {q : P} (hq : q ≠ p) : (s.setProc p y).proc q = s.proc q :=
  Function.update_of_ne hq ..

omit [Fintype P] in
theorem setProc_setProc {y z : Option Files} : (s.setProc p y).setProc p z = s.setProc p z := by
  unfold setProc
  rw [Function.update_idem]

theorem slots_setProc (y : Option Files) (f : FileId) :
    (s.setProc p y).slots f + slotsOf (s.proc p) f = s.slots f + slotsOf y f := by
  have hsum := Sums.sum_move (f := fun q => slotsOf (s.proc q) f) (g := fun q => slotsOf ((s.setProc p y).proc q) f) p
    (fun q hq => by rw [setProc_of_ne hq])
  rw [setProc_self] at hsum
  unfold slots
  exact hsum

theorem users_setProc (y : Option Files) (ip : Ip) :
    (s.setProc p y).users ip + cwdOf (s.proc p) ip = s.users ip + cwdOf y ip := by
  have hsum := Sums.sum_move (f := fun q => cwdOf (s.proc q) ip) (g := fun q => cwdOf ((s.setProc p y).proc q) ip) p
    (fun q hq => by rw [setProc_of_ne hq])
  rw [setProc_self] at hsum
  have hft : (s.setProc p y).ft = s.ft := rfl
  unfold users cwds
  rw [hft]
  omega

/-- What a process refers to changes. -/
theorem Refs.setProc (hs : Refs s h l k) (y : Option Files) (hh : ∀ e ∈ h', s.inum e.1 = e.2)
    (hcwds : ∀ ip, cwdOf y ip + (h'.map Prod.fst).count ip = cwdOf (s.proc p) ip + (h.map Prod.fst).count ip)
    (hslots : ∀ f, slotsOf y f + k'.count f = slotsOf (s.proc p) f + k.count f)
    (hcwd : ∀ x ∈ y, (s.node x.cwd).type = .dir ∧ (0 < s.users x.cwd ∨ (s.cache x.cwd).valid = true)) :
    Refs (s.setProc p y) h' l k' := by
  refine hs.rehold rfl rfl hh (fun ip => ?_) ?_ (fun ip hip => ?_) (fun q x hq => ?_) fun f ip => hs.plain f ip
  · have husers := users_setProc (s := s) (p := p) y ip
    have := hcwds ip
    omega
  · have heq : (fun f => (s.setProc p y).slots f + k'.count f) = fun f => s.slots f + k.count f := by
      funext f
      have hsum := slots_setProc (s := s) (p := p) y f
      have := hslots f
      omega
    rw [heq]
    exact hs.files
  · by_cases hu : 0 < s.users ip
    · exact .inl hu
    · have husers := users_setProc (s := s) (p := p) y ip
      cases hy : y with
      | none =>
        subst hy
        simp only [cwdOf] at husers
        omega
      | some x =>
        subst hy
        have hx : x.cwd = ip := by
          by_contra hne
          simp only [cwdOf, if_neg hne] at husers
          omega
        rw [← hx]
        exact (hcwd x rfl).2
  · by_cases hqp : q = p
    · rw [hqp, setProc_self] at hq
      exact (hcwd x hq).1
    · rw [setProc_of_ne hqp] at hq
      exact hs.cwd q x hq

/-- A reference to a file moves between a descriptor and the call. -/
theorem Refs.setOfile (hs : Refs s h l k) (k' : List FileId) (hp : s.proc p = some x) (fd : Fd) (v : Option FileId)
    (hk : ∀ f, (if v = some f then 1 else 0) + k'.count f = (if x.ofile fd = some f then 1 else 0) + k.count f) :
    Refs (s.setOfile p x fd v) h l k' := by
  refine hs.setProc _ hs.inum (fun ip => by rw [hp]; rfl) (fun f => ?_) fun y hy => ?_
  · have hcount := Ofile.count_update x.ofile fd v f
    have := hk f
    rw [hp]
    simp only [slotsOf]
    omega
  · cases hy
    have hu := users_cwd hp
    exact ⟨hs.cwd p x hp, .inl hu⟩

theorem users_setOfile (hp : s.proc p = some x) (fd : Fd) (v : Option FileId) (ip : Ip) :
    (s.setOfile p x fd v).users ip = s.users ip := by
  have husers := users_setProc (s := s) (p := p) (some { x with ofile := Function.update x.ofile fd v }) ip
  rw [hp] at husers
  exact Nat.add_right_cancel husers

theorem Good.setOfile (hg : Good a g s pr) (hp : s.proc p = some x) (fd : Fd) (v : Option FileId) :
    Good a g (s.setOfile p x fd v) pr :=
  hg.more rfl rfl rfl fun ip hip => by rwa [users_setOfile hp]

end Proc

/-! ## Making inodes -/

theorem Sane.sysMake (hs : Sane a g s) (hcwd : 0 < s.users x.cwd) (path : Option (List Char)) (ty : FileType)
    (hroom : g ∨ (a ∧ ty = .dir) → ∀ p ∈ path, s.Room x.cwd p) (hty : ty ≠ .free) (major minor : Int) :
    Ends (Err a) (s.sysMake x path ty major minor) fun r => Sane a g r.2 ∧ (r.1 = -1 → Still s r.2) := by
  unfold Fs.sysMake
  cases path with
  | none => exact ⟨hs.beginOp.endOp, fun _ => (Still.refl _).op⟩
  | some path =>
    have hbegin := hs.beginOp
    refine (hbegin.refs.create hbegin.good x.cwd (by rwa [users_beginOp]) path (fun hag => hroom hag path rfl) hty
      major minor).bind fun r hr => ?_
    obtain ⟨r₁, s₁⟩ := r
    cases r₁ with
    | none => exact ⟨(Sane.still hbegin.good hr.1 hr.2.1).endOp, fun _ => hr.1.op⟩
    | some ip =>
      obtain ⟨i, hgot, -⟩ := hr
      refine (hgot.refs.iunlockput_quiet hgot.good.kept (.refl _) (.refl _)).bind fun s₂ hs₂ => ?_
      exact ⟨(Sane.still hgot.good hs₂.1 hs₂.2).endOp, nofun⟩

/-! ## Opening files -/

/-- `openInode` has an inode locked; a directory only for reading. -/
theorem Sane.openInode (hs : Sane a g s) (hcwd : 0 < s.users cwd) (path : List Char) (omode : Nat)
    (hroom : g → omode &&& O_CREATE ≠ 0 → s.Room cwd path) :
    Ends (Err a) (s.openInode cwd path omode) fun r =>
      match r.1 with
      | none => Still s r.2 ∧ Refs r.2 [] [] [] ∧ ¬(omode &&& O_CREATE ≠ 0 ∧ Absent s cwd path)
      | some ip => ∃ i, Got a g s [] (omode &&& O_CREATE ≠ 0 ∧ Absent s cwd path) ip i r.2 ∧
          ((r.2.inode i).type = .dir → omode = O_RDONLY) := by
  unfold Fs.openInode
  by_cases hcreate : omode &&& O_CREATE ≠ 0
  · rw [if_pos hcreate]
    have hfile : FileType.file ≠ .free := nofun
    refine (hs.refs.create hs.good cwd hcwd path (fun hag => ?_) hfile 0 0).mono fun r hr => ?_
    · obtain hg | ⟨-, hdir⟩ := hag
      · exact hroom hg hcreate
      · cases hdir
    · obtain ⟨r₁, s₁⟩ := r
      cases r₁ with
      | none => exact ⟨hr.1, hr.2.1, fun hnew => hr.2.2 hnew.2⟩
      | some ip =>
        obtain ⟨i, hgot, htype⟩ := hr
        refine ⟨i, ⟨hgot.refs, hgot.good, hgot.frame, fun hold => hgot.old fun hnew => hold ⟨hcreate, hnew⟩,
          fun hnew => hgot.made hnew.2⟩, fun hdir => ?_⟩
        rw [htype] at hdir
        cases hdir
  · rw [if_neg hcreate]
    have hold : ¬(omode &&& O_CREATE ≠ 0 ∧ Absent s cwd path) := fun hnew => hcreate hnew.1
    refine (hs.namei hcwd path).bind fun r hr => ?_
    obtain ⟨r₁, s₁⟩ := r
    obtain ⟨hst₁, hr⟩ := hr
    cases r₁ with
    | none => exact ⟨hst₁, hr, hold⟩
    | some w =>
      obtain ⟨ip, name⟩ := w
      obtain ⟨i, hlock⟩ := hr
      refine hlock.bind fun s₂ hs₂ => ?_
      obtain ⟨hst, hs₂⟩ := hs₂
      have hnode : s₂.node ip = s₂.inode i := hs₂.node_held List.mem_cons_self
      rw [hnode]
      split
      · refine (hs₂.iunlockput_quiet (hs.good.kept.still hst) (.refl _) (.refl _)).bind fun s₃ hs₃ => ?_
        exact ⟨hst.trans hs₃.1, hs₃.2, hold⟩
      · rename_i hplain
        refine ⟨i, ⟨hs₂, hs.good.still hst, hst.toFrame, fun _ => hst, fun hnew => absurd hnew hold⟩, fun hdir => ?_⟩
        by_contra hne
        exact hplain ⟨hdir, hne⟩

/-- No `struct file` is free, or no descriptor of the process. -/
def Full (s : Fs P) (x : Files) : Prop := (∀ f, (s.ft.file f).ref ≠ 0) ∨ ∀ fd, x.ofile fd ≠ none

theorem users_openAs (hnone : (s.ft.file f).type = .none) {file : File Ip} (htype : file.type = .inode ip) (jp : Ip) :
    users { s with ft := s.ft.set f file } jp = s.users jp + if jp = ip then 1 else 0 := by
  have hset := Ftable.users_set (t := s.ft) (f := f) (x := file) jp
  rw [hnone, htype] at hset
  simp only [FdType.holds, Nat.add_zero, eq_comm (a := ip)] at hset
  unfold users
  rw [hset, cwds_congr (s := s) (t := { s with ft := s.ft.set f file }) rfl]
  omega

theorem Good.openAs (hg : Good a g s pr) (hnone : (s.ft.file f).type = .none) {file : File Ip}
    (htype : file.type = .inode ip) : Good a g { s with ft := s.ft.set f file } pr :=
  hg.more rfl rfl rfl fun jp hjp => by rw [users_openAs hnone htype]; omega

/-- A file that was not open for anything is open for an inode. -/
theorem Refs.openAs (hs : Refs s ((ip, i) :: h) l k) (hnone : (s.ft.file f).type = .none) {file : File Ip}
    (htype : file.type = .inode ip) (href : file.ref = (s.ft.file f).ref) (hpos : file.ref ≠ 0)
    (hvalid : (s.cache ip).valid = true) (hplain : file.writable = true → (s.node ip).type ≠ .dir) :
    Refs { s with ft := s.ft.set f file } h l k := by
  have husers := users_openAs hnone htype
  refine hs.rehold rfl rfl (fun e he => hs.inum e (List.mem_cons_of_mem _ he)) (fun jp => ?_) ?_ (fun jp hjp => ?_) hs.cwd
    fun f' jp hf hw => ?_
  · rw [husers, count_held]
    omega
  · rw [slots_congr (s := s) (t := { s with ft := s.ft.set f file }) rfl]
    refine hs.files.recount (fun p w f' => Ftable.isEnd_plain (by rw [htype]; rfl) (by rw [hnone]; rfl))
      (fun h0 => absurd h0 hpos) ?_ fun _ _ => rfl
    rw [href, hs.files.ref]
  · by_cases heq : jp = ip
    · exact .inr (heq ▸ hvalid)
    · rw [husers, if_neg heq] at hjp
      exact .inl hjp
  · by_cases hff : f' = f
    · rw [hff, Ftable.set_self] at hf hw
      obtain rfl : ip = jp := FdType.inode.inj (htype.symm.trans hf)
      exact hplain hw
    · rw [Ftable.set_of_ne hff] at hf hw
      exact hs.plain f' jp hf hw

/-- A new file for the inode, in a descriptor, unless there is none. -/
theorem Got.openFile [DecidableEq P] {new : Prop} {omode : Nat} (hgot : Got a g s.beginOp [] new ip i t) (hp : s.proc p = some x)
    (hdir : (t.inode i).type = .dir → omode = O_RDONLY) :
    Ends (Err a) (t.openFile p x ip omode) fun r => Sane a g r.2 ∧
      ((Full s x ∧ r.1 = -1 ∧ ∃ u, Still t u ∧ r.2 = u.endOp) ∨ (¬ Full s x ∧ r.1 ≠ -1)) := by
  have hft : t.ft = s.ft := hgot.frame.ft
  have hput : Ends (Err a) (t.iunlockput ip) fun u => Sane a g u.endOp ∧ Still t u :=
    (hgot.refs.iunlockput_quiet hgot.good.kept (.refl _) (.refl _)).mono fun u hu =>
      ⟨(Sane.still hgot.good hu.1 hu.2).endOp, hu.1⟩
  unfold Fs.openFile
  cases hfile : t.ft.filealloc with
  | none =>
    have hfull : Full s x := .inl (by rw [← hft]; exact Ftable.filealloc_none.1 hfile)
    refine hput.bind fun u hu => ?_
    exact ⟨hu.1, .inl ⟨hfull, rfl, u, hu.2, rfl⟩⟩
  | some w =>
    obtain ⟨f, ft⟩ := w
    obtain ⟨href, hset⟩ := Ftable.filealloc_some hfile
    cases hfd : fdalloc x.ofile with
    | none =>
      have hfull : Full s x := .inr (fdalloc_none.1 hfd)
      have hclose : ft.fileclose f = .ok (.nothing, t.ft) := by
        rw [Ftable.fileclose_fresh href (hgot.refs.files.closed f href) (by rw [hset, Ftable.set_self]), hset,
          Ftable.set_set, Ftable.set_file]
      have hsame : Fs.fileclose { t with ft } f = .ok t := by
        unfold Fs.fileclose
        rw [hclose]
        rfl
      dsimp only
      rw [hsame]
      refine hput.bind fun u hu => ?_
      exact ⟨hu.1, .inl ⟨hfull, rfl, u, hu.2, rfl⟩⟩
    | some fd =>
      have hroom : ¬ Full s x := by
        rintro (hall | hall)
        · exact absurd href (by rw [hft]; exact hall f)
        · exact hall fd (fdalloc_some hfd)
      obtain ⟨hn, hnone, hkept, hinv⟩ := hgot.refs.files.filealloc hfile
      have hs₁ : Refs { t with ft } [(ip, i)] [ip] [f] := by
        refine hgot.refs.setFt hkept ?_
        have heq : (fun f' => t.slots f' + [f].count f') = Function.update (fun f' => t.slots f' + [].count f') f 1 := by
          funext f'
          by_cases hf : f' = f
          · rw [hf, Function.update_self, List.count_singleton_self]
            simpa using hn
          · rw [Function.update_of_ne hf, List.count_singleton, if_neg (by simpa using Ne.symm hf), List.count_nil]
        rw [heq]
        exact hinv
      have hpt : Fs.proc { t with ft } p = some x := (congrFun hgot.frame.proc p).trans hp
      have hs₂ := hs₁.setOfile [] hpt fd (some f) fun f' => by
        rw [fdalloc_some hfd, List.count_nil, List.count_singleton]
        simp
      have hg₂ := (hgot.good.setFt hkept).setOfile hpt fd (some f)
      refine (hs₂.iunlock (.refl _)).bind fun s₃ hs₃ => ?_
      obtain ⟨hst₃, hs₃, hvalid⟩ := hs₃
      have hft₃ : s₃.ft = ft := hst₃.ft
      have hnone₃ : (s₃.endOp.ft.file f).type = .none := by
        change (s₃.ft.file f).type = .none
        rw [hft₃, hkept.type, hnone]
      have href₃ : (s₃.endOp.ft.file f).ref ≠ 0 := by
        change (s₃.ft.file f).ref ≠ 0
        rw [hft₃, hset, Ftable.set_self]
        exact nofun
      refine ⟨⟨hs₃.endOp.openAs hnone₃ rfl rfl href₃ hvalid fun hw hd => ?_, (hg₂.still hst₃).ops.openAs hnone₃ rfl⟩,
        .inr ⟨hroom, ?_⟩⟩
      · -- a directory is open for reading only
        have hnode : s₃.endOp.node ip = t.inode i := by
          rw [hs₃.endOp.node_held List.mem_cons_self]
          exact congrFun hst₃.inode i
        rw [hnode] at hd
        rw [hdir hd] at hw
        have hno : decide (O_RDONLY &&& O_WRONLY ≠ 0 ∨ O_RDONLY &&& O_RDWR ≠ 0) = false := by decide
        exact absurd hw (by dsimp only; rw [hno]; exact nofun)
      · change ((fd : Nat) : Int) ≠ -1
        omega

/-- `sys_open` of a new file that there is no `struct file` or no descriptor for. -/
def Wasted (s : Fs P) (x : Files) (path : List Char) (omode : Nat) : Prop :=
  omode &&& O_CREATE ≠ 0 ∧ Absent s x.cwd path ∧ Full s x

theorem Sane.sysOpen [DecidableEq P] (hs : Sane a g s) (hp : s.proc p = some x) (path : Option (List Char)) (omode : Nat)
    (hroom : g → omode &&& O_CREATE ≠ 0 → ∀ q ∈ path, s.Room x.cwd q) :
    Ends (Err a) (s.sysOpen p x path omode) fun r => Sane a g r.2 ∧
      ((∀ q ∈ path, ¬ s.Wasted x q omode) → r.1 = -1 → Still s r.2) ∧
      ((∃ q ∈ path, s.Wasted x q omode) → r.1 = -1 ∧ ∃ i, (s.inode i).type = .free ∧ (r.2.inode i).type ≠ .free) := by
  unfold Fs.sysOpen
  cases path with
  | none => exact ⟨hs, fun _ _ => .refl s, fun ⟨_, hq, _⟩ => nomatch hq⟩
  | some path =>
    have hcwd := users_cwd hp
    refine (hs.beginOp.openInode (by rwa [users_beginOp]) path omode fun hg hc => hroom hg hc path rfl).bind fun r hr => ?_
    obtain ⟨r₁, s₁⟩ := r
    cases r₁ with
    | none =>
      obtain ⟨hst, hs₁, hold⟩ := hr
      refine ⟨(Sane.still hs.beginOp.good hst hs₁).endOp, fun _ _ => hst.op, ?_⟩
      rintro ⟨_, ⟨⟩, hwaste⟩
      exact absurd ⟨hwaste.1, hwaste.2.1⟩ hold
    | some ip =>
      obtain ⟨i, hgot, hdir⟩ := hr
      refine (hgot.openFile hp hdir).mono fun r hr => ?_
      obtain ⟨hsane, ⟨hfull, hfail, u, hst, heq⟩ | ⟨hroom, hok⟩⟩ := hr
      · refine ⟨hsane, fun hno _ => ?_, ?_⟩
        · rw [heq]
          exact ((hgot.old fun hnew => hno path rfl ⟨hnew.1, hnew.2, hfull⟩).trans hst).op
        · rintro ⟨_, ⟨⟩, hwaste⟩
          obtain ⟨hfree, hmade⟩ := hgot.made ⟨hwaste.1, hwaste.2.1⟩
          refine ⟨hfail, i, hfree, ?_⟩
          rw [heq]
          change (u.inode i).type ≠ .free
          rwa [hst.inode]
      · refine ⟨hsane, fun _ hfail => absurd hfail hok, ?_⟩
        rintro ⟨_, ⟨⟩, hwaste⟩
        exact absurd hwaste.2.2 hroom

/-! ## Closing files -/

theorem argfd_some {fd : Int} {w : Fd × FileId} (h : argfd x fd = some w) : x.ofile w.1 = some w.2 := by
  unfold argfd at h
  split at h
  · obtain ⟨f, hf, rfl⟩ := Option.map_eq_some_iff.1 h
    exact hf
  · cases h

/-- The inode that a close releases, as a reference of the call. -/
def held (s : Fs P) : Released Ip → List (Ip × Inum)
  | .inode ip => [(ip, s.inum ip)]
  | _ => []

omit [Fintype P] in
theorem count_released (r : Released Ip) (jp : Ip) : ((s.held r).map Prod.fst).count jp = r.holds jp := by
  cases r with
  | inode ip =>
    rw [held, List.map_singleton, List.count_singleton, Released.holds]
    exact if_congr beq_iff_eq rfl rfl
  | _ => rfl

/-- The table of open files after a close. -/
theorem Refs.released (hs : Refs s [] [] (f :: k)) {r : Released Ip × Ftable Ip} (hr : s.ft.fileclose f = .ok r) :
    Refs { s with ft := r.2 } (s.held r.1) [] k ∧ ∀ jp, r.1.holds jp + users { s with ft := r.2 } jp = s.users jp := by
  have hclose := hs.files.fileclose (f := f) (by rw [List.count_cons_self]; omega)
  have hft (jp : Ip) : r.1.holds jp + r.2.users jp = s.ft.users jp := by
    have := Ftable.users_fileclose (t := s.ft) (f := f) jp
    rwa [hr] at this
  rw [hr] at hclose
  obtain ⟨hinv, hclosed⟩ := hclose
  have husers (jp : Ip) : r.1.holds jp + users { s with ft := r.2 } jp = s.users jp := by
    have := hft jp
    unfold users
    rw [cwds_congr (s := s) (t := { s with ft := r.2 }) rfl]
    dsimp only
    omega
  refine ⟨hs.rehold rfl rfl (fun e he => ?_) (fun jp => ?_) ?_ (fun jp hjp => .inl ?_) hs.cwd fun f' jp hf hw => ?_, husers⟩
  · cases hrel : r.1 with
    | inode ip =>
      rw [hrel, held, List.mem_singleton] at he
      rw [he]
    | _ =>
      rw [hrel] at he
      cases he
  · rw [count_released, Nat.add_comm]
    exact husers jp
  · rw [slots_congr (s := s) (t := { s with ft := r.2 }) rfl]
    have heq : (fun f' => s.slots f' + k.count f') = Function.update (fun f' => s.slots f' + (f :: k).count f') f
        (s.slots f + (f :: k).count f - 1) := by
      funext f'
      by_cases hf : f' = f
      · rw [hf, Function.update_self, List.count_cons_self]
        rfl
      · rw [Function.update_of_ne hf, List.count_cons_of_ne (Ne.symm hf)]
    rw [heq]
    exact hinv
  · have := husers jp
    omega
  · obtain htype | htype := hclosed.type f'
    · exact hs.plain f' jp (htype.symm.trans hf) ((hclosed.writable f').symm.trans hw)
    · rw [htype] at hf
      cases hf

theorem Refs.fileclose (hs : Refs s [] [] (f :: k)) (hg : Good a g s []) :
    Ends (Err a) (s.fileclose f) fun t => Refs t [] [] k ∧ Good a g t [] ∧ t.proc = s.proc := by
  obtain ⟨r, hr, -⟩ := (hs.files.fileclose (f := f) (by rw [List.count_cons_self]; omega)).ok
  obtain ⟨hs₁, husers⟩ := hs.released hr
  unfold Fs.fileclose
  rw [hr]
  obtain ⟨rel, ft⟩ := r
  have hmore (hno : ∀ jp, rel.holds jp = 0) : Good a g { s with ft } [] := by
    refine hg.more rfl rfl rfl fun jp hjp => ?_
    have := husers jp
    rw [hno jp] at this
    dsimp only at this
    omega
  cases rel with
  | nothing => exact ⟨hs₁, hmore fun _ => rfl, rfl⟩
  | page q => exact ⟨hs₁, hmore fun _ => rfl, rfl⟩
  | inode ip =>
    have hpos : 0 < s.users ip := by
      have := husers ip
      simp only [Released.holds, if_true] at this
      omega
    have hs₂ : Refs ({ s with ft } : Fs P).beginOp [(ip, s.inum ip)] [] k := hs₁.beginOp
    change Ends (Err a) (({ s with ft } : Fs P).beginOp.iput ip >>= fun t => .ok t.endOp) _
    refine (hs₂.iput_good (.refl _) hg.links hg.space (fun j hji hj hjn => ?_) (hs.used ip hpos).2 rfl).bind fun t ht => ?_
    · obtain ⟨jp, hjp, hu⟩ := hg.kept j hj hjn
      refine ⟨jp, hjp, ?_⟩
      have hne : ip ≠ jp := by
        rintro rfl
        exact hji hjp.symm
      have := husers jp
      rw [Released.holds, if_neg hne] at this
      rw [users_beginOp]
      dsimp only at this
      omega
    · exact ⟨ht.1.endOp, ht.2.1.ops, ht.2.2.1.proc⟩

section

variable [DecidableEq P]

theorem Sane.sysClose (hs : Sane a g s) (hp : s.proc p = some x) (fd : Int) :
    Ends (Err a) (s.sysClose p x fd) fun r => Sane a g r.2 := by
  unfold Fs.sysClose
  cases hfd : argfd x fd with
  | none => exact hs
  | some w =>
    obtain ⟨fd, f⟩ := w
    have hf := argfd_some hfd
    have hs₁ := hs.refs.setOfile [f] hp fd none fun f' => by
      rw [hf, List.count_singleton, List.count_nil]
      simp
    refine (hs₁.fileclose (hs.good.setOfile hp fd none)).bind fun t ht => ?_
    exact ⟨ht.1, ht.2.1⟩

/-! ## Descriptors and pipes -/

omit [DecidableEq P] in
theorem slots_pos (hp : s.proc p = some x) {fd : Fd} (hf : x.ofile fd = some f) : 0 < s.slots f := by
  have hle := Finset.single_le_sum_of_canonicallyOrdered (f := fun p => slotsOf (s.proc p) f) (Finset.mem_univ p)
  have hmem : 0 < slotsOf (s.proc p) f := by
    rw [hp]
    exact List.count_pos_iff.2 (Ofile.mem_slots hf)
  unfold slots
  omega

theorem Sane.sysDup (hs : Sane a g s) (hp : s.proc p = some x) (fd : Int) :
    Ends (Err a) (s.sysDup p x fd) fun r => Sane a g r.2 ∧ (r.1 = -1 → Still s r.2) := by
  have hfail : Sane a g s ∧ ((-1 : Int) = -1 → Still s s) := ⟨hs, fun _ => .refl s⟩
  unfold Fs.sysDup
  cases hfd : argfd x fd with
  | none => exact hfail
  | some w =>
    obtain ⟨fd₀, f⟩ := w
    cases hnew : fdalloc x.ofile with
    | none => exact hfail
    | some fd₁ =>
      have hpos : 0 < s.slots f := slots_pos hp (argfd_some hfd)
      refine ((hs.refs.files.filedup (f := f) (by omega)).mapError fun _ h => h.elim).bind fun ft hft => ?_
      obtain ⟨hkept, hinv⟩ := hft
      have hs₁ : Refs { s with ft } [] [] [f] := by
        refine hs.refs.setFt hkept ?_
        have heq : (fun f' => s.slots f' + [f].count f') =
            Function.update (fun f' => s.slots f' + [].count f') f (s.slots f + [].count f + 1) := by
          funext f'
          by_cases hf : f' = f
          · rw [hf, Function.update_self, List.count_singleton_self]
            rfl
          · rw [Function.update_of_ne hf, List.count_singleton, if_neg (by simpa using Ne.symm hf), List.count_nil]
        rw [heq]
        exact hinv
      have hs₂ := hs₁.setOfile [] hp fd₁ (some f) fun f' => by
        rw [fdalloc_some hnew, List.count_nil, List.count_singleton]
        simp
      refine ⟨⟨hs₂, (hs.good.setFt hkept).setOfile hp fd₁ (some f)⟩, fun hr => ?_⟩
      change ((fd₁ : Nat) : Int) = -1 at hr
      omega

omit [DecidableEq P] in
/-- The table may differ in files that are not open. -/
theorem Sane.alike (hs : Sane a g s) {ft : Ftable Ip} (hft : Ftable.Alike s.ft ft) : Sane a g { s with ft } := by
  have husers (ip : Ip) : users { s with ft } ip = s.users ip := by
    unfold users
    rw [hft.users, cwds_congr (s := s) (t := { s with ft }) rfl]
  refine ⟨hs.refs.rehold rfl rfl hs.refs.inum (fun ip => by rw [husers]) ?_ (fun ip hip => .inl (by rwa [husers] at hip))
    hs.refs.cwd fun f ip hf hw => ?_, hs.good.more rfl rfl rfl fun ip hip => by rwa [husers]⟩
  · rw [slots_congr (s := s) (t := { s with ft }) rfl]
    exact hs.refs.files.alike hft
  · rw [hft.type] at hf
    have hopen : (s.ft.file f).ref ≠ 0 := by
      intro h0
      rw [hs.refs.files.closed f h0] at hf
      cases hf
    dsimp only at hw
    rw [hft.live f hopen] at hw
    exact hs.refs.plain f ip hf hw

omit [DecidableEq P] in
/-- A pipe is made, for the files `f0` and `f1`. -/
theorem Refs.opened (hs : Refs s [] [] []) {f0 f1 : FileId} {q : Page} {ft : Ftable Ip} (ho : Ftable.Opened s.ft f0 f1 q ft)
    (hq : s.ft.pipe q = none) : Refs { s with ft } [] [] [f0, f1] := by
  have husers (ip : Ip) : users { s with ft } ip = s.users ip := by
    unfold users
    rw [ho.users hs.files, cwds_congr (s := s) (t := { s with ft }) rfl]
  refine hs.rehold rfl rfl hs.inum (fun ip => by rw [husers]) ?_ (fun ip hip => .inl (by rwa [husers] at hip)) hs.cwd
    fun f ip hf hw => ?_
  · rw [slots_congr (s := s) (t := { s with ft }) rfl]
    have hzero {f : FileId} (href : (s.ft.file f).ref = 0) : s.slots f = 0 := by
      have := hs.files.ref f
      rw [List.count_nil] at this
      omega
    have heq : (fun f => s.slots f + [f0, f1].count f) =
        Function.update (Function.update (fun f => s.slots f + [].count f) f0 1) f1 1 := by
      funext f
      by_cases h1 : f = f1
      · rw [h1, Function.update_self, hzero ho.fresh.2]
        simp [ho.ne]
      · rw [Function.update_of_ne h1]
        by_cases h0 : f = f0
        · rw [h0, Function.update_self, hzero ho.fresh.1]
          simp [Ne.symm ho.ne]
        · rw [Function.update_of_ne h0]
          simp [Ne.symm h0, Ne.symm h1]
    rw [heq]
    exact ho.inv hs.files hq
  · by_cases h0 : f = f0
    · rw [h0, ho.read.1] at hf
      cases hf
    · by_cases h1 : f = f1
      · rw [h1, ho.write.1] at hf
        cases hf
      · dsimp only at hf hw
        rw [ho.file f h0 h1] at hf hw
        exact hs.plain f ip hf hw

omit [DecidableEq P] in
theorem Good.opened (hg : Good a g s []) (hs : Refs s [] [] []) {f0 f1 : FileId} {q : Page} {ft : Ftable Ip}
    (ho : Ftable.Opened s.ft f0 f1 q ft) : Good a g { s with ft } [] := by
  refine hg.more rfl rfl rfl fun ip hip => ?_
  unfold users at hip ⊢
  rwa [ho.users hs.files, cwds_congr (s := s) (t := { s with ft }) rfl]

omit [DecidableEq P] in
/-- The two ends closed again. -/
theorem Sane.unpipe (hs : Sane a g s) {f0 f1 : FileId} {q : Page} {ft : Ftable Ip} (ho : Ftable.Opened s.ft f0 f1 q ft)
    (hq : s.ft.pipe q = none) : Ends (Err a) (Fs.fileclose { s with ft } f0 >>= fun t => t.fileclose f1 >>= fun t => .ok (-1, t))
      fun r : Int × Fs P => ∃ ft, r = (-1, { s with ft }) ∧ Ftable.Alike s.ft ft := by
  obtain ⟨t₁, t₂, h₁, h₂, halike⟩ := ho.close hs.refs.files hq
  have hclose₁ : Fs.fileclose { s with ft } f0 = .ok { s with ft := t₁ } := by
    unfold Fs.fileclose
    rw [h₁]
    rfl
  have hclose₂ : Fs.fileclose { s with ft := t₁ } f1 = .ok { s with ft := t₂ } := by
    unfold Fs.fileclose
    rw [h₂]
    rfl
  rw [hclose₁]
  change Ends _ (Fs.fileclose { s with ft := t₁ } f1 >>= _) _
  rw [hclose₂]
  exact ⟨t₂, rfl, halike⟩

theorem Sane.sysPipe (hs : Sane a g s) (hp : s.proc p = some x) (ptr : Bool) (page : Option Page)
    (hpage : ∀ q ∈ page, s.ft.pipe q = none) :
    Ends (Err a) (s.sysPipe p x ptr page) fun r => Sane a g r.2 ∧
      (r.1 = -1 → ∃ ft, r.2 = { s with ft } ∧ Ftable.Alike s.ft ft) := by
  unfold Fs.sysPipe
  cases ptr with
  | false => exact ⟨hs, fun _ => ⟨s.ft, rfl, .refl _⟩⟩
  | true =>
    refine ((hs.refs.files.pipealloc (fun _ : Unit => (page, ())) ()).mapError fun _ h => h.elim).bind fun r hr => ?_
    obtain ⟨r₁, ft, _⟩ := r
    cases r₁ with
    | none =>
      obtain ⟨rfl, -⟩ := hr
      exact ⟨hs, fun _ => ⟨s.ft, rfl, .refl _⟩⟩
    | some w =>
      obtain ⟨rf, wf⟩ := w
      obtain ⟨q, hq, ho⟩ := hr
      have hfresh := hpage q (congrArg Prod.fst hq)
      have hclose : Ends (Err a) (Fs.fileclose { s with ft } rf >>= fun t => t.fileclose wf >>= fun t => .ok (-1, t))
          fun r : Int × Fs P => Sane a g r.2 ∧ (r.1 = -1 → ∃ ft, r.2 = { s with ft } ∧ Ftable.Alike s.ft ft) := by
        refine (hs.unpipe ho hfresh).mono fun r hr => ?_
        obtain ⟨ft, rfl, halike⟩ := hr
        exact ⟨hs.alike halike, fun _ => ⟨ft, rfl, halike⟩⟩
      dsimp only
      cases h0 : fdalloc x.ofile with
      | none => exact hclose
      | some fd0 =>
        have hx0 := fdalloc_some h0
        dsimp only
        set y : Files := { x with ofile := Function.update x.ofile fd0 (some rf) } with hy
        cases h1 : fdalloc y.ofile with
        | none =>
          have hback : (({ s with ft } : Fs P).setProc p (some y)).setOfile p y fd0 none = { s with ft } := by
            have hx : { y with ofile := Function.update y.ofile fd0 none } = x := by
              rw [hy]
              dsimp only
              rw [Function.update_idem, ← hx0, Function.update_eq_self]
            rw [setOfile, setProc_setProc, hx, setProc]
            dsimp only
            rw [← hp, Function.update_eq_self]
          dsimp only
          rw [hback]
          exact hclose
        | some fd1 =>
          have hx1 := fdalloc_some h1
          have hs₁ := (hs.refs.opened ho hfresh).setOfile [wf] hp fd0 (some rf) fun f => by
            simp [hx0, List.count_cons, Nat.add_comm]
          have hg₁ := (hs.good.opened hs.refs ho).setOfile hp fd0 (some rf)
          have hpy : (({ s with ft } : Fs P).setOfile p x fd0 (some rf)).proc p = some y := setProc_self
          have hs₂ := hs₁.setOfile [] hpy fd1 (some wf) fun f => by
            rw [hx1, List.count_nil, List.count_singleton]
            simp
          have hg₂ := hg₁.setOfile hpy fd1 (some wf)
          unfold setOfile at hs₂ hg₂
          rw [setProc_setProc] at hs₂ hg₂
          exact ⟨⟨hs₂, hg₂⟩, nofun⟩

end

end Fs

end Xv6
