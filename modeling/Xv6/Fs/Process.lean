import Xv6.Fs.Files
/-!
# Reading and writing, and what a process does with its current directory

With these every system call is done: between two calls everything is counted,
whatever the calls were.
-/

namespace Xv6

open Outcome

namespace Fs

variable {P : Type} [Fintype P] {a g : Prop} {s t : Fs P} {h : List (Ip × Inum)} {l : List Ip}
  {k : List FileId} {pr : List Inum} {ip cwd : Ip} {i : Inum} {f : FileId} {p : P} {x y : Files}

/-! ## Reading and writing -/

omit [Fintype P] in
/-- Only the offset of a file moves. -/
theorem kept_setOff (f : FileId) (r : Int) : Ftable.Kept s.ft (s.setOff f r).ft := by
  unfold setOff
  split
  · refine ⟨fun g => ?_, fun g => ?_, rfl⟩ <;>
    · dsimp only
      by_cases hg : g = f
      · rw [hg, Ftable.set_self]
      · rw [Ftable.set_of_ne hg]
  · exact .refl _

omit [Fintype P] in
theorem setOff_eq (f : FileId) (r : Int) : s.setOff f r = { s with ft := (s.setOff f r).ft } := by
  unfold setOff
  split <;> rfl

theorem Refs.setOff (hs : Refs s h l k) (f : FileId) (r : Int) : Refs (s.setOff f r) h l k := by
  have hset : Refs { s with ft := (s.setOff f r).ft } h l k := by
    refine hs.setFt (kept_setOff f r) ?_
    unfold Fs.setOff
    split
    · refine hs.files.recount (fun _ _ _ => Ftable.isEnd_same rfl rfl) (hs.files.closed f) ?_ fun _ _ => rfl
      exact hs.files.ref f
    · exact hs.files
  rwa [← setOff_eq] at hset

theorem Good.setOff (hg : Good a g s pr) (f : FileId) (r : Int) : Good a g (s.setOff f r) pr := by
  have hset := hg.setFt (kept_setOff f r)
  rwa [← setOff_eq] at hset

theorem Sane.fileread (hs : Sane a g s) (f : FileId) (n : Nat) (got : Int) :
    Ends (Err a) (s.fileread f n got) fun r => Sane a g r.2 := by
  unfold Fs.fileread
  split
  · exact hs
  · split
    · trivial
    · exact hs
    · rename_i ip hf
      have hu := users_file hf
      refine (hs.refs.ilock (hs.refs.ref_pos hu) (fun _ => trivial) fun hfree => absurd hfree (hs.refs.used ip hu).1).bind
        fun s₁ hs₁ => ?_
      obtain ⟨hst₁, hs₁⟩ := hs₁
      refine ((hs₁.setOff f _).iunlock (.refl _)).bind fun s₂ hs₂ => ?_
      exact ⟨hs₂.2.1, ((hs.good.still hst₁).setOff f _).still hs₂.1⟩

theorem Sane.filestat (hs : Sane a g s) (f : FileId) : Ends (Err a) (s.filestat f) fun r => Sane a g r.2 := by
  unfold Fs.filestat
  split
  · rename_i ip hf
    have hu := users_file hf
    refine (hs.refs.ilock (hs.refs.ref_pos hu) (fun _ => trivial) fun hfree => absurd hfree (hs.refs.used ip hu).1).bind
      fun s₁ hs₁ => ?_
    refine (hs₁.2.iunlock (.refl _)).bind fun s₂ hs₂ => ?_
    exact ⟨hs₂.2.1, (hs.good.still hs₁.1).still hs₂.1⟩
  · exact hs

/-- The bytes of a file are written, and its links stay. -/
theorem Refs.writei (hs : Refs s [] [ip] []) (hg : Good a g s []) (htype : (s.node ip).type ≠ .free)
    (hplain : (s.node ip).type ≠ .dir) (src : List (BitVec 8)) (off : Nat) :
    Ends (Err a) (s.writei ip src off) fun r => Refs r.2 [] [ip] [] ∧ Good a g r.2 [] ∧ r.2.ft = s.ft := by
  have hsame : Refs s [] [ip] [] ∧ Good a g s [] ∧ s.ft = s.ft := ⟨hs, hg, rfl⟩
  unfold Fs.writei
  dsimp only
  split
  · exact hsame
  · exact absurd ‹_› hplain
  · split
    · exact hsame
    · rename_i hbounds
      rw [not_or] at hbounds
      generalize hy : ({ s.node ip with data := (s.node ip).data.take off ++ src ++ (s.node ip).data.drop (off + src.length) } : Inode) = y
      have hty : y.type = (s.node ip).type := by rw [← hy]
      refine (store_wrote htype hty ?_).bind fun t hw => ?_
      · refine Inode.blocks_mono ?_
        rw [← hy]
        unfold Inode.size
        dsimp only
        rw [List.length_append, List.length_append, List.length_take, List.length_drop]
        omega
      · refine ⟨hw.refs hs fun c _ => ?_, hw.made.good hg (hg.links.relink hty (by rw [← hy]; rfl) ?_ (fun _ _ => rfl)
          fun hdir => absurd hdir hplain) fun j hj hjn => ?_, hw.ft⟩
        · by_cases hc : c = s.inum ip
          · rw [hc, Function.update_self, hty]
            rfl
          · rw [Function.update_of_ne hc]
        · rw [← hy]
          rfl
        · by_cases hji : j = s.inum ip
          · rw [hji, Function.update_self, ← hy] at hjn
            exact hji ▸ hg.kept _ htype hjn
          · rw [Function.update_of_ne hji] at hj hjn
            exact hg.kept j hj hjn

theorem Sane.filewriteLoop (hs : Sane a g s) (hf : (s.ft.file f).type = .inode ip) (hw : (s.ft.file f).writable = true)
    (pieces : List (List (BitVec 8))) : Ends (Err a) (filewriteLoop f ip pieces s) fun r => Sane a g r.2 := by
  induction pieces generalizing s with
  | nil => exact hs
  | cons piece rest ih =>
    have hu : 0 < s.beginOp.users ip := by
      rw [users_beginOp]
      exact users_file hf
    have hbegin := hs.beginOp
    have htype := (hbegin.refs.used ip hu).1
    have hplain := hbegin.refs.plain f ip hf hw
    unfold Fs.filewriteLoop
    refine (hbegin.refs.ilock (hbegin.refs.ref_pos hu) (fun _ => trivial) fun hfree => absurd hfree htype).bind
      fun s₁ hs₁ => ?_
    obtain ⟨hst₁, hs₁⟩ := hs₁
    have hnode : s₁.node ip = s.beginOp.node ip := by rw [node, node, hst₁.inum ip hu, hst₁.inode]
    refine (hs₁.writei (hbegin.good.still hst₁) (hnode ▸ htype) (hnode ▸ hplain) piece _).bind fun r hr => ?_
    obtain ⟨n, s₂⟩ := r
    obtain ⟨hs₂, hg₂, hft₂⟩ := hr
    refine ((hs₂.setOff f n).iunlock (.refl _)).bind fun s₃ hs₃ => ?_
    obtain ⟨hst₃, hs₃, -⟩ := hs₃
    have hsane : Sane a g s₃.endOp := ⟨hs₃.endOp, ((hg₂.setOff f n).still hst₃).ops⟩
    dsimp only
    split
    · exact hsane
    · have hft : s₃.ft = (s₂.setOff f n).ft := hst₃.ft
      have hfile : s₂.ft = s.ft := hft₂.trans hst₁.ft
      refine ih hsane ?_ ?_
      · change (s₃.ft.file f).type = _
        rw [hft, (kept_setOff f n).type, hfile, hf]
      · change (s₃.ft.file f).writable = _
        rw [hft, (kept_setOff f n).writable, hfile, hw]

theorem Sane.filewrite (hs : Sane a g s) (f : FileId) (src : List (BitVec 8)) (got : Int) :
    Ends (Err a) (s.filewrite f src got) fun r => Sane a g r.2 := by
  unfold Fs.filewrite
  split
  · exact hs
  · rename_i hw
    split
    · trivial
    · exact hs
    · rename_i ip hf
      refine (hs.filewriteLoop hf (by simpa using hw) _).bind fun r hr => ?_
      exact hr

/-! ## Current directories -/

section

variable [DecidableEq P]

omit [DecidableEq P] in
/-- A process has left its current directory, and the call has its reference still. -/
theorem Refs.leave (hs : Refs t [(cwd, t.inum cwd)] [] []) (hg : Good a g s []) (hinode : t.inode = s.inode)
    (hfree : t.free = s.free) (hcache : t.cache = s.cache) (husers : ∀ jp, jp ≠ cwd → 0 < s.users jp → 0 < t.users jp)
    (hvalid : (t.cache cwd).valid = true ∨ t.inum cwd = ROOTINO) : Ends (Err a) (t.iput cwd) (Sane a g) := by
  refine (hs.iput_good (.refl _) (hinode ▸ hg.links) (by rw [hfree, hinode, hg.space]) (fun j hji hj hjn => ?_) hvalid
    rfl).mono fun u hu => ⟨hu.1, hu.2.1⟩
  rw [hinode] at hj hjn
  obtain ⟨jp, hjp, hu⟩ := hg.kept j hj hjn
  have hinum : t.inum jp = j := by
    rw [Fs.inum, hcache]
    exact hjp
  refine ⟨jp, hinum, husers jp ?_ hu⟩
  rintro rfl
  exact hji hinum.symm

omit [Fintype P] in
theorem iput_setProc (z : Option Files) : (s.setProc p z).iput ip = (s.iput ip).map (setProc · p z) := by
  unfold Fs.iput
  dsimp only
  have hcache : (s.setProc p z).cache = s.cache := rfl
  have hnode : (s.setProc p z).node ip = s.node ip := rfl
  rw [hcache, hnode]
  split
  · rfl
  · split <;> rfl

theorem Sane.sysChdir (hs : Sane a g s) (hp : s.proc p = some x) (path : Option (List Char)) :
    Ends (Err a) (s.sysChdir p x path) fun r => Sane a g r.2 ∧ (r.1 = -1 → Still s r.2) := by
  unfold Fs.sysChdir
  cases path with
  | none => exact ⟨hs.beginOp.endOp, fun _ => (Still.refl _).op⟩
  | some path =>
    have hcwd : 0 < s.beginOp.users x.cwd := by
      rw [users_beginOp]
      exact users_cwd hp
    have hbegin := hs.beginOp
    refine (hbegin.namei hcwd path).bind fun r hr => ?_
    obtain ⟨r₁, s₁⟩ := r
    obtain ⟨hst₁, hr⟩ := hr
    cases r₁ with
    | none => exact ⟨(Sane.still hbegin.good hst₁ hr).endOp, fun _ => hst₁.op⟩
    | some w =>
      obtain ⟨ip, name⟩ := w
      obtain ⟨i, hlock⟩ := hr
      refine hlock.bind fun s₂ hs₂ => ?_
      obtain ⟨hst, hs₂⟩ := hs₂
      have hg₂ := hbegin.good.still hst
      split
      · refine (hs₂.iunlockput_quiet hg₂.kept (.refl _) (.refl _)).bind fun s₃ hs₃ => ?_
        exact ⟨(Sane.still hg₂ hs₃.1 hs₃.2).endOp, fun _ => (hst.trans hs₃.1).op⟩
      · rename_i hdir
        rw [not_not] at hdir
        refine (hs₂.iunlock (.refl _)).bind fun s₃ hs₃ => ?_
        obtain ⟨hst₃, hs₃, hvalid⟩ := hs₃
        have hg₃ := hg₂.still hst₃
        have hp₃ : s₃.proc p = some x := (congrFun (hst.trans hst₃).proc p).trans hp
        have hnode : (s₃.node ip).type = .dir := by
          rw [hs₃.node_held List.mem_cons_self, hst₃.inode, ← hs₂.node_held List.mem_cons_self, hdir]
        -- the process is in the new directory and the call has the old one
        have hs₄ : Refs (s₃.setProc p (some { x with cwd := ip })) [(x.cwd, s₃.inum x.cwd)] [] [] := by
          refine hs₃.setProc _ (fun e he => ?_) (fun jp => ?_) (fun f => by rw [hp₃]; rfl) fun y hy => ?_
          · rw [List.mem_singleton.1 he]
          · rw [hp₃, count_held, count_held]
            simp only [cwdOf, eq_comm (a := jp), List.map_nil, List.count_nil]
            omega
          · cases hy
            exact ⟨hnode, .inr hvalid⟩
        have hleave := hs₄.leave hg₃ rfl rfl rfl (fun jp hne hu => ?_) (hs₃.used x.cwd (users_cwd hp₃)).2
        · rw [iput_setProc] at hleave
          cases hput : s₃.iput x.cwd with
          | error e =>
            rw [hput] at hleave
            exact hleave
          | ok t =>
            rw [hput] at hleave
            have hsane : Sane a g (t.setProc p (some { x with cwd := ip })) := hleave
            exact ⟨hsane.endOp, fun h => by cases h⟩
        · have husers := users_setProc (s := s₃) (p := p) (some { x with cwd := ip }) jp
          rw [hp₃] at husers
          simp only [cwdOf, if_neg (Ne.symm hne)] at husers
          omega

omit [DecidableEq P] in
theorem Sane.exec (hs : Sane a g s) (hcwd : 0 < s.users x.cwd) (path : Option (List Char)) (ok : Bool) :
    Ends (Err a) (s.exec x path ok) fun r => Sane a g r.2 := by
  unfold Fs.exec
  cases path with
  | none => exact hs
  | some path =>
    have hbegin := hs.beginOp
    refine (hbegin.namei (by rwa [users_beginOp]) path).bind fun r hr => ?_
    obtain ⟨r₁, s₁⟩ := r
    obtain ⟨hst₁, hr⟩ := hr
    cases r₁ with
    | none => exact (Sane.still hbegin.good hst₁ hr).endOp
    | some w =>
      obtain ⟨ip, name⟩ := w
      obtain ⟨i, hlock⟩ := hr
      refine hlock.bind fun s₂ hs₂ => ?_
      have hg₂ := hbegin.good.still hs₂.1
      refine (hs₂.2.iunlockput_quiet hg₂.kept (.refl _) (.refl _)).bind fun s₃ hs₃ => ?_
      exact (Sane.still hg₂ hs₃.1 hs₃.2).endOp

theorem Sane.fork (hs : Sane a g s) (hp : s.proc p = some x) (child : Option P) :
    Ends (Err a) (s.fork x child) fun r => Sane a g r.2 := by
  unfold Fs.fork
  cases child with
  | none => exact hs
  | some q =>
    by_cases hq : (s.proc q).isSome = true
    · dsimp only
      rw [if_pos hq]
      exact hs
    · dsimp only
      rw [if_neg hq]
      replace hq : s.proc q = none := by simpa using hq
      have hpos : ∀ f ∈ x.ofile.slots, 0 < s.slots f + [].count f := by
        intro f hf
        obtain ⟨fd, -, hfd⟩ := List.mem_filterMap.1 hf
        have := slots_pos hp hfd
        omega
      refine ((hs.refs.files.dupAll x.ofile.slots hpos).mapError fun _ h => h.elim).bind fun ft hft => ?_
      obtain ⟨hkept, hinv⟩ := hft
      have hs₁ : Refs { s with ft } [] [] x.ofile.slots := hs.refs.setFt hkept hinv
      have hg₁ := hs.good.setFt hkept
      have hcwd : 0 < users { s with ft } x.cwd := users_cwd (s := { s with ft }) hp
      obtain ⟨hst₂, hs₂⟩ := hs₁.take (hs₁.ref_pos hcwd)
      have hq₂ : (Fs.idup { s with ft } x.cwd).proc q = none := hq
      have hs₃ : Refs ((Fs.idup { s with ft } x.cwd).setProc q (some x)) [] [] [] :=
        hs₂.setProc (some x) nofun (fun jp => ?_) (fun f => ?_) fun y hy => ?_
      · refine ⟨hs₃, (hg₁.still hst₂).more rfl rfl rfl fun jp hjp => ?_⟩
        have husers := users_setProc (s := Fs.idup { s with ft } x.cwd) (p := q) (some x) jp
        rw [hq₂] at husers
        exact hjp.trans_le (Nat.le.intro husers.symm)
      · rw [hq₂, count_held]
        simp only [cwdOf, eq_comm (a := jp), List.map_nil, List.count_nil]
        omega
      · rw [hq₂]
        simp only [slotsOf, List.count_nil, Nat.add_zero, Nat.zero_add]
      · cases hy
        refine ⟨hs₂.cwd p x hp, .inl ?_⟩
        rw [hst₂.users]
        exact hcwd

/-! ## Exit -/

omit [Fintype P] in
theorem fileclose_setProc (z : Option Files) : (s.setProc p z).fileclose f = (s.fileclose f).map (setProc · p z) := by
  unfold Fs.fileclose
  have hft : (s.setProc p z).ft = s.ft := rfl
  rw [hft]
  cases s.ft.fileclose f with
  | error e => rfl
  | ok r =>
    obtain ⟨rel, ft⟩ := r
    cases rel with
    | inode ip =>
      change ((({ s with ft } : Fs P).beginOp.setProc p z).iput ip >>= fun t => .ok t.endOp) =
        (({ s with ft } : Fs P).beginOp.iput ip >>= fun t => .ok t.endOp).map _
      rw [iput_setProc]
      cases ({ s with ft } : Fs P).beginOp.iput ip <;> rfl
    | _ => rfl

omit [Fintype P] in
theorem closeAll_setProc (files : List FileId) (z : Option Files) :
    files.foldlM fileclose (s.setProc p z) = (files.foldlM fileclose s).map (setProc · p z) := by
  induction files generalizing s with
  | nil => rfl
  | cons f files ih =>
    rw [List.foldlM_cons, List.foldlM_cons, fileclose_setProc]
    cases s.fileclose f with
    | error e => rfl
    | ok t => exact ih

omit [DecidableEq P] in
theorem Refs.closeAll (files : List FileId) (hs : Refs s [] [] files) (hg : Good a g s []) :
    Ends (Err a) (files.foldlM Fs.fileclose s) fun t => Refs t [] [] [] ∧ Good a g t [] ∧ t.proc = s.proc := by
  induction files generalizing s with
  | nil => exact ⟨hs, hg, rfl⟩
  | cons f files ih =>
    rw [List.foldlM_cons]
    refine (hs.fileclose hg).bind fun t ht => ?_
    exact (ih ht.1 ht.2.1).mono fun u hu => ⟨hu.1, hu.2.1, hu.2.2.trans ht.2.2⟩

theorem Sane.exit (hs : Sane a g s) (hp : s.proc p = some x) : Ends (Err a) (s.exit p x) fun r => Sane a g r.2 := by
  unfold Fs.exit
  -- while the files are closed, the process still counts as being in its directory
  have hsplit : s.setProc p none = (s.setProc p (some { x with ofile := fun _ => none })).setProc p none :=
    setProc_setProc.symm
  rw [hsplit, closeAll_setProc]
  have hs₁ : Refs (s.setProc p (some { x with ofile := fun _ => none })) [] [] x.ofile.slots := by
    refine hs.refs.setProc _ (fun e he => absurd he List.not_mem_nil) (fun jp => by rw [hp]; rfl) (fun f => ?_) fun y hy => ?_
    · rw [hp]
      simp [slotsOf, Ofile.slots]
    · cases hy
      have hu := users_cwd hp
      exact ⟨hs.refs.cwd p x hp, .inl hu⟩
  have hg₁ : Good a g (s.setProc p (some { x with ofile := fun _ => none })) [] := by
    refine hs.good.more rfl rfl rfl fun jp hjp => ?_
    have husers := users_setProc (s := s) (p := p) (some { x with ofile := fun _ => none }) jp
    rw [hp] at husers
    simp only [cwdOf] at husers
    omega
  have hclose := hs₁.closeAll _ hg₁
  cases hall : x.ofile.slots.foldlM Fs.fileclose (s.setProc p (some { x with ofile := fun _ => none })) with
  | error e =>
    rw [hall] at hclose
    exact hclose
  | ok t =>
    rw [hall] at hclose
    obtain ⟨ht, hgt, hproc⟩ := hclose
    have hpt : t.proc p = some { x with ofile := fun _ => none } := by rw [hproc, setProc_self]
    have hs₂ : Refs (t.setProc p none) [(x.cwd, t.inum x.cwd)] [] [] := by
      refine ht.setProc _ (fun e he => ?_) (fun jp => ?_) (fun f => ?_) fun y hy => by cases hy
      · rw [List.mem_singleton.1 he]
      · rw [hpt, count_held]
        simp only [cwdOf, eq_comm (a := jp), List.map_nil, List.count_nil]
        omega
      · rw [hpt]
        simp [slotsOf, Ofile.slots]
    have hu := users_cwd hpt
    change Ends (Err a) ((t.setProc p none).beginOp.iput x.cwd >>= fun t => .ok (0, t.endOp)) _
    refine (hs₂.beginOp.leave hgt rfl rfl rfl (fun jp hne hu => ?_) (ht.used x.cwd hu).2).bind fun u hu => ?_
    · have husers := users_setProc (s := t) (p := p) none jp
      rw [hpt] at husers
      simp only [cwdOf, if_neg (Ne.symm hne)] at husers
      rw [users_beginOp]
      omega
    · exact hu.endOp

end

end Fs

end Xv6
