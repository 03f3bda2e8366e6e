import Xv6.File.Counts
import Xv6.Fs.Code
/-!
# References to cached inodes and open files

`Refs s h l k` counts every reference in the middle of a call: what the open
files and the current directories refer to, the cached inodes `h` that the call
itself holds, with the inode numbers they stand for, the inodes `l` it has
locked and the files `k` that are not in a descriptor. `Still s t` says that a
call has done nothing but look at inodes.
-/

namespace Xv6

open Outcome

namespace Fs

variable {P : Type} [Fintype P]

def slotsOf : Option Files → FileId → Nat
  | none, _ => 0
  | some x, f => x.ofile.slots.count f

def cwdOf : Option Files → Ip → Nat
  | none, _ => 0
  | some x, ip => if x.cwd = ip then 1 else 0

/-- How many descriptors point to a file. -/
@[irreducible] def slots (s : Fs P) (f : FileId) : Nat := ∑ p, slotsOf (s.proc p) f

/-- How many processes have the inode as current directory. -/
@[irreducible] def cwds (s : Fs P) (ip : Ip) : Nat := ∑ p, cwdOf (s.proc p) ip

/-- What refers to a cached inode between calls. -/
def users (s : Fs P) (ip : Ip) : Nat := s.ft.users ip + s.cwds ip

structure Refs (s : Fs P) (h : List (Ip × Inum)) (l : List Ip) (k : List FileId) : Prop where
  ref : ∀ ip, (s.cache ip).ref = s.users ip + (h.map Prod.fst).count ip
  inum : ∀ e ∈ h, s.inum e.1 = e.2
  unique : ∀ ip jp, 0 < (s.cache ip).ref → 0 < (s.cache jp).ref → s.inum ip = s.inum jp → ip = jp
  locked : ∀ ip, (s.cache ip).locked = true ↔ ip ∈ l
  lock : l.Nodup ∧ ∀ ip ∈ l, 0 < (s.cache ip).ref ∧ (s.cache ip).valid = true
  files : s.ft.Inv fun f => s.slots f + k.count f
  valid : ∀ ip, 0 < (s.cache ip).ref → (s.cache ip).valid = true → (s.node ip).type ≠ .free
  used : ∀ ip, 0 < s.users ip → (s.node ip).type ≠ .free ∧ ((s.cache ip).valid = true ∨ s.inum ip = ROOTINO)
  cwd : ∀ p x, s.proc p = some x → (s.node x.cwd).type = .dir
  plain : ∀ f ip, (s.ft.file f).type = .inode ip → (s.ft.file f).writable = true → (s.node ip).type ≠ .dir

/-- The files and the processes are as before, and what they use is at its place. -/
structure Frame (s t : Fs P) : Prop where
  ft : t.ft = s.ft
  proc : t.proc = s.proc
  ops : t.ops = s.ops
  inum : ∀ ip, 0 < s.users ip → t.inum ip = s.inum ip

structure Still (s t : Fs P) : Prop extends Frame s t where
  inode : t.inode = s.inode
  free : t.free = s.free

/-- An inode with no links is freed, and with it the blocks of its contents. -/
structure Freed (s : Fs P) (i : Inum) (t : Fs P) : Prop extends Frame s t where
  inode : t.inode = Function.update s.inode i { s.inode i with type := .free, ents := [], data := [] }
  free : t.free = s.free + (s.inode i).blocks

/-- The panics that a call can end in, and waiting for its own lock. Only `a` rules out
the panic of `ilock` on a free inode. -/
def Err (a : Prop) : FsPanic → Prop
  | .noType => ¬ a
  | .iget | .ialloc | .balloc | .dirlink | .fileread | .filewrite | .deadlock => True
  | _ => False

variable {E : FsPanic → Prop} {s t u : Fs P} {h h' : List (Ip × Inum)} {l l' : List Ip} {k : List FileId} {ip jp : Ip} {i : Inum}

omit [Fintype P] in
@[simp] theorem setCache_self {c : Cached} : (s.setCache ip c).cache ip = c := Function.update_self ..

omit [Fintype P] in
theorem setCache_of_ne {c : Cached} (hne : jp ≠ ip) : (s.setCache ip c).cache jp = s.cache jp := Function.update_of_ne hne ..

theorem cwds_congr (hproc : t.proc = s.proc) : t.cwds = s.cwds := by
  funext ip
  unfold cwds
  rw [hproc]

theorem users_congr (hft : t.ft = s.ft) (hproc : t.proc = s.proc) : t.users = s.users := by
  funext ip
  unfold users
  rw [hft, cwds_congr hproc]

theorem users_beginOp : s.beginOp.users = s.users := users_congr rfl rfl

theorem slots_congr (hproc : t.proc = s.proc) : t.slots = s.slots := by
  funext f
  unfold slots
  rw [hproc]

namespace Frame

theorem users (hst : Frame s t) : t.users = s.users := users_congr hst.ft hst.proc

theorem trans (hst : Frame s t) (htu : Frame t u) : Frame s u := by
  refine ⟨htu.ft.trans hst.ft, htu.proc.trans hst.proc, htu.ops.trans hst.ops, fun ip hip => ?_⟩
  rw [htu.inum ip (hst.users ▸ hip), hst.inum ip hip]

/-- A transaction around a call. -/
theorem op (hst : Frame s.beginOp t) : Frame s t.endOp := by
  refine ⟨hst.ft, hst.proc, congrArg (· - 1) hst.ops, fun ip hip => hst.inum ip ?_⟩
  rwa [users_congr (s := s) (t := s.beginOp) rfl rfl]

end Frame

namespace Still

theorem refl (s : Fs P) : Still s s := ⟨⟨rfl, rfl, rfl, fun _ _ => rfl⟩, rfl, rfl⟩

theorem trans (hst : Still s t) (htu : Still t u) : Still s u :=
  ⟨hst.toFrame.trans htu.toFrame, htu.inode.trans hst.inode, htu.free.trans hst.free⟩

theorem op (hst : Still s.beginOp t) : Still s t.endOp := ⟨hst.toFrame.op, hst.inode, hst.free⟩

end Still

/-- An open file uses its inode, and so does a process its current directory. -/
theorem users_file {f : FileId} (hf : (s.ft.file f).type = .inode ip) : 0 < s.users ip := by
  have hle := Finset.single_le_sum_of_canonicallyOrdered (f := fun f => (s.ft.file f).type.holds ip)
    (Finset.mem_univ f)
  have h1 : (s.ft.file f).type.holds ip = 1 := by rw [hf, FdType.holds, if_pos rfl]
  unfold users Ftable.users
  omega

theorem users_cwd {p : P} {x : Files} (hp : s.proc p = some x) : 0 < s.users x.cwd := by
  have hle := Finset.single_le_sum_of_canonicallyOrdered (f := fun p => cwdOf (s.proc p) x.cwd) (Finset.mem_univ p)
  have h1 : cwdOf (s.proc p) x.cwd = 1 := by rw [hp, cwdOf, if_pos rfl]
  unfold users cwds
  omega

theorem count_held : (((ip, i) :: h).map Prod.fst).count jp = (h.map Prod.fst).count jp + if jp = ip then 1 else 0 := by
  rw [List.map_cons, List.count_cons]
  by_cases heq : jp = ip
  · rw [heq, if_pos (beq_self_eq_true _), if_pos rfl]
  · rw [if_neg heq, if_neg (by simpa using Ne.symm heq)]

namespace Refs

theorem ref_pos (hs : Refs s h l k) (hip : 0 < s.users ip) : 0 < (s.cache ip).ref := by
  rw [hs.ref]
  omega

theorem ref_held (hs : Refs s h l k) (hip : (ip, i) ∈ h) : 0 < (s.cache ip).ref := by
  have hpos : 0 < (h.map Prod.fst).count ip := List.count_pos_iff.2 (List.mem_map_of_mem hip)
  rw [hs.ref]
  omega

theorem perm (hs : Refs s h l k) (hh : h.Perm h') (hl : l.Perm l') : Refs s h' l' k := by
  refine ⟨fun ip => ?_, fun e he => hs.inum e (hh.mem_iff.2 he), hs.unique, fun ip => ?_, ?_, hs.files, hs.valid,
    hs.used, hs.cwd, hs.plain⟩
  · rw [hs.ref, (hh.map _).count_eq]
  · rw [hs.locked, hl.mem_iff]
  · exact ⟨hl.nodup_iff.1 hs.lock.1, fun ip hip => hs.lock.2 ip (hl.mem_iff.2 hip)⟩

/-- The files and the processes stay as they are, and what they use stays as it is. -/
theorem move (hs : Refs s h l k) (hft : t.ft = s.ft) (hproc : t.proc = s.proc)
    (hkeep : ∀ ip, 0 < s.users ip → t.inum ip = s.inum ip ∧ (t.node ip).type = (s.node ip).type ∧
      ((s.cache ip).valid = true → (t.cache ip).valid = true))
    (href : ∀ ip, (t.cache ip).ref = s.users ip + (h'.map Prod.fst).count ip) (hinum : ∀ e ∈ h', t.inum e.1 = e.2)
    (hunique : ∀ ip jp, 0 < (t.cache ip).ref → 0 < (t.cache jp).ref → t.inum ip = t.inum jp → ip = jp)
    (hlocked : ∀ ip, (t.cache ip).locked = true ↔ ip ∈ l')
    (hlock : l'.Nodup ∧ ∀ ip ∈ l', 0 < (t.cache ip).ref ∧ (t.cache ip).valid = true)
    (hvalid : ∀ ip, 0 < (t.cache ip).ref → (t.cache ip).valid = true → (t.node ip).type ≠ .free) :
    Refs t h' l' k := by
  refine ⟨fun ip => ?_, hinum, hunique, hlocked, hlock, ?_, hvalid, fun ip hip => ?_, fun p x hp => ?_,
    fun f ip hf hw => ?_⟩
  · rw [users_congr hft hproc, href]
  · rw [slots_congr hproc, hft]
    exact hs.files
  · rw [users_congr hft hproc] at hip
    obtain ⟨hi, hty, hv⟩ := hkeep ip hip
    rw [hty, hi]
    exact ⟨(hs.used ip hip).1, (hs.used ip hip).2.imp hv id⟩
  · rw [hproc] at hp
    rw [(hkeep _ (users_cwd hp)).2.1]
    exact hs.cwd p x hp
  · rw [hft] at hf hw
    rw [(hkeep _ (users_file hf)).2.1]
    exact hs.plain f ip hf hw

/-- The inodes change and the cache does not; an inode that is allocated stays so, with
its type. -/
theorem table (hs : Refs s h l k) (hft : t.ft = s.ft) (hproc : t.proc = s.proc) (hcache : t.cache = s.cache)
    (htype : ∀ i, (s.inode i).type ≠ .free → (t.inode i).type = (s.inode i).type) : Refs t h l k := by
  have hinum : t.inum = s.inum := by
    funext ip
    rw [Fs.inum, Fs.inum, hcache]
  refine hs.move hft hproc (fun ip hip => ⟨by rw [hinum], ?_, by rw [hcache]; exact id⟩) ?_ ?_ ?_ ?_ ?_ fun ip hip hv => ?_
  · rw [node, node, hinum]
    exact htype _ (hs.used ip hip).1
  · rw [hcache]
    exact hs.ref
  · rw [hinum]
    exact hs.inum
  · rw [hcache, hinum]
    exact hs.unique
  · rw [hcache]
    exact hs.locked
  · rw [hcache]
    exact hs.lock
  · rw [hcache] at hip hv
    have halloc := hs.valid ip hip hv
    rw [node] at halloc
    rw [node, hinum, htype _ halloc]
    exact halloc

theorem beginOp (hs : Refs s h l k) : Refs s.beginOp h l k := hs.table rfl rfl rfl fun _ _ => rfl

theorem endOp (hs : Refs s h l k) : Refs s.endOp h l k := hs.table rfl rfl rfl fun _ _ => rfl

/-! ## The inode cache -/

/-- One entry of the cache changes: an entry in use stays with its inode, and one that was
free gets an inode that is not cached. -/
theorem setCache (hs : Refs s h l k) {c : Cached}
    (href : ∀ ip, (if ip = jp then c.ref else (s.cache ip).ref) = s.users ip + (h'.map Prod.fst).count ip)
    (hmem : ∀ e ∈ h', e ∈ h ∨ e = (jp, c.inum))
    (hold : 0 < (s.cache jp).ref → c.inum = s.inum jp)
    (hnew : (s.cache jp).ref = 0 → ∀ ip, 0 < (s.cache ip).ref → s.inum ip ≠ c.inum)
    (hlocked : ∀ ip, ip ∈ l' ↔ if ip = jp then c.locked = true else ip ∈ l)
    (hlock : l'.Nodup ∧ (c.locked = true → 0 < c.ref ∧ c.valid = true))
    (hvalid : 0 < c.ref → c.valid = true → (s.inode c.inum).type ≠ .free)
    (hused : 0 < (s.cache jp).ref → (s.cache jp).valid = true → c.valid = true) :
    Still s (s.setCache jp c) ∧ Refs (s.setCache jp c) h' l' k := by
  have hcache (ip : Ip) : (s.setCache jp c).cache ip = if ip = jp then c else s.cache ip := Function.update_apply ..
  have hinum : ∀ ip, 0 < (s.cache ip).ref → (s.setCache jp c).inum ip = s.inum ip := by
    intro ip hip
    rw [Fs.inum, hcache]
    by_cases heq : ip = jp
    · rw [if_pos heq, heq]
      exact hold (heq ▸ hip)
    · rw [if_neg heq, Fs.inum]
  have hnode : ∀ ip, 0 < (s.cache ip).ref → (s.setCache jp c).node ip = s.node ip := by
    intro ip hip
    rw [node, node, hinum ip hip]
    rfl
  have hclash : ∀ ip, ip ≠ jp → 0 < (s.cache ip).ref → s.inum ip ≠ c.inum := by
    intro ip hne hip heq
    by_cases hjp : 0 < (s.cache jp).ref
    · exact hne (hs.unique ip jp hip hjp (heq.trans (hold hjp)))
    · exact hnew (by omega) ip hip heq
  refine ⟨⟨⟨rfl, rfl, rfl, fun ip hip => hinum ip (hs.ref_pos hip)⟩, rfl, rfl⟩,
    hs.move rfl rfl (fun ip hip => ⟨hinum ip (hs.ref_pos hip), by rw [hnode ip (hs.ref_pos hip)], ?_⟩) ?_ ?_ ?_ ?_
      ⟨hlock.1, ?_⟩ ?_⟩
  · intro hv
    rw [hcache]
    by_cases heq : ip = jp
    · subst heq
      rw [if_pos rfl]
      exact hused (hs.ref_pos hip) hv
    · rwa [if_neg heq]
  · intro ip
    rw [← href, hcache]
    split <;> rfl
  · intro e he
    obtain he | rfl := hmem e he
    · rw [hinum _ (hs.ref_held he), hs.inum e he]
    · rw [Fs.inum, hcache, if_pos rfl]
  · intro ip ip' hip hip' heq
    rw [hcache] at hip hip'
    rw [Fs.inum, Fs.inum, hcache, hcache] at heq
    by_cases h1 : ip = jp <;> by_cases h2 : ip' = jp
    · rw [h1, h2]
    · rw [if_pos h1, if_neg h2] at heq
      rw [if_neg h2] at hip'
      exact absurd heq.symm (hclash ip' h2 hip')
    · rw [if_neg h1, if_pos h2] at heq
      rw [if_neg h1] at hip
      exact absurd heq (hclash ip h1 hip)
    · rw [if_neg h1] at hip heq
      rw [if_neg h2] at hip' heq
      exact hs.unique ip ip' hip hip' heq
  · intro ip
    rw [hcache, hlocked]
    by_cases heq : ip = jp
    · rw [if_pos heq, if_pos heq]
    · rw [if_neg heq, if_neg heq, hs.locked]
  · intro ip hip
    rw [hlocked] at hip
    rw [hcache]
    by_cases heq : ip = jp
    · rw [if_pos heq] at hip ⊢
      exact hlock.2 hip
    · rw [if_neg heq] at hip ⊢
      exact hs.lock.2 ip hip
  · intro ip hip hv
    rw [hcache] at hip hv
    rw [node, Fs.inum, hcache]
    by_cases heq : ip = jp
    · rw [if_pos heq] at hip hv ⊢
      exact hvalid hip hv
    · rw [if_neg heq] at hip hv ⊢
      exact hs.valid ip hip hv

/-- One more reference to a cached inode. -/
theorem take (hs : Refs s h l k) (hip : 0 < (s.cache ip).ref) :
    Still s (s.idup ip) ∧ Refs (s.idup ip) ((ip, s.inum ip) :: h) l k := by
  refine hs.setCache (fun jp => ?_) (fun e he => ?_) (fun _ => rfl) (fun h0 => absurd hip (by omega)) (fun jp => ?_)
    ⟨hs.lock.1, fun hl => ⟨Nat.succ_pos _, (hs.lock.2 ip ((hs.locked ip).1 hl)).2⟩⟩ (fun _ hv => hs.valid ip hip hv)
    fun _ hv => hv
  · rw [count_held]
    by_cases heq : jp = ip
    · rw [if_pos heq, if_pos heq, heq, hs.ref, Nat.add_assoc]
    · rw [if_neg heq, if_neg heq, hs.ref, Nat.add_zero]
  · exact (List.mem_cons.1 he).symm
  · by_cases heq : jp = ip
    · rw [if_pos heq, heq, hs.locked]
    · rw [if_neg heq]

/-- `iget` fails where every entry is in use. -/
theorem iget (hs : Refs s h l k) (i : Inum) (hfull : (∀ ip, 0 < (s.cache ip).ref) → E .iget) :
    Ends E (s.iget i) fun r => Still s r.2 ∧ Refs r.2 ((r.1, i) :: h) l k := by
  unfold Fs.iget
  split
  · rename_i ip hfind
    have hip : 0 < (s.cache ip).ref ∧ s.inum ip = i := by simpa using List.find?_some hfind
    have htake := hs.take hip.1
    rw [hip.2] at htake
    exact htake
  · rename_i hnone
    have hno : ∀ ip, 0 < (s.cache ip).ref → s.inum ip ≠ i := by
      intro ip hip
      simpa [hip] using List.find?_eq_none.1 hnone ip (List.mem_finRange ip)
    split
    · rename_i hused
      refine hfull fun ip => ?_
      have := List.find?_eq_none.1 hused ip (List.mem_finRange ip)
      simp at this
      omega
    · rename_i ip hfind
      have hfree : (s.cache ip).ref = 0 := by simpa using List.find?_some hfind
      have hun : ip ∉ l := fun hip => by
        have := (hs.lock.2 ip hip).1
        omega
      have hunlocked : ¬ (s.cache ip).locked = true := fun hip => hun ((hs.locked ip).1 hip)
      refine hs.setCache (fun jp => ?_) (fun e he => ?_) (fun hpos => absurd hpos (by omega)) (fun _ jp hjp => hno jp hjp)
        (fun jp => ?_) ⟨hs.lock.1, fun hl => absurd hl hunlocked⟩ nofun fun hpos => absurd hpos (by omega)
      · rw [count_held]
        by_cases heq : jp = ip
        · subst heq
          have href := hs.ref jp
          rw [if_pos rfl, if_pos rfl]
          dsimp only
          omega
        · rw [if_neg heq, if_neg heq, hs.ref, Nat.add_zero]
      · exact (List.mem_cons.1 he).symm
      · by_cases heq : jp = ip
        · rw [if_pos heq, heq]
          exact iff_of_false hun hunlocked
        · rw [if_neg heq]

theorem ilock (hs : Refs s h l k) (hip : 0 < (s.cache ip).ref) (hself : ip ∈ l → E .deadlock)
    (hi : (s.node ip).type = .free → E .noType) :
    Ends E (s.ilock ip) fun t => Still s t ∧ Refs t h (ip :: l) k := by
  unfold Fs.ilock
  dsimp only
  rw [if_neg (by omega)]
  split
  · rename_i hlocked
    exact hself ((hs.locked ip).1 hlocked)
  · rename_i hunlocked
    have hun : ip ∉ l := fun hl => hunlocked ((hs.locked ip).2 hl)
    split
    · rename_i hfree
      exact hi hfree.2
    · rename_i hok
      have htype : (s.node ip).type ≠ .free := by
        intro hfree
        by_cases hv : (s.cache ip).valid = true
        · exact hs.valid ip hip hv hfree
        · exact hok ⟨by simpa using hv, hfree⟩
      refine hs.setCache (fun jp => ?_) (fun e he => .inl he) (fun _ => rfl) (fun h0 => absurd hip (by omega)) (fun jp => ?_)
        ⟨List.nodup_cons.2 ⟨hun, hs.lock.1⟩, fun _ => ⟨hip, rfl⟩⟩ (fun _ _ => htype) fun _ _ => rfl
      · rw [← hs.ref]
        split
        · rename_i heq
          rw [heq]
        · rfl
      · by_cases heq : jp = ip
        · simp [heq]
        · simp [heq]

theorem iunlock (hs : Refs s h l k) (hl : l.Perm (ip :: l')) :
    Ends E (s.iunlock ip) fun t => Still s t ∧ Refs t h l' k ∧ (t.cache ip).valid = true := by
  replace hs := hs.perm (.refl h) hl
  obtain ⟨hpos, hvalid⟩ := hs.lock.2 ip List.mem_cons_self
  have hlocked : (s.cache ip).locked = true := (hs.locked ip).2 List.mem_cons_self
  obtain ⟨hun, hnodup⟩ := List.nodup_cons.1 hs.lock.1
  unfold Fs.iunlock
  dsimp only
  rw [if_neg (by rw [hlocked]; simp; omega)]
  have hset : Still s (s.setCache ip { s.cache ip with locked := false }) ∧
      Refs (s.setCache ip { s.cache ip with locked := false }) h l' k := hs.setCache (fun jp => ?_)
    (fun e he => .inl he) (fun _ => rfl) (fun h0 => absurd hpos (by omega)) (fun jp => ?_) ⟨hnodup, nofun⟩
    (fun _ hv => hs.valid ip hpos hv) fun _ hv => hv
  · refine ⟨hset.1, hset.2, ?_⟩
    rw [setCache_self]
    exact hvalid
  · rw [← hs.ref]
    split
    · rename_i heq
      rw [heq]
    · rfl
  · by_cases heq : jp = ip
    · rw [if_pos heq, heq]
      exact iff_of_false hun nofun
    · rw [if_neg heq, List.mem_cons, or_iff_right heq]

/-- The last reference to an inode without links. -/
theorem ifree (hs : Refs s h l k) (hh : h.Perm ((ip, i) :: h')) (hun : ip ∉ l) (href : (s.cache ip).ref = 1) :
    Freed s i ((s.ifree ip).setCache ip { (s.ifree ip).cache ip with ref := 0 }) ∧
      Refs ((s.ifree ip).setCache ip { (s.ifree ip).cache ip with ref := 0 }) h' l k := by
  replace hs := hs.perm hh (.refl l)
  have hi : s.inum ip = i := hs.inum (ip, i) List.mem_cons_self
  have h0 := hs.ref ip
  rw [count_held, if_pos rfl, href] at h0
  have hother {jp : Ip} (hne : jp ≠ ip) : ((s.ifree ip).setCache ip { (s.ifree ip).cache ip with ref := 0 }).cache jp = s.cache jp := by
    rw [setCache_of_ne hne, Fs.ifree, setCache_of_ne hne]
    rfl
  generalize ht : (s.ifree ip).setCache ip { (s.ifree ip).cache ip with ref := 0 } = t at hother
  have hself : t.cache ip = { s.cache ip with ref := 0, valid := false } := by
    rw [← ht, setCache_self, Fs.ifree, setCache_self]
    rfl
  have hinode : t.inode = Function.update s.inode i { s.inode i with type := .free, ents := [], data := [] } := by
    rw [← ht, ← hi]
    rfl
  have hinum (jp : Ip) : t.inum jp = s.inum jp := by
    unfold Fs.inum
    by_cases heq : jp = ip
    · rw [heq, hself]
    · rw [hother heq]
  have hnode {jp : Ip} (hne : jp ≠ ip) (hpos : 0 < (s.cache jp).ref) : t.node jp = s.node jp := by
    rw [node, node, hinum, hinode, Function.update_of_ne]
    intro heq
    exact hne (hs.unique jp ip hpos (by omega) (heq.trans hi.symm))
  have hne {jp : Ip} (hjp : 0 < s.users jp) : jp ≠ ip := by
    rintro rfl
    omega
  refine ⟨⟨⟨by rw [← ht]; rfl, by rw [← ht]; rfl, by rw [← ht]; rfl, fun jp _ => hinum jp⟩, hinode, by rw [← ht, ← hi]; rfl⟩,
    hs.move (by rw [← ht]; rfl) (by rw [← ht]; rfl) (fun jp hjp => ?_) (fun jp => ?_) (fun e he => ?_) ?_ (fun jp => ?_)
      ⟨hs.lock.1, fun jp hjp => ?_⟩ fun jp hpos hv => ?_⟩
  · rw [hnode (hne hjp) (hs.ref_pos hjp), hother (hne hjp)]
    exact ⟨hinum jp, rfl, id⟩
  · by_cases heq : jp = ip
    · rw [heq, hself]
      dsimp only
      omega
    · rw [hother heq, hs.ref, count_held, if_neg heq, Nat.add_zero]
  · rw [hinum]
    exact hs.inum e (List.mem_cons_of_mem _ he)
  · intro jp jp' hjp hjp' heq
    rw [hinum, hinum] at heq
    have hold {q : Ip} (hq : 0 < (t.cache q).ref) : 0 < (s.cache q).ref := by
      by_cases hqi : q = ip
      · rw [hqi, hself] at hq
        exact absurd hq (Nat.lt_irrefl 0)
      · rwa [hother hqi] at hq
    exact hs.unique jp jp' (hold hjp) (hold hjp') heq
  · by_cases heq : jp = ip
    · rw [heq, hself, ← hs.locked]
    · rw [hother heq, hs.locked]
  · have hji : jp ≠ ip := fun heq => hun (heq ▸ hjp)
    rw [hother hji]
    exact hs.lock.2 jp hjp
  · have hji : jp ≠ ip := by
      rintro rfl
      rw [hself] at hpos
      exact absurd hpos (Nat.lt_irrefl 0)
    rw [hother hji] at hpos hv
    rw [hnode hji hpos]
    exact hs.valid jp hpos hv

/-- `iput` frees the inode if nothing else refers to it and it has no links, and else
leaves it as it is. -/
theorem iput_cases (hs : Refs s h l k) (hh : h.Perm ((ip, i) :: h')) (hself : ip ∈ l → E .deadlock) :
    Ends E (s.iput ip) fun t => Refs t h' l k ∧
      ((Still s t ∧ ((s.cache ip).valid = true → (s.inode i).nlink = 0 → 0 < s.users ip + (h'.map Prod.fst).count ip)) ∨
        (Freed s i t ∧ s.users ip = 0 ∧ (s.inode i).nlink = 0 ∧ (s.inode i).type ≠ .free)) := by
  have hs' := hs.perm hh (.refl l)
  have hi : s.inum ip = i := hs'.inum (ip, i) List.mem_cons_self
  have h0 := hs'.ref ip
  rw [count_held, if_pos rfl] at h0
  unfold Fs.iput
  dsimp only
  split
  · rename_i hlocked
    exact hself ((hs.locked ip).1 hlocked)
  · rename_i hunlocked
    have hun : ip ∉ l := fun hl => hunlocked ((hs.locked ip).2 hl)
    by_cases hlast : (s.cache ip).valid = true ∧ (s.node ip).nlink = 0 ∧ (s.cache ip).ref = 1
    · rw [if_pos hlast, hlast.2.2]
      obtain ⟨hfreed, hrefs⟩ := hs.ifree hh hun hlast.2.2
      have hnode : s.node ip = s.inode i := by rw [node, hi]
      refine ⟨hrefs, .inr ⟨hfreed, by omega, hnode ▸ hlast.2.1, ?_⟩⟩
      rw [← hnode]
      exact hs.valid ip (by omega) hlast.1
    · rw [if_neg hlast]
      have hset : Still s (s.setCache ip { s.cache ip with ref := (s.cache ip).ref - 1 }) ∧
          Refs (s.setCache ip { s.cache ip with ref := (s.cache ip).ref - 1 }) h' l k := hs'.setCache
        (fun jp => ?_) (fun e he => .inl (List.mem_cons_of_mem _ he)) (fun _ => rfl) (fun h0 => by omega)
        (fun jp => ?_) ⟨hs.lock.1, fun hl => absurd hl hunlocked⟩ (fun _ hv => hs.valid ip (by omega) hv) fun _ hv => hv
      · refine ⟨hset.2, .inl ⟨hset.1, fun hv hn => ?_⟩⟩
        have hmore : (s.cache ip).ref ≠ 1 := fun h1 => hlast ⟨hv, by rw [node, hi]; exact hn, h1⟩
        omega
      · by_cases heq : jp = ip
        · subst heq
          rw [if_pos rfl]
          dsimp only
          omega
        · rw [if_neg heq, hs'.ref, count_held, if_neg heq, Nat.add_zero]
      · by_cases heq : jp = ip
        · rw [if_pos heq, heq, hs.locked]
        · rw [if_neg heq]

/-- `iput` where it does not free. -/
theorem iput (hs : Refs s h l k) (hh : h.Perm ((ip, i) :: h')) (hself : ip ∈ l → E .deadlock)
    (hq : (s.inode i).type ≠ .free → (s.inode i).nlink = 0 → 0 < s.users ip) :
    Ends E (s.iput ip) fun t => Still s t ∧ Refs t h' l k := by
  refine (hs.iput_cases hh hself).mono fun t ht => ?_
  obtain ⟨hrefs, ⟨hstill, -⟩ | ⟨-, hno, hn, htype⟩⟩ := ht
  · exact ⟨hstill, hrefs⟩
  · have := hq htype hn
    omega

end Refs

/-! ## The first state -/

section

variable [DecidableEq P] (files : List (Name × List (BitVec 8))) (p : P)

theorem users_mkfs (ip : Ip) : (mkfs files p).users ip = if ip = ⟨0, by decide⟩ then 1 else 0 := by
  unfold users cwds Ftable.users
  have hfiles : ∀ f : FileId, ((mkfs files p).ft.file f).type.holds ip = 0 := fun _ => rfl
  have hcwd (q : P) : cwdOf ((mkfs files p).proc q) ip = if q = p then if ip = ⟨0, by decide⟩ then 1 else 0 else 0 := by
    change cwdOf (if q = p then _ else _) ip = _
    split
    · exact if_congr eq_comm rfl rfl
    · rfl
  simp only [hfiles, hcwd, Finset.sum_const_zero, Nat.zero_add, Finset.sum_ite_eq', Finset.mem_univ, if_true]

theorem refs_mkfs : Refs (mkfs files p) [] [] [] := by
  have hroot : (mkfs files p).inode ROOTINO = ⟨.dir, 0, 0, 1, rootEnts files, []⟩ := rfl
  have hcache (ip : Ip) : (mkfs files p).cache ip =
      if ip = ⟨0, by decide⟩ then ⟨ROOTINO, 1, false, false⟩ else ⟨noInum, 0, false, false⟩ := rfl
  have hused {ip : Ip} (hip : 0 < ((mkfs files p).cache ip).ref) : ip = ⟨0, by decide⟩ := by
    by_contra hne
    rw [hcache, if_neg hne] at hip
    exact absurd hip (Nat.lt_irrefl 0)
  have hslots (f : FileId) : (mkfs files p).slots f = 0 := by
    unfold slots
    refine Finset.sum_eq_zero fun q _ => ?_
    change slotsOf (if q = p then _ else _) f = 0
    split
    · rw [slotsOf, List.count_eq_zero]
      simp [Ofile.slots]
    · rfl
  refine ⟨fun ip => ?_, fun _ he => absurd he List.not_mem_nil, fun ip jp hip hjp _ => by rw [hused hip, hused hjp],
    fun ip => ?_, ⟨List.nodup_nil, fun _ hl => absurd hl List.not_mem_nil⟩, ?_, fun ip hip hv => ?_, fun ip hip => ?_,
    fun q x hq => ?_, fun f ip hf => nomatch hf⟩
  · rw [users_mkfs, hcache]
    split <;> rfl
  · rw [hcache]
    split <;> exact iff_of_false nofun List.not_mem_nil
  · have hend (q : Page) (w : Bool) (f : FileId) : ¬ (mkfs files p).ft.IsEnd q w f := fun hf => nomatch hf.1
    refine ⟨fun f => (hslots f).symm, fun _ _ => rfl, fun q w f _ hf => absurd hf (hend q w f), fun q w => ?_, ?_⟩
    · exact iff_of_false (fun ⟨_, he, _⟩ => nomatch he) fun ⟨f, hf⟩ => hend q w f hf
    · exact fun _ _ he => nomatch he
  · rw [hcache] at hv
    split at hv <;> cases hv
  · rw [users_mkfs] at hip
    have h0 : ip = ⟨0, by decide⟩ := by
      by_contra hne
      rw [if_neg hne] at hip
      exact absurd hip (Nat.lt_irrefl 0)
    have hinum : (mkfs files p).inum ip = ROOTINO := by rw [inum, hcache, if_pos h0]
    rw [node, hinum, hroot]
    exact ⟨nofun, .inr rfl⟩
  · change (if q = p then _ else _) = some x at hq
    split at hq
    · cases hq
      have hinum : (mkfs files p).inum ⟨0, by decide⟩ = ROOTINO := rfl
      rw [node, hinum, hroot]
    · cases hq

end

end Fs

end Xv6
