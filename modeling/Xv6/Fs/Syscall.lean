import Xv6.Lib.Runs
import Xv6.Fs.Process
/-!
# Every system call

One lemma for a call of any kind (`Sane.syscall`), and from it what holds after
any number of calls by any processes, one after another (`sane_of_run`). Which
entry a call makes or removes is what the runs differ in.
-/

namespace Xv6

open Outcome Inodes Runs

/-! ## The disk of mkfs -/

namespace Fs

variable (files : List (Name × List (BitVec 8))) {d i : Inum} {e : Dirent} {n : Nat}

/-- The inode number of a file in the order of the arguments of mkfs. -/
def inumOf (n : Nat) : Inum := if h : n + 2 < NINODES then ⟨n + 2, h⟩ else noInum

theorem inumOf_eq (hi : 2 ≤ i.val) : inumOf n = i ↔ n = i.val - 2 := by
  have := i.isLt
  unfold inumOf
  split
  · rw [Fin.ext_iff]
    dsimp only
    omega
  · rw [Fin.ext_iff]
    change 0 = i.val ↔ _
    omega

theorem inumOf_ne_root : inumOf n ≠ ROOTINO := by
  unfold inumOf
  split
  · exact fun h => absurd (congrArg Fin.val h) (by change n + 2 ≠ 1; omega)
  · exact nofun

/-- The entries behind `.` and `..`, but for their names. -/
theorem rest_mkfs : ∃ m, (image files ROOTINO).rest.map Dirent.inum =
    (List.range files.length).map inumOf ++ List.replicate m noInum := by
  obtain ⟨m, hm⟩ : ∃ m, (rootEnts files).drop 2 =
      (files.mapIdx fun k f => ⟨f.1.take DIRSIZ, inumOf k⟩) ++ List.replicate m .empty := ⟨_, rfl⟩
  refine ⟨m, ?_⟩
  change ((rootEnts files).drop 2).map Dirent.inum = _
  rw [hm, List.map_append, List.map_replicate]
  congr 1
  refine List.ext_getElem (by simp) fun k hk hk' => ?_
  rw [List.getElem_map, List.getElem_mapIdx, List.getElem_map, List.getElem_range]

theorem image_dir (hd : (image files d).type = .dir) : d = ROOTINO := by
  by_contra hne
  rw [image, if_neg hne] at hd
  split at hd <;> cases hd

theorem image_file (hi : (image files i).type ≠ .free) (hr : i ≠ ROOTINO) :
    2 ≤ i.val ∧ i.val - 2 < files.length ∧ (image files i).nlink = 1 ∧ (image files i).type = .file := by
  rw [image, if_neg hr] at hi ⊢
  split at hi
  · rename_i h
    rw [dif_pos h]
    exact ⟨h.1, h.2, rfl, rfl⟩
  · exact absurd rfl hi

theorem mem_rest_mkfs (he : e ∈ (image files ROOTINO).rest) : e.inum = noInum ∨ ∃ n, e.inum = inumOf n := by
  obtain ⟨m, hm⟩ := rest_mkfs files
  have hmem : e.inum ∈ (image files ROOTINO).rest.map Dirent.inum := List.mem_map_of_mem he
  rw [hm, List.mem_append, List.mem_map] at hmem
  obtain ⟨n, -, hn⟩ | hrep := hmem
  · exact .inr ⟨n, hn.symm⟩
  · exact .inl (List.eq_of_mem_replicate hrep)

theorem rest_not_dir (he : e ∈ (image files ROOTINO).rest) : (image files e.inum).type ≠ .dir := by
  intro hd
  have hroot := image_dir files hd
  obtain hz | ⟨n, hn⟩ := mem_rest_mkfs files he
  · rw [hz] at hroot
    exact absurd hroot (by decide)
  · exact inumOf_ne_root (hn.symm.trans hroot)

theorem names_mkfs (i : Inum) : names (image files) i = (image files ROOTINO).rest.countP fun e => e.inum = i := by
  unfold names
  rw [Finset.sum_eq_single ROOTINO]
  · exact if_pos rfl
  · intro d _ hd
    exact if_neg fun h => hd (image_dir files h)
  · exact fun h => absurd (Finset.mem_univ _) h

theorem names_file (hi : (image files i).type ≠ .free) (hr : i ≠ ROOTINO) : names (image files) i = 1 := by
  obtain ⟨h2, hlt, -, -⟩ := image_file files hi hr
  obtain ⟨m, hm⟩ := rest_mkfs files
  have hcount : (image files ROOTINO).rest.countP (fun e => e.inum = i) =
      ((image files ROOTINO).rest.map Dirent.inum).countP (· = i) := by
    rw [List.countP_map]
    rfl
  have hzero : (List.replicate m noInum).countP (· = i) = 0 := by
    rw [List.countP_eq_zero]
    intro j hj
    rw [List.eq_of_mem_replicate hj]
    have : noInum ≠ i := by
      rintro rfl
      exact absurd h2 (by decide)
    simpa using this
  rw [names_mkfs, hcount, hm, List.countP_append, hzero, List.countP_map, Nat.add_zero]
  have hindex : ((fun j => decide (j = i)) ∘ inumOf) = fun n => n == i.val - 2 := by
    funext n
    rw [Bool.eq_iff_iff]
    simp [inumOf_eq h2]
  rw [hindex]
  exact List.count_eq_one_of_mem List.nodup_range (List.mem_range.2 hlt)

theorem links_mkfs (a g : Prop) : Inodes.Links a g (image files) [] := by
  have hroot : image files ROOTINO = ⟨.dir, 0, 0, 1, rootEnts files, []⟩ := rfl
  have hup : (image files ROOTINO).up = ROOTINO := rfl
  have hbond : bonds (image files) [] ROOTINO = 1 := by
    have hno : names (image files) ROOTINO = 0 := by
      rw [names_mkfs, List.countP_eq_zero]
      intro e he
      have hne : e.inum ≠ ROOTINO := fun heq => rest_not_dir files he (by rw [heq, hroot])
      simpa using hne
    rw [bonds, hno]
    rfl
  have hsubs : ∀ i, subs (image files) i = 0 := by
    intro i
    unfold subs Inode.counts
    split
    · rename_i hd
      rw [List.countP_eq_zero]
      intro e he
      rw [image_dir files hd] at he
      simpa using rest_not_dir files he
    · rfl
  have hlink : ∀ i, (image files i).type ≠ .free → (image files i).nlink = (bonds (image files) [] i + subs (image files) i : Nat) := by
    intro i hi
    by_cases hr : i = ROOTINO
    · rw [hr, hbond, hsubs, hroot]
      rfl
    · rw [hsubs, bonds, names_file files hi hr, own, if_neg hr, (image_file files hi hr).2.2.1]
      rfl
  refine ⟨rfl, rfl, rfl, fun d hd => ?_, fun d hd => ?_, fun d e hd he hz => ?_, fun d e hd he hdir => ?_, fun d hd => ?_,
    fun i hi => (hlink i hi).ge, fun i hi _ => (hlink i hi).le, fun _ d hd => ?_, fun _ d e hd _ _ => ?_⟩
  · rw [image_dir files hd]
    rfl
  · rw [image_dir files hd, hup]
    decide
  · exact entries_mkfs files () d hd e (List.mem_of_mem_drop he) hz
  · rw [image_dir files hd] at he
    exact absurd hdir (rest_not_dir files he)
  · rw [image_dir files hd, hbond]
  · rw [image_dir files hd, hup, hbond]
    exact ⟨rfl, Nat.le_refl 1⟩
  · rw [image_dir files hd, hbond]

/-- The files take up no more blocks than there are. -/
def Fits : Prop := total (image files) ≤ SPACE

variable {P : Type} [Fintype P] [DecidableEq P]

theorem sane_mkfs (a g : Prop) (hfit : Fits files) (p : P) : Sane a g (mkfs files p) := by
  refine ⟨refs_mkfs files p, links_mkfs files a g, ?_, kept_mkfs files p⟩
  unfold Fits at hfit
  change SPACE - total (image files) + total (image files) = SPACE
  omega

/-! ## One call -/

/-- The path of the entry that a call is to make. -/
def Call.makes : Call P → Option (List Char)
  | .mkdir path => path
  | .mknod path _ _ => path
  | .open path omode => if omode &&& O_CREATE ≠ 0 then path else none
  | .link _ new => new
  | _ => none

/-- The path of the directory that a call is to make. -/
def Call.makesDir : Call P → Option (List Char)
  | .mkdir path => path
  | _ => none

/-- The path of the entry that a call is to remove. -/
def Call.removes : Call P → Option (List Char)
  | .unlink path => path
  | _ => none

variable {files} {a g : Prop} {s t : Fs P} {p : P} {x : Files} {c : Call P}

theorem Sane.syscall (hs : Sane a g s) (hp : s.proc p = some x) (c : Call P)
    (hpage : ∀ q ∈ c.page, s.ft.pipe q = none) (hroom : g → ∀ path ∈ c.makes, s.Room x.cwd path)
    (hdir : a → ∀ path ∈ c.makesDir, s.Room x.cwd path) (hup : a → ∀ path ∈ c.removes, s.NotParent x.cwd path) :
    Ends (Err a) (s.syscall p x c) fun r => Sane a g r.2 := by
  have hcwd := users_cwd hp
  cases c with
  | mkdir path =>
    refine (hs.sysMake hcwd path .dir (fun hag => ?_) nofun 0 0).mono fun _ hr => hr.1
    obtain hg | ⟨ha, -⟩ := hag
    · exact hroom hg
    · exact hdir ha
  | mknod path major minor =>
    refine (hs.sysMake hcwd path .dev (fun hag => ?_) nofun major minor).mono fun _ hr => hr.1
    obtain hg | ⟨-, hd⟩ := hag
    · exact hroom hg
    · cases hd
  | «open» path omode =>
    refine (hs.sysOpen hp path omode fun hg hc q hq => hroom hg q ?_).mono fun _ hr => hr.1
    rw [Call.makes, if_pos hc]
    exact hq
  | link old new => exact (hs.sysLink hcwd old new hroom).mono fun _ hr => hr.1
  | unlink path => exact (hs.sysUnlink hcwd path hup).mono fun _ hr => hr.1
  | chdir path => exact (hs.sysChdir hp path).mono fun _ hr => hr.1
  | dup fd => exact (hs.sysDup hp fd).mono fun _ hr => hr.1
  | pipe ptr page => exact (hs.sysPipe hp ptr page hpage).mono fun _ hr => hr.1
  | close fd => exact hs.sysClose hp fd
  | read fd n got =>
    dsimp only [Fs.syscall]
    split
    · exact hs.fileread _ _ _
    · exact hs
  | write fd src got =>
    dsimp only [Fs.syscall]
    split
    · exact hs.filewrite _ _ _
    · exact hs
  | fstat fd =>
    dsimp only [Fs.syscall]
    split
    · exact hs.filestat _
    · exact hs
  | exec path ok => exact hs.exec hcwd path ok
  | fork child => exact hs.fork hp child
  | exit => exact hs.exit hp

omit [Fintype P] in
/-- A call that returns. -/
theorem call_eq {r : Int × Fs P} (h : s.call p c = some r) :
    ∃ x, s.proc p = some x ∧ (∀ q ∈ c.page, s.ft.pipe q = none) ∧ s.syscall p x c = .ok r := by
  unfold call at h
  split at h
  · rename_i hpage
    obtain ⟨x, hp, h⟩ := Option.bind_eq_some_iff.1 h
    refine ⟨x, hp, hpage, ?_⟩
    cases hc : s.syscall p x c with
    | ok r' =>
      rw [hc] at h
      cases h
      rfl
    | error e =>
      rw [hc] at h
      cases h
  · cases h

/-! ## Runs -/

/-- No directory is made in one that has no link, and none is removed that the `..` of
another names. -/
def KeepsParents (s : Fs P) (l : P × Call P) : Prop :=
  ∀ x, s.proc l.1 = some x → (∀ path ∈ l.2.makesDir, s.Room x.cwd path) ∧ ∀ path ∈ l.2.removes, s.NotParent x.cwd path

/-- No entry is made in a directory that has no link, and no directory is removed that the
`..` of another names. -/
def KeepsLinks (s : Fs P) (l : P × Call P) : Prop :=
  ∀ x, s.proc l.1 = some x → (∀ path ∈ l.2.makes, s.Room x.cwd path) ∧ ∀ path ∈ l.2.removes, s.NotParent x.cwd path

/-- `nlink` is a short. Below its largest value no call makes it wrap, and the counts here,
which do not wrap, are the code's. -/
def Short (s : Fs P) : Prop := ∀ i, (s.inode i).nlink < 2 ^ 15 - 1

omit [Fintype P] [DecidableEq P] in
theorem makes_of_makesDir {path : List Char} (h : path ∈ c.makesDir) : path ∈ c.makes := by
  cases c with
  | mkdir path => exact h
  | _ => cases h

theorem Sane.step (hs : Sane a g s) {l : P × Call P} (ha : a → KeepsParents s l) (hg : g → KeepsLinks s l)
    (h : s.step l = some t) : Sane a g t := by
  obtain ⟨r, hr, rfl⟩ := Option.map_eq_some_iff.1 h
  obtain ⟨x, hp, hpage, hc⟩ := call_eq hr
  have hsane := hs.syscall hp l.2 hpage (fun hgg => (hg hgg x hp).1) (fun haa => (ha haa x hp).1) fun haa => (ha haa x hp).2
  rw [hc] at hsane
  exact hsane

end Fs

end Xv6
