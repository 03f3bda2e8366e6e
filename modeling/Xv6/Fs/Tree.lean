import Xv6.Fs.Syscall
/-!
# Dangling entries and orphans

A directory that is removed while a process is in it lives on without a link,
and its `..` is not counted in its parent. As long as the parent stays, no entry
dangles (`entries_never_dangle`); as long as nothing is made in such a directory,
link counts are exact (`links_exact`). Neither is checked by the code.
-/

namespace Xv6

open Inodes Runs

namespace Fs

variable {P : Type} {files : List (Name × List (BitVec 8))} {s t : Fs P} {p : P} {cwd : Ip} {path : List Char} {l : P × Call P}

/-! ## Checking a run -/

instance : Decidable (s.Room cwd path) :=
  decidable_of_iff (∀ w ∈ s.resolve cwd true path, (s.inode w.1).lookup w.2 = none → 1 ≤ (s.inode w.1).nlink)
    ⟨fun h d name hw => h (d, name) hw, fun h w hw => h w.1 w.2 hw⟩

instance : Decidable (s.NotParent cwd path) :=
  decidable_of_iff (∀ w ∈ s.resolve cwd true path, ¬(w.2 = dot ∨ w.2 = dotdot) → ∀ i ∈ (s.inode w.1).lookup w.2,
      (s.inode i).type = .dir → (s.inode i).isdirempty = true → ∀ c, (s.inode c).type = .dir → (s.inode c).up ≠ i)
    ⟨fun h d name i hw hn hi => h (d, name) hw hn i hi, fun h w hw hn i hi => h w.1 w.2 i hw hn hi⟩

instance : Decidable (KeepsParents s l) :=
  inferInstanceAs (Decidable (∀ x ∈ s.proc l.1,
    (∀ path ∈ l.2.makesDir, s.Room x.cwd path) ∧ ∀ path ∈ l.2.removes, s.NotParent x.cwd path))

instance : Decidable (KeepsLinks s l) :=
  inferInstanceAs (Decidable (∀ x ∈ s.proc l.1,
    (∀ path ∈ l.2.makes, s.Room x.cwd path) ∧ ∀ path ∈ l.2.removes, s.NotParent x.cwd path))

instance : Decidable (Short s) := inferInstanceAs (Decidable (∀ i, (s.inode i).nlink < 2 ^ 15 - 1))

/-! ## Entries -/

variable [Fintype P] [DecidableEq P]

/-- No entry names a free inode, `.` and `..` of a removed directory included, and no call
panics because of one. -/
theorem entries_never_dangle (hfit : Fits files)
    (h : Run step (fun s l => KeepsParents s l ∧ Short s) (mkfs files p) s) :
    Entries s.inode ∧ ∀ q x c, s.proc q = some x → KeepsParents s (q, c) → Short s →
      (∀ page ∈ c.page, s.ft.pipe page = none) → s.syscall q x c ≠ .error .noType := by
  have hs : Sane True False s := h.inv (Sane True False)
    (fun _ _ _ hs hl hstep => hs.step (fun _ => hl.1) False.elim hstep) (sane_mkfs files _ _ hfit p)
  refine ⟨hs.good.entries trivial, fun q x c hq hl _ hpage heq => ?_⟩
  have hends := hs.syscall hq c hpage False.elim (fun _ => (hl x hq).1) fun _ => (hl x hq).2
  rw [heq] at hends
  exact hends trivial

/-- A process makes a directory, goes there and removes it. -/
def removed : List (Unit × Call Unit) :=
  [((), .mkdir (some "a".toList)), ((), .chdir (some "a".toList)), ((), .unlink (some "/a".toList))]

theorem removed_entries : ∃ s : Fs Unit, (s.inode ⟨2, by decide⟩).type = .dir ∧ (s.inode ⟨2, by decide⟩).nlink = 0 ∧
    Entries s.inode := by
  have hrun : (Runs.exec (checked step fun s l => KeepsParents s l ∧ Short s) (mkfs [] ()) removed).map
      (fun s => ((s.inode ⟨2, by decide⟩).type, (s.inode ⟨2, by decide⟩).nlink)) = some (.dir, 0) := by decide +kernel
  obtain ⟨s, hs, heq⟩ := Option.map_eq_some_iff.1 hrun
  obtain ⟨hdir, hlink⟩ := Prod.mk.inj heq
  have hfit : Fits [] := by
    unfold Fits
    decide +kernel
  exact ⟨s, hdir, hlink, (entries_never_dangle hfit (run_of_checked (fun _ _ h => of_decide_eq_true h) hs)).1⟩

/-- The directory above is removed too. -/
def parentRemoved : List (Unit × Call Unit) :=
  [((), .mkdir (some "a".toList)), ((), .mkdir (some "a/b".toList)), ((), .chdir (some "a/b".toList)),
    ((), .unlink (some "/a/b".toList)), ((), .unlink (some "/a".toList))]

/-- What the call panics with. -/
def panicOf (s : Fs P) (p : P) (c : Call P) : Option FsPanic := do
  let x ← s.proc p
  match s.syscall p x c with
  | .error e => some e
  | .ok _ => none

theorem parent_dangles : ∃ s : Fs Unit, Run step (fun s _ => Short s) (mkfs [] ()) s ∧ ¬ Entries s.inode ∧
    s.panicOf () (.chdir (some "..".toList)) = some .noType := by
  have hrun : (Runs.exec (checked step fun s _ => Short s) (mkfs [] ()) parentRemoved).map
      (fun s => ((s.inode ⟨3, by decide⟩).type, (s.inode ⟨3, by decide⟩).ents[1]?, (s.inode ⟨2, by decide⟩).type,
        s.panicOf () (.chdir (some "..".toList)))) =
      some (.dir, some ⟨dotdot, ⟨2, by decide⟩⟩, .free, some .noType) := by decide +kernel
  obtain ⟨s, hs, heq⟩ := Option.map_eq_some_iff.1 hrun
  obtain ⟨hdir, heq⟩ := Prod.mk.inj heq
  obtain ⟨hent, heq⟩ := Prod.mk.inj heq
  obtain ⟨hfree, hpanic⟩ := Prod.mk.inj heq
  refine ⟨s, run_of_checked (fun _ _ h => of_decide_eq_true h) hs, fun h => ?_, hpanic⟩
  exact h _ hdir _ (List.mem_of_getElem? hent) (by decide) hfree

end Fs

namespace Inodes

variable {a g : Prop} {t : Inodes} {d i : Inum}

/-- How many entries of directories name the inode, `.` and `..` included. -/
def entriesFor (t : Inodes) (i : Inum) : Nat :=
  ∑ d, if (t d).type = .dir then (t d).ents.countP fun e => e.inum = i else 0

/-- The entries of a directory. -/
def room (x : Inode) : Nat := if x.type = .dir then x.ents.length else 0

theorem counts_le_room (x : Inode) (q : Inum → Bool) : x.counts q ≤ room x := by
  unfold Inode.counts room
  split
  · calc x.rest.countP _ ≤ x.rest.length := List.countP_le_length
      _ ≤ x.ents.length := by rw [Inode.rest, List.length_drop]; omega
  · exact Nat.le_refl 0

theorem room_le_taken (x : Inode) : room x ≤ 32 * Fs.taken x := by
  unfold room Fs.taken
  split
  case isTrue hd =>
    rw [if_neg (by rw [hd]; exact nofun)]
    have hsize : 16 * x.ents.length ≤ x.size := Nat.le_add_right _ _
    have hblocks : (x.size + 511) / 512 ≤ x.blocks := by
      unfold Inode.blocks
      change _ ≤ if NDIRECT < (x.size + 511) / 512 then (x.size + 511) / 512 + 1 else (x.size + 511) / 512
      split <;> omega
    omega
  case isFalse => exact Nat.zero_le _

/-- All directories together have no more entries than the blocks have room for. -/
theorem sum_room_le (t : Inodes) : ∑ d, room (t d) ≤ 32 * Fs.total t := by
  calc ∑ d, room (t d) ≤ ∑ d, 32 * Fs.taken (t d) := Finset.sum_le_sum fun d _ => room_le_taken (t d)
    _ = 32 * ∑ d, Fs.taken (t d) := Finset.mul_sum .. |>.symm
    _ = 32 * Fs.total t := by
      rw [Fin.sum_univ_def]
      rfl

theorem names_le_sum_room (t : Inodes) (i : Inum) : names t i ≤ ∑ d, room (t d) := by
  unfold names
  exact Finset.sum_le_sum fun d _ => counts_le_room (t d) _

namespace Links

/-- Only a directory is named by a `.` or `..`. -/
theorem entriesFor_eq (h : Links a g t []) (ha : a) (hi : (t i).type ≠ .dir) : entriesFor t i = names t i := by
  unfold entriesFor names
  refine Finset.sum_congr rfl fun d _ => ?_
  unfold Inode.counts
  split
  case isTrue hd =>
    have hdot : d ≠ i := fun heq => hi (heq ▸ hd)
    have hup : (t d).up ≠ i := fun heq => hi (heq ▸ (h.above ha d hd).1)
    rewrite [h.dots d hd, List.countP_cons_of_neg (by simpa using hdot), List.countP_cons_of_neg (by simpa using hup)]
    rfl
  case isFalse => rfl

theorem nlink_eq (h : Links a g t []) (hg : g) (hi : (t i).type ≠ .free) : (t i).nlink = (bonds t [] i + subs t i : Nat) :=
  Int.le_antisymm (h.tight i hi (.inl hg)) (h.count i hi)

theorem own_eq_zero (h : Links a g t []) (hi : (t i).type ≠ .dir) : own i = 0 :=
  if_neg fun heq : i = ROOTINO => hi (heq ▸ h.root)

theorem bonds_file (h : Links a g t []) (hi : (t i).type ≠ .dir) : bonds t [] i + subs t i = names t i := by
  have hsubs : subs t i = 0 := if_neg hi
  rw [bonds, hsubs, h.own_eq_zero hi]
  simp

/-- No link count exceeds the number of all entries. -/
theorem links_le (h : Links a g t []) (i : Inum) : bonds t [] i + subs t i ≤ ∑ d, room (t d) := by
  by_cases hi : (t i).type = .dir
  · have hone := h.once i hi
    have hroom : room (t i) ≤ ∑ d, room (t d) :=
      Finset.single_le_sum_of_canonicallyOrdered (f := fun d => room (t d)) (Finset.mem_univ i)
    have hsubs : subs t i ≤ (t i).rest.length := by
      rw [subs, Inode.counts, if_pos hi]
      exact List.countP_le_length
    have hents : room (t i) = (t i).rest.length + 2 := by
      rw [room, if_pos hi, h.dots i hi]
      rfl
    omega
  · rw [h.bonds_file hi]
    exact names_le_sum_room t i

end Links

end Inodes

namespace Fs

variable {P : Type} {files : List (Name × List (BitVec 8))} {s : Fs P} {p : P}

/-- No process has the inode open or as its current directory. -/
def Unreferenced (s : Fs P) (i : Inum) : Prop := ∀ ip, s.inum ip = i → (s.cache ip).ref = 0

/-- Link counts are exact, and nothing is left behind without a link. -/
structure ExactLinks (s : Fs P) : Prop where
  dots : ∀ d, (s.inode d).type = .dir → (s.inode d).ents = ⟨dot, d⟩ :: ⟨dotdot, (s.inode d).up⟩ :: (s.inode d).rest
  linked : ∀ i, (s.inode i).type ≠ .free → s.Unreferenced i → 1 ≤ (s.inode i).nlink
  file : ∀ i, (s.inode i).type ≠ .free → (s.inode i).type ≠ .dir → s.Unreferenced i →
    (s.inode i).nlink = entriesFor s.inode i
  dir : ∀ d, (s.inode d).type = .dir → s.Unreferenced d → (s.inode d).nlink = 1 + subs s.inode d
  short : ∀ i, (s.inode i).type ≠ .free → (s.inode i).nlink < 2 ^ 15 - 1

variable [Fintype P]

theorem Sane.exactLinks (hs : Sane True True s) : ExactLinks s := by
  have hl := hs.good.links
  have hlinked (i : Inum) (hi : (s.inode i).type ≠ .free) (hun : s.Unreferenced i) : 1 ≤ (s.inode i).nlink := by
    by_contra hno
    obtain ⟨ip, hip, hu⟩ := hs.good.kept i hi (by omega)
    have href := hs.refs.ref ip
    rw [hun ip hip] at href
    omega
  refine ⟨hl.dots, hlinked, fun i hi hd _ => ?_, fun d hd hun => ?_, fun i hi => ?_⟩
  · rw [hl.nlink_eq trivial hi, hl.bonds_file hd, hl.entriesFor_eq trivial hd]
  · have hne : (s.inode d).type ≠ .free := by rw [hd]; exact nofun
    have hpos := hl.bond (.inl trivial) hd (hlinked d hne hun)
    have hone := hl.once d hd
    rw [hl.nlink_eq trivial hne]
    omega
  · have hle := hl.links_le i
    have hroom := sum_room_le s.inode
    have htotal : total s.inode ≤ SPACE := hs.good.space ▸ Nat.le_add_left _ _
    have hspace : SPACE = 941 := rfl
    rw [hl.nlink_eq trivial hi]
    omega

variable [DecidableEq P]

/-- After any calls that make nothing in a directory without a link and remove no directory
that such a one names, all link counts are exact. -/
theorem links_exact (hfit : Fits files) (h : Run step KeepsLinks (mkfs files p) s) : ExactLinks s := by
  have hs : Sane True True s := h.inv (Sane True True)
    (fun _ l _ hs hl hstep => hs.step
      (fun _ x hx => ⟨fun path hpath => (hl x hx).1 path (makes_of_makesDir hpath), (hl x hx).2⟩) (fun _ => hl) hstep)
    (sane_mkfs files _ _ hfit p)
  exact hs.exactLinks

/-- A file with two names, one of them in a directory. -/
def linkedTwice : List (Unit × Call Unit) :=
  [((), .mkdir (some "a".toList)), ((), .open (some "a/f".toList) O_CREATE), ((), .close 0),
    ((), .link (some "a/f".toList) (some "g".toList))]

theorem linkedTwice_exact : ∃ s : Fs Unit, (s.inode ⟨3, by decide⟩).nlink = 2 ∧ (s.inode ROOTINO).nlink = 2 ∧ ExactLinks s := by
  have hrun : (Runs.exec (checked step fun s l => KeepsLinks s l) (mkfs [] ()) linkedTwice).map
      (fun s => ((s.inode ⟨3, by decide⟩).nlink, (s.inode ROOTINO).nlink)) = some (2, 2) := by decide +kernel
  obtain ⟨s, hs, heq⟩ := Option.map_eq_some_iff.1 hrun
  obtain ⟨hfile, hroot⟩ := Prod.mk.inj heq
  have hfit : Fits [] := by
    unfold Fits
    decide +kernel
  exact ⟨s, hfile, hroot, links_exact hfit (run_of_checked (fun _ _ h => of_decide_eq_true h) hs)⟩

/-- A process makes a file in the directory that it has removed, and leaves. -/
def orphaned : List (Unit × Call Unit) :=
  removed ++ [((), .open (some "f".toList) O_CREATE), ((), .close 0), ((), .chdir (some "/".toList))]

instance (s : Fs P) (i : Inum) : Decidable (s.Unreferenced i) :=
  inferInstanceAs (Decidable (∀ ip, s.inum ip = i → (s.cache ip).ref = 0))

/-- The file stays allocated with one link, and no entry names it. -/
theorem orphaned_file : ∃ s : Fs Unit, Run step (fun s _ => Short s) (mkfs [] ()) s ∧
    (s.inode ⟨3, by decide⟩).type = .file ∧ s.Unreferenced ⟨3, by decide⟩ ∧
    (s.inode ⟨3, by decide⟩).nlink = 1 ∧ entriesFor s.inode ⟨3, by decide⟩ = 0 := by
  have hrun : (Runs.exec (checked step fun s _ => Short s) (mkfs [] ()) orphaned).map
      (fun s => decide ((s.inode ⟨3, by decide⟩).type = .file ∧ s.Unreferenced ⟨3, by decide⟩ ∧
        (s.inode ⟨3, by decide⟩).nlink = 1 ∧ entriesFor s.inode ⟨3, by decide⟩ = 0)) = some true := by decide +kernel
  obtain ⟨s, hs, heq⟩ := Option.map_eq_some_iff.1 hrun
  exact ⟨s, run_of_checked (fun _ _ h => of_decide_eq_true h) hs, of_decide_eq_true heq⟩

end Fs

end Xv6
