import Xv6.Lib.Runs
import Xv6.Trap.Frames
import Xv6.Args
/-!
# Where the delivery of a signal writes

The user branch of `handle_signals` writes below the stack pointer of the
process: the saved frame, the code that calls `sigret`, the signal number and
the return address. The stack pointer is the user's and nothing looks at it,
so the blocks lie in the memory of the process just when there is room for
them below the stack pointer and the stack pointer is in that memory.
-/

namespace Xv6

open Bytes Runs

namespace Task

/-- The blocks that the user branch of `handle_signals` writes through the stack
pointer, in order: the frame and the stack pointer in it, the code, the signal number,
the return address. Each address is computed from the frame as it is at that moment,
which the blocks before may have overwritten. -/
def handlerWrites (t : Task) (i : Sig) : List Region :=
  let bu := t.get .esp - BitVec.ofNat 32 frameSize
  let saved := t.saveFrame
  let code := saved.injectSigret
  let num := code.poke (code.get .esp - 4) (BitVec.ofNat 32 i.val)
  [⟨bu, frameSize⟩, ⟨bu + BitVec.ofNat 32 Reg.esp.offset, 4⟩,
   ⟨saved.get .esp - BitVec.ofNat 32 sigretCode.length, sigretCode.length⟩,
   ⟨code.get .esp - 4, 4⟩, ⟨num.get .esp - 8, 4⟩]

variable (t : Task) (i : Sig)

/-- A block of `j` bytes that starts `n` below `e`. -/
theorem within_below {sz : Size} {e : BitVec 32} {n j : Nat} (hj : 0 < j) (hjn : j ≤ n) (hn : n < 2 ^ 31) :
    Region.Within ⟨e - BitVec.ofNat 32 n, j⟩ sz ↔ n ≤ e.toNat ∧ e.toNat - n + j ≤ sz.val.toNat := by
  have hsz := sz.le
  unfold KERNBASE at hsz
  by_cases he : n ≤ e.toNat
  · have hto := toNat_sub_ofNat he
    by_cases hlt : e.toNat - n < sz.val.toNat
    · rw [within_iff (by omega) (by omega), hto]
      omega
    · refine iff_of_false (fun h => ?_) (by omega)
      have := h 0 hj
      rw [BitVec.add_zero, hto] at this
      omega
  · -- the block starts at the top of the address space
    have hn' : (BitVec.ofNat 32 n).toNat = n := by
      rw [BitVec.toNat_ofNat, Nat.mod_eq_of_lt (by omega)]
    refine iff_of_false (fun h => ?_) (fun h => he h.1)
    have := h 0 hj
    rw [BitVec.add_zero, BitVec.toNat_sub_of_lt (BitVec.lt_def.2 (by omega)), hn'] at this
    omega

theorem within_part {sz : Size} {a : BitVec 32} {n k j : Nat} (h : Region.Within ⟨a, n⟩ sz) (hk : k + j ≤ n) :
    Region.Within ⟨a + BitVec.ofNat 32 k, j⟩ sz := by
  intro x hx
  rw [BitVec.add_assoc, ← BitVec.ofNat_add]
  exact h (k + x) (by dsimp only at hx ⊢; omega)

end Task

/-- The delivery of a signal to a user handler writes within the memory of the process just
when the stack pointer is in it, with room below for what is written. -/
theorem delivery_within (t : Task) (i : Sig) :
    (∀ r ∈ t.handlerWrites i, r.Within t.sz) ↔
      Task.handlerRoom ≤ (t.get .esp).toNat ∧ (t.get .esp).toNat ≤ t.sz.val.toNat := by
  have hsz := t.sz.le
  have hroom : Task.handlerRoom = frameSize + Task.sigretCode.length + 8 := rfl
  have hcode : Task.sigretCode.length = 7 := rfl
  have hframe : frameSize = 76 := rfl
  -- as soon as the first block is in user memory, the stack pointer is what it should be
  have hsaved (hn : frameSize ≤ (t.get .esp).toNat) (he : (t.get .esp).toNat ≤ t.sz.val.toNat) :
      (t.saveFrame.get .esp).toNat = (t.get .esp).toNat - frameSize := by
    rw [Task.saveFrame_get (by omega) hn, if_pos rfl, Task.toNat_sub_ofNat hn]
  have hinject (he : (t.saveFrame.get .esp).toNat ≤ KERNBASE)
      (hn : Task.sigretCode.length ≤ (t.saveFrame.get .esp).toNat) :
      (t.saveFrame.injectSigret.get .esp).toNat = (t.saveFrame.get .esp).toNat - Task.sigretCode.length := by
    rw [Task.injectSigret_get he hn, if_pos rfl, Task.toNat_sub_ofNat hn]
  have hnum (he : (t.saveFrame.injectSigret.get .esp).toNat ≤ KERNBASE)
      (hn : 4 ≤ (t.saveFrame.injectSigret.get .esp).toNat) :
      (t.saveFrame.injectSigret.poke (t.saveFrame.injectSigret.get .esp - 4) (BitVec.ofNat 32 i.val)).get .esp =
        t.saveFrame.injectSigret.get .esp :=
    Task.get_poke _ _ (Task.userBlock_sub (n := 4) hn he) .esp
  simp only [Task.handlerWrites, List.forall_mem_cons, List.not_mem_nil, false_imp_iff, implies_true, and_true]
  constructor
  · rintro ⟨h1, -, h3, h4, h5⟩
    rw [Task.within_below (by omega) le_rfl (by omega)] at h1 h3
    have h1' := hsaved h1.1 (by omega)
    have h3' := hinject (by omega) h3.1
    have h4' := (Task.within_below (n := 4) (by omega) le_rfl (by omega)).1 h4
    rw [hnum (by omega) h4'.1] at h5
    have h5' := (Task.within_below (n := 8) (by omega) (by omega) (by omega)).1 h5
    omega
  · rintro ⟨hlow, hhigh⟩
    have h1' := hsaved (by omega) hhigh
    have h3' := hinject (by omega) (by omega)
    have hsave : Region.Within ⟨t.get .esp - BitVec.ofNat 32 frameSize, frameSize⟩ t.sz :=
      (Task.within_below (by omega) le_rfl (by omega)).2 (by omega)
    refine ⟨hsave, Task.within_part hsave Reg.esp.offset_add_le, ?_, ?_, ?_⟩
    · exact (Task.within_below (by omega) le_rfl (by omega)).2 (by omega)
    · exact (Task.within_below (n := 4) (by omega) le_rfl (by omega)).2 (by omega)
    · rw [hnum (by omega) (by omega)]
      exact (Task.within_below (n := 8) (by omega) (by omega) (by omega)).2 (by omega)

/-- A process with a handler for signal 2 moves its stack pointer into the kernel and is
interrupted with that signal pending. -/
def kernelStack : List Ev :=
  [.step, .step, .store 101 2, .store 2052 2, .store 2056 100,
   .run (withEax (Function.update Task.initFrame .esp 2048) 23), .int .exit, .step, .step,
   .kill 2, .run (Function.update Task.initFrame .esp 0x80100000), .trap 32 0 false, .step, .step]

theorem kernelStack_written :
    ¬ ∀ m tf evs t i, exec Task.step (.userinit m tf) evs = some t → t.phase = .signals i →
      t.sig.pendingSignals ≠ 0 → (t.sig.visit i).2 = .user → ∀ r ∈ t.handlerWrites i, r.Within t.sz := by
  intro h
  have hrun : (exec Task.step (.userinit (fun _ => 0) kstackFrame) kernelStack).map
      (fun t => (t.phase, decide (t.sig.pendingSignals = 0), (t.sig.visit 2).2, (t.handlerWrites 2).head?, t.sz.val)) =
      some (.signals 2, false, .user, some ⟨0x800fffb4, 76⟩, 4096) := by decide +kernel
  obtain ⟨t, ht, he⟩ := Option.map_eq_some_iff.1 hrun
  simp only [Prod.mk.injEq, decide_eq_false_iff_not] at he
  obtain ⟨hp, hpend, hv, hr, hsz⟩ := he
  have hin := h _ _ _ t 2 ht hp hpend hv _ (List.mem_of_mem_head? hr) 0 (by decide)
  rw [hsz] at hin
  exact absurd hin (by decide)

end Xv6
