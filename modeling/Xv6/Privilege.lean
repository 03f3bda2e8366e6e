import Xv6.Lib.Runs
import Xv6.Trap.Frames
/-!
# The privilege of popped frames

`trapret` pops whatever is in the trap frame. The kernel itself never changes
`cs` or `eflags` there, but `sigret` copies a whole frame from user memory, and
the call of a handler writes wherever the user's stack pointer says. A process
stays in user mode, with interrupts on, as long as every frame `sigret` copies
is sane and every handler is called on a stack in user memory (`Trusted`).
-/

namespace Xv6

open Bytes Runs

/-- The frame of a process in user mode with interrupts on, which may not turn
them off. -/
structure Frame.Sane (f : Frame) : Prop where
  cs : f.cs = USER_CS
  intr : f .eflags &&& FL_IF ≠ 0
  iopl : f .eflags &&& FL_IOPL = 0
  vm : f .eflags &&& FL_VM = 0

instance (f : Frame) : Decidable f.Sane :=
  decidable_of_iff (f.cs = USER_CS ∧ f .eflags &&& FL_IF ≠ 0 ∧ f .eflags &&& FL_IOPL = 0 ∧ f .eflags &&& FL_VM = 0)
    ⟨fun ⟨h1, h2, h3, h4⟩ => ⟨h1, h2, h3, h4⟩, fun ⟨h1, h2, h3, h4⟩ => ⟨h1, h2, h3, h4⟩⟩

/-- Whether a frame is sane depends on two of its words. -/
theorem Frame.Sane.congr {f f' : Frame} (h : f.Sane) (hcs : f' .cs = f .cs) (hfl : f' .eflags = f .eflags) :
    f'.Sane where
  cs := by rw [Frame.cs, hcs]; exact h.cs
  intr := hfl ▸ h.intr
  iopl := hfl ▸ h.iopl
  vm := hfl ▸ h.vm

/-- User code keeps its frame sane. -/
theorem Frame.Sane.runs {f f' : Frame} (h : f.Sane) (hr : f.Runs f') : f'.Sane := by
  obtain ⟨hcs, hfl, hif⟩ := hr
  have part (m : BitVec 32) (hm : (FL_IOPL ||| FL_VM) &&& m = m) : f' .eflags &&& m = f .eflags &&& m := by
    rw [← hm, ← BitVec.and_assoc, hfl, BitVec.and_assoc]
  refine ⟨hcs.trans h.cs, ?_, ?_, ?_⟩
  · rcases hif with hif | hif
    · rw [h.iopl] at hif; cases hif
    · rw [hif]; exact h.intr
  · rw [part FL_IOPL (by decide)]; exact h.iopl
  · rw [part FL_VM (by decide)]; exact h.vm

/-- A `sigret` copies a sane frame, and a handler is called on a stack in user
memory. -/
structure Task.Trusted (t : Task) (ev : Ev) : Prop where
  sigret : ∀ o, ev = .int o → t.regs .eax = 24 → (t.enter 64 0).savedFrame.Sane
  room : ∀ i, ev = .step → t.phase = .signals i → (t.sig.visit i).2 = .user → t.Room

namespace Task

variable {t t' : Task}

/-- The registers in user mode are sane, and the frame in the kernel. -/
def Confined (t : Task) : Prop :=
  match t.phase with
  | .user => t.regs.Sane
  | .signals _ | .stopped _ | .trapret => t.frame.Sane
  | .lost | .exited => True

/-! ## The kernel leaves `cs` and `eflags` -/

theorem sane_set {r : Reg} {v : BitVec 32} (h : t.frame.Sane) (hcs : Reg.cs ≠ r) (hfl : Reg.eflags ≠ r) :
    (t.set r v).frame.Sane :=
  h.congr ((t.get_set r .cs v).trans (if_neg hcs)) ((t.get_set r .eflags v).trans (if_neg hfl))

/-- A task with the same frame. -/
theorem sane_of_get (h : t.frame.Sane) (hg : ∀ r, t'.get r = t.get r) : t'.frame.Sane :=
  h.congr (hg .cs) (hg .eflags)

theorem sane_phase {p : Phase} (h : t.frame.Sane) : { t with phase := p }.frame.Sane := h

theorem sane_enter (h : t.regs.Sane) (n e : BitVec 32) : (t.enter n e).frame.Sane :=
  h.congr (t.get_enter n e .cs (by decide) (by decide) (by decide))
    (t.get_enter n e .eflags (by decide) (by decide) (by decide))

/-- A system call exits, or leaves a sane frame. -/
def Kept (t : Task) : Prop := t.phase = .exited ∨ t.frame.Sane

theorem Kept.access {a : BitVec 32} {n : Nat} (h : t'.Kept) : (t.access a n t').Kept := by
  rcases t.access_cases t' a n with he | he <;> rw [he]
  · exact h
  · exact .inl rfl

theorem Kept.set {r : Reg} {v : BitVec 32} (h : t.Kept) (hcs : Reg.cs ≠ r) (hfl : Reg.eflags ≠ r) :
    (t.set r v).Kept :=
  h.imp id fun h => sane_set h hcs hfl

theorem kept_sysSigprocmask (h : t.frame.Sane) : t.sysSigprocmask.Kept := by
  unfold sysSigprocmask
  split <;> exact .inr (sane_set (by exact h) (by decide) (by decide))

theorem kept_sysSigret (h : t.savedFrame.Sane) : t.sysSigret.Kept :=
  Kept.access <| .inr <| h.congr ((t.get_sigret .cs).trans (if_neg (by decide)))
    ((t.get_sigret .eflags).trans (if_neg (by decide)))

theorem argptr_lt {n : Nat} {size i : BitVec 32} (h : t.argptr n size = some i) : i.toNat < KERNBASE := by
  obtain ⟨j, _, hj⟩ := Option.bind_eq_some_iff.1 h
  split at hj
  · cases hj
  · rename_i hlt
    cases hj
    have := t.sz.le
    rw [not_or, not_or, BitVec.not_le, BitVec.lt_def] at hlt
    omega

theorem sigactionArgs_lt {i : Sig} {act oldact : BitVec 32} (h : t.sigactionArgs = some (i, act, oldact)) :
    oldact.toNat < KERNBASE := by
  obtain ⟨signum, _, h⟩ := Option.bind_eq_some_iff.1 h
  split at h
  · cases h
  · obtain ⟨_, _, h⟩ := Option.bind_eq_some_iff.1 h
    obtain ⟨_, ho, h⟩ := Option.bind_eq_some_iff.1 h
    cases h
    exact argptr_lt ho

/-- `sigaction` may write up to seven bytes beyond user memory, not farther. -/
theorem sane_storeOldact {i : Sig} {oldact : BitVec 32} (h : t.frame.Sane) (ho : oldact.toNat < KERNBASE) :
    (t.storeOldact i oldact).frame.Sane := by
  unfold storeOldact
  split
  · exact h
  · have h0 : UserBlock oldact 4 := by unfold UserBlock KSTACKSIZE frameSize; omega
    have h4 : UserBlock (oldact + 4) 4 := by
      have := toNat_add_ofNat (a := oldact) (k := 4) (by unfold KERNBASE at ho; omega)
      rw [UserBlock, show (4 : BitVec 32) = BitVec.ofNat 32 4 from rfl, this]
      unfold KSTACKSIZE frameSize
      omega
    exact sane_of_get h fun r => (get_poke _ _ h4 r).trans (get_poke _ _ h0 r)

theorem kept_sigaction {i : Sig} {act oldact : BitVec 32} (h : t.frame.Sane) (ho : oldact.toNat < KERNBASE) :
    (t.sigaction i act oldact).Kept :=
  Kept.access (Kept.access (.inr (sane_of_get (sane_storeOldact h ho) fun _ => rfl)))

theorem kept_sysSigaction (h : t.frame.Sane) : t.sysSigaction.Kept := by
  have fail : (t.set .eax (-1)).Kept := .inr (sane_set h (by decide) (by decide))
  unfold sysSigaction
  split
  · exact fail
  · rename_i ha
    exact (kept_sigaction h (sigactionArgs_lt ha)).set (by decide) (by decide)

theorem sane_handleSignals (h : t.frame.Sane) : t.handleSignals.frame.Sane := by
  unfold handleSignals
  split <;> exact h

theorem kept_sysOther {num : Nat} {o : Outcome} (h : t.frame.Sane) (hs : t.sysOther num o = some t') : t'.Kept := by
  have eax {t : Task} {v : BitVec 32} (h : t.frame.Sane) : (t.set .eax v).frame.Sane :=
    sane_set h (by decide) (by decide)
  cases o <;> simp only [sysOther] at hs <;> split at hs <;> cases hs
  case ret v buf bytes hbuf =>
    have hsz := t.sz.le
    exact .inr (eax (sane_of_get h (t.tf.load_write_user (userBlock_of_le (by omega)))))
  case sbrk => exact .inr (eax h)
  case exec entry sp sz image _ =>
    refine .inr (eax (sane_set (sane_set (sane_of_get h fun r => ?_) (by decide) (by decide)) (by decide) (by decide)))
    refine t.tf.load_congr r fun k hk => if_neg ?_
    have := t.tf.low
    rw [t.tf.toNat_add hk]
    unfold KSTACKSIZE frameSize at *
    omega
  case child tf stale bu _ =>
    exact .inr (sane_handleSignals (eax (sane_of_get h fun r => load_copy r.offset_add_le (by decide))))
  case exit => exact .inl rfl

theorem kept_syscall {o : Outcome} (h : t.frame.Sane) (hr : t.get .eax = 24 → t.savedFrame.Sane)
    (hs : t.syscall o = some t') : t'.Kept := by
  have fail : (t.set .eax (-1)).Kept := .inr (sane_set h (by decide) (by decide))
  unfold syscall at hs
  split at hs
  · cases hs; exact fail
  · cases hs; exact kept_sysSigprocmask h
  · cases hs; exact kept_sysSigaction h
  · cases hs
    exact kept_sysSigret (hr (BitVec.eq_of_toNat_eq ‹_›))
  · split at hs
    · exact kept_sysOther h hs
    · cases hs; exact fail

/-! ## Steps -/

theorem confined_of_sane (hp : t.phase ≠ .user) (h : t.frame.Sane) : t.Confined := by
  unfold Confined
  cases he : t.phase <;> first | exact absurd he hp | exact h | trivial

theorem confined_handleSignals (h : t.frame.Sane) : t.handleSignals.Confined := by
  refine confined_of_sane ?_ (sane_handleSignals h)
  unfold handleSignals
  split <;> simp

theorem confined_trapEnd (h : t.Kept) : t.trapEnd.Confined := by
  unfold trapEnd
  split
  · rename_i hp
    split
    · trivial
    · exact confined_handleSignals (h.resolve_left (by simp [hp]))
  · rename_i hp
    rcases h with h | h
    · simp [Confined, h]
    · exact confined_of_sane hp h

theorem confined_signalsNext {i : Sig} (h : t.frame.Sane) : (t.signalsNext i).Confined := by
  unfold signalsNext
  split <;> exact h

theorem sane_callHandler {i : Sig} (h : t.frame.Sane) (hr : t.Room) : (t.callHandler i).frame.Sane :=
  h.congr (hr.callHandler_get_ne i (by decide) (by decide)) (hr.callHandler_get_ne i (by decide) (by decide))

theorem confined_signalsRound {i : Sig} (h : t.frame.Sane) (hr : (t.sig.visit i).2 = .user → t.Room) :
    (t.signalsRound i).Confined := by
  have hsig : { t with sig := (t.sig.visit i).1 }.frame.Sane := sane_of_get h fun _ => rfl
  unfold signalsRound
  split
  · exact h
  · split
    · exact confined_signalsNext hsig
    · exact hsig
    · rename_i hv
      have hroom : { t with sig := (t.sig.visit i).1 }.Room := ⟨(hr hv).low, (hr hv).high⟩
      unfold access
      split
      · have hs := sane_callHandler (i := i) hsig hroom
        exact confined_of_sane (by simp) (sane_phase (p := .trapret) hs)
      · trivial

/-- A trusted step keeps a process confined. -/
theorem Confined.preserved {ev : Ev} (h : t.Confined) (ht : t.Trusted ev) (hs : t.step ev = some t') :
    t'.Confined := by
  cases ev with
  | run f =>
    simp only [step] at hs
    split at hs <;> cases hs
    rename_i hp
    simp only [Confined, hp.1] at h ⊢
    exact h.runs hp.2
  | store a b =>
    simp only [step] at hs
    split at hs <;> cases hs
    rename_i hp
    simpa only [Confined, hp.1] using h
  | int o =>
    simp only [step] at hs
    split at hs
    · rename_i hp
      simp only [Confined, hp] at h
      split at hs
      · cases hs; trivial
      · obtain ⟨u, hu, rfl⟩ := Option.map_eq_some_iff.1 hs
        refine confined_trapEnd (kept_syscall (sane_enter h 64 0) (fun he => ht.sigret o rfl ?_) hu)
        rwa [get_enter _ _ _ _ (by decide) (by decide) (by decide)] at he
    · cases hs
  | trap n e fault =>
    simp only [step] at hs
    split at hs <;> cases hs
    rename_i hp
    simp only [Confined, hp] at h
    exact confined_trapEnd (.inr (sane_of_get (sane_enter h n e) fun _ => rfl))
  | kill i => cases hs; exact h
  | cont j =>
    simp only [step] at hs
    split at hs <;> cases hs
    exact h
  | step =>
    simp only [step] at hs
    cases hp : t.phase <;> simp only [hp] at hs <;> simp only [Confined, hp] at h
    case signals i =>
      cases hs
      exact confined_signalsRound h (ht.room i rfl hp)
    case stopped i =>
      split at hs <;> cases hs
      exact confined_signalsNext h
    case trapret =>
      cases hs
      unfold Confined pop
      split <;> first | exact h | trivial
    all_goals cases hs

end Task

end Xv6
