import Xv6.Nesting
/-!
# A fork inside a handler

`fork` copies the mask, the handlers and their masks, and the memory with the
frame that a delivery saved there. The address of that frame and the mask to go
back to are in `p->uTrapFrameBU` and `p->signalMaskBU`, which it does not copy:
when the child returns from the handler, `sigret` takes what the last process in
its slot left in the two.
-/

namespace Xv6

open Bytes Runs

namespace Task

variable {t u u' : Task} {o : Outcome}

/-! ## The return of a handler -/

/-- The memory `sigret` copies from is there. -/
def Saves (t : Task) : Prop := ∀ k, k < frameSize → t.mapped (t.uTrapFrameBU + BitVec.ofNat 32 k)

instance (t : Task) : Decidable t.Saves :=
  inferInstanceAs (Decidable (∀ k, k < frameSize → t.mapped (t.uTrapFrameBU + BitVec.ofNat 32 k)))

theorem handlerReturn_eq (h : u.handlerReturn o = some u') :
    u.phase = .user ∧ u' = if u.sig.killed then u'.halt else u.atSigret.sysSigret.trapEnd := by
  unfold handlerReturn at h
  split at h
  · obtain ⟨v, hv, h⟩ := Option.bind_eq_some_iff.1 h
    obtain ⟨w, hw, h⟩ := Option.bind_eq_some_iff.1 h
    obtain ⟨x, hx, h⟩ := Option.bind_eq_some_iff.1 h
    cases h
    obtain ⟨hp, hv⟩ := Option.ite_none_right_eq_some.1 hv
    cases hv
    obtain ⟨-, hw⟩ := Option.ite_none_right_eq_some.1 hw
    cases hw
    refine ⟨hp.1, ?_⟩
    change (if u.phase = .user then if u.sig.killed then _ else (u.atSigret.syscall o).map trapEnd else none) = _ at hx
    rw [if_pos hp.1, syscall_sigret u.atSigret_eax] at hx
    split at hx
    · cases hx
      rw [if_pos ‹_›]
      rfl
    · cases hx
      rw [if_neg ‹_›]
  · cases h

theorem trapEnd_alive (hk : t.sig.killed = false) (hp : t.phase ≠ .exited) : t.trapEnd.phase ≠ .exited := by
  unfold trapEnd handleSignals
  rw [hk]
  split
  · split
    · contradiction
    · split <;> exact nofun
  · exact hp

theorem sig_trapEnd (t : Task) : t.trapEnd.sig = t.sig := by
  unfold trapEnd handleSignals
  (repeat' split) <;> rfl

theorem frame_trapEnd (t : Task) : t.trapEnd.frame = t.frame := by
  unfold trapEnd handleSignals
  (repeat' split) <;> rfl

/-- A handler that returns through the injected code: with the frame and the mask that are
saved, if the frame is there. -/
theorem handlerReturn_restores (h : u.handlerReturn o = some u') (hk : u.sig.killed = false) :
    (u.Saves → u'.phase ≠ .exited ∧ (∀ r, u'.frame r = if r = .eax then 0 else u.atSigret.savedFrame r) ∧
        u'.sig.signalMask = u.sig.signalMaskBU) ∧
      (¬ u.Saves → u'.phase = .exited) := by
  obtain ⟨hp, he⟩ := handlerReturn_eq h
  rw [hk, if_neg Bool.false_ne_true] at he
  rw [he]
  constructor
  · intro hs
    have hret : u.atSigret.sysSigret = u.atSigret.restored := if_pos hs
    have huser : u.atSigret.restored.phase = .user := hp
    rw [hret]
    refine ⟨trapEnd_alive hk (by rw [huser]; exact nofun), fun r => ?_, congrArg Sigs.signalMask (sig_trapEnd _)⟩
    rw [frame_trapEnd]
    exact get_sigret _ r
  · intro hs
    have hhalt : u.atSigret.sysSigret = u.atSigret.halt := if_neg hs
    rw [hhalt]
    rfl

theorem handlerReturn_alive (h : u.handlerReturn o = some u') (hne : u'.phase ≠ .exited) :
    u.sig.killed = false ∧ u.Saves := by
  have hk : u.sig.killed = false := by
    obtain ⟨-, he⟩ := handlerReturn_eq h
    by_contra hk
    rw [if_pos (by simpa using hk)] at he
    exact hne (he ▸ rfl)
  refine ⟨hk, ?_⟩
  by_contra hs
  exact hne ((handlerReturn_restores h hk).2 hs)

/-! ## Both sides of a fork -/

theorem sameSave_run (h : Run Task.step Plain t u) : t.SameSave u := by
  refine h.inv (fun v => t.SameSave v) (fun v ev w hv hg hs => ?_) (SameSave.refl t)
  have hw := hg.sameSave hs
  exact ⟨hw.frame.trans hv.frame, hw.mask.trans hv.mask⟩

/-- The step that forks, on the parent's side. -/
theorem plain_fork (heax : u.regs .eax = 1) (pid : BitVec 32) : u.Plain (.int (.ret pid 0 [])) where
  step _ h := by cases h
  sigret _ _ h := by
    rw [heax] at h
    exact absurd h (by decide)
  child _ _ _ h := by cases h

/-- The child just after the fork. -/
theorem child_eq {tf : FrameAddr} {stale : Sigs} {bu : BitVec 32} (heax : u.regs .eax = 1)
    (hk : u.sig.killed = false) (hs : u.step (.int (.child tf stale bu)) = some t) :
    t.sig = u.sig.fork stale ∧ t.uTrapFrameBU = bu := by
  have hnum : (u.enter 64 0).get .eax = 1 := (get_enter u 64 0 .eax (by decide) (by decide) (by decide)).trans heax
  simp only [step, hk] at hs
  split at hs
  · obtain ⟨v, hv, rfl⟩ := Option.map_eq_some_iff.1 hs
    rw [syscall, hnum] at hv
    obtain rfl := Option.some.inj hv
    rw [sig_trapEnd]
    unfold trapEnd handleSignals
    constructor
    · split <;> rfl
    · (repeat' split) <;> rfl
  · cases hs

end Task

/-- The child starts with nothing pending and the parent's mask and handlers. When both
have run on to the return of the handler that the parent was in, without another delivery
in between, the child's `sigret` restores what the parent's does exactly if the child's
slot had the parent's `signalMaskBU`, and an address at which the same frame is found. -/
theorem fork_signals_iff {u c₀ : Task} {tf : FrameAddr} {stale : Sigs} {bu : BitVec 32} (heax : u.regs .eax = 1)
    (hk : u.sig.killed = false) (hc₀ : u.step (.int (.child tf stale bu)) = some c₀) :
    (c₀.sig.pendingSignals = 0 ∧ c₀.sig.signalMask = u.sig.signalMask ∧
        c₀.sig.signalHandler = u.sig.signalHandler ∧ c₀.sig.signalHandlerMasks = u.sig.signalHandlerMasks) ∧
      ∀ (pid : BitVec 32) (o o' : Outcome) (p₀ p p' c c' : Task), u.step (.int (.ret pid 0 [])) = some p₀ →
        Run Task.step Task.Plain p₀ p → p.handlerReturn o = some p' → p'.phase ≠ .exited →
        Run Task.step Task.Plain c₀ c → c.handlerReturn o' = some c' → c.sig.killed = false →
        ((c'.phase ≠ .exited ∧ c'.frame = p'.frame ∧ c'.sig.signalMask = p'.sig.signalMask) ↔
          stale.signalMaskBU = u.sig.signalMaskBU ∧ (∀ k, k < frameSize → c.mapped (bu + BitVec.ofNat 32 k)) ∧
            ∀ r : Reg, r ≠ .eax → load c.atSigret.mem (bu + BitVec.ofNat 32 r.offset) =
              load p.atSigret.mem (u.uTrapFrameBU + BitVec.ofNat 32 r.offset)) := by
  obtain ⟨hsig, hbu⟩ := Task.child_eq heax hk hc₀
  refine ⟨by rw [hsig]; exact ⟨rfl, rfl, rfl, rfl⟩, ?_⟩
  intro pid o o' p₀ p p' c c' hp₀ hp hp' hlive hc hc' hck
  -- what the two have saved when they return
  have hpsave : u.SameSave p := by
    have h₁ := (Task.plain_fork heax pid).sameSave hp₀
    have h₂ := Task.sameSave_run hp
    exact ⟨h₂.frame.trans h₁.frame, h₂.mask.trans h₁.mask⟩
  have hcsave := Task.sameSave_run hc
  have hcbu : c.uTrapFrameBU = bu := hcsave.frame.trans hbu
  have hcmask : c.sig.signalMaskBU = stale.signalMaskBU := by rw [hcsave.mask, hsig]; rfl
  obtain ⟨hpk, hps⟩ := Task.handlerReturn_alive hp' hlive
  obtain ⟨-, hpframe, hpmask⟩ := (Task.handlerReturn_restores hp' hpk).1 hps
  have hchild := Task.handlerReturn_restores hc' hck
  have hpword (r : Reg) : p.atSigret.savedFrame r = load p.atSigret.mem (u.uTrapFrameBU + BitVec.ofNat 32 r.offset) := by
    rw [← hpsave.frame]
    rfl
  have hcword (r : Reg) : c.atSigret.savedFrame r = load c.atSigret.mem (bu + BitVec.ofNat 32 r.offset) := by
    rw [← hcbu]
    rfl
  have hcsaves : c.Saves ↔ ∀ k, k < frameSize → c.mapped (bu + BitVec.ofNat 32 k) := by
    rw [Task.Saves, hcbu]
  rw [← hcsaves, ← hcmask, ← hpsave.mask, ← hpmask]
  constructor
  · rintro ⟨hne, hframe, hmask⟩
    obtain ⟨-, hs⟩ := Task.handlerReturn_alive hc' hne
    obtain ⟨-, hcframe, hcm⟩ := hchild.1 hs
    refine ⟨hcm.symm.trans hmask, hs, fun r hr => ?_⟩
    have := congrFun hframe r
    rw [hcframe, hpframe, if_neg hr, if_neg hr, hcword, hpword] at this
    exact this
  · rintro ⟨hmask, hs, hwords⟩
    obtain ⟨hne, hcframe, hcm⟩ := hchild.1 hs
    refine ⟨hne, funext fun r => ?_, hcm.trans hmask⟩
    rw [hcframe, hpframe]
    split
    · rfl
    · rename_i hr
      rw [hcword, hpword, hwords r hr]

/-! ## A child that loses its way -/

/-- A fork: the caller, the two processes just after it, where they come to the `ret` of
the handler, and what they return to. -/
structure HandlerFork where
  u : Task
  p₀ : Task
  p : Task
  p' : Task
  c₀ : Task
  c : Task
  c' : Task

/-- The step calls no handler. -/
def noDelivery (t : Task) : Ev → Bool
  | .step => !t.delivers .step
  | _ => false

theorem noDelivery_plain {t : Task} {ev : Ev} (h : noDelivery t ev) : t.Plain ev := by
  cases ev with
  | step =>
    refine ⟨fun i _ hd => ?_, fun _ h => (by cases h), fun _ _ _ h => by cases h⟩
    simp [noDelivery, Task.delivers, hd.1, hd.2] at h
  | _ => cases h

/-- The process of `signalled` forks in its handler, into a slot that holds `stale` and
`bu`; then both return from the handler. -/
def forksInHandler (stale : Sigs) (bu : BitVec 32) : Option HandlerFork := do
  let t ← exec Task.step (signalled 0) [.step, .step]
  let u ← t.step (.run (Function.update t.regs .eax 1))
  let p₀ ← u.step (.int (.ret 7 0 []))
  let p ← exec (checked Task.step noDelivery) p₀ [.step, .step]
  let p' ← p.handlerReturn .exit
  let c₀ ← u.step (.int (.child kstackFrame stale bu))
  let c ← exec (checked Task.step noDelivery) c₀ [.step, .step]
  let c' ← c.handlerReturn .exit
  return ⟨u, p₀, p, p', c₀, c, c'⟩

structure HandlerFork.Spec (x : HandlerFork) (stale : Sigs) (bu : BitVec 32) : Prop where
  parent : x.u.step (.int (.ret 7 0 [])) = some x.p₀
  parentRun : Run Task.step Task.Plain x.p₀ x.p
  parentReturn : x.p.handlerReturn .exit = some x.p'
  child : x.u.step (.int (.child kstackFrame stale bu)) = some x.c₀
  childRun : Run Task.step Task.Plain x.c₀ x.c
  childReturn : x.c.handlerReturn .exit = some x.c'

theorem forksInHandler_spec {x : HandlerFork} {stale : Sigs} {bu : BitVec 32} (h : forksInHandler stale bu = some x) : x.Spec stale bu := by
  simp only [forksInHandler, Option.bind_eq_bind, Option.bind_eq_some_iff] at h
  obtain ⟨t, -, u, -, p₀, hp₀, p, hp, p', hp', c₀, hc₀, c, hc, c', hc', h⟩ := h
  obtain rfl := Option.some.inj h
  exact ⟨hp₀, run_of_checked (fun _ _ => noDelivery_plain) hp, hp', hc₀,
    run_of_checked (fun _ _ => noDelivery_plain) hc, hc'⟩

/-- In a slot that was never used the child's `sigret` takes the words at address 0 for
the frame. -/
theorem fresh_slot_loses_frame :
    ¬ ∀ (u c₀ p₀ p p' c c' : Task) (tf : FrameAddr) (stale : Sigs) (bu pid : BitVec 32) (o o' : Outcome),
      u.regs .eax = 1 → u.sig.killed = false → u.step (.int (.child tf stale bu)) = some c₀ →
      u.step (.int (.ret pid 0 [])) = some p₀ → Run Task.step Task.Plain p₀ p → p.handlerReturn o = some p' →
      p'.phase ≠ .exited → Run Task.step Task.Plain c₀ c → c.handlerReturn o' = some c' → c.sig.killed = false →
      c'.frame = p'.frame ∧ c'.sig.signalMask = p'.sig.signalMask := by
  intro h
  have hrun : (forksInHandler .zero 0).map (fun x => decide (x.u.regs .eax = 1 ∧ x.u.sig.killed = false ∧
      x.p'.phase ≠ .exited ∧ x.c.sig.killed = false ∧ x.c'.frame .esp ≠ x.p'.frame .esp)) = some true := by
    decide +kernel
  obtain ⟨x, hx, he⟩ := Option.map_eq_some_iff.1 hrun
  obtain ⟨heax, hk, hlive, hck, hesp⟩ := of_decide_eq_true he
  have hs := forksInHandler_spec hx
  have hsame := (h _ _ _ _ _ _ _ _ _ _ _ _ _ heax hk hs.child hs.parent hs.parentRun hs.parentReturn hlive
    hs.childRun hs.childReturn hck).1
  exact hesp (congrFun hsame .esp)

/-- A slot whose last process was interrupted at the same stack pointer, with the same mask. -/
theorem lucky_slot_keeps_frame : ∃ x : HandlerFork, forksInHandler .zero 1972 = some x ∧ x.c'.phase ≠ .exited ∧
    x.c'.frame = x.p'.frame ∧ x.c'.sig.signalMask = x.p'.sig.signalMask := by
  have hrun : (forksInHandler .zero 1972).map (fun x => decide ((x.u.regs .eax = 1 ∧ x.u.sig.killed = false ∧
      x.p'.phase ≠ .exited ∧ x.c.sig.killed = false) ∧ x.u.sig.signalMaskBU = 0 ∧ x.u.uTrapFrameBU = 1972 ∧
      (∀ k, k < frameSize → x.c.mapped (1972 + BitVec.ofNat 32 k)) ∧
      ∀ i, i < 19 → load x.c.atSigret.mem (1972 + BitVec.ofNat 32 (4 * i)) =
        load x.p.atSigret.mem (1972 + BitVec.ofNat 32 (4 * i)))) = some true := by
    decide +kernel
  obtain ⟨x, hx, he⟩ := Option.map_eq_some_iff.1 hrun
  obtain ⟨⟨heax, hk, hlive, hck⟩, hmask, hbu, hmap, hwords⟩ := of_decide_eq_true he
  have hs := forksInHandler_spec hx
  have hiff := (fork_signals_iff heax hk hs.child).2 7 .exit .exit x.p₀ x.p x.p' x.c x.c' hs.parent hs.parentRun
    hs.parentReturn hlive hs.childRun hs.childReturn hck
  rw [hbu, hmask] at hiff
  refine ⟨x, hx, hiff.2 ⟨rfl, hmap, fun r _ => ?_⟩⟩
  exact hwords r.index (by have := r.offset_add_le; unfold Reg.offset frameSize at this; omega)

end Xv6
