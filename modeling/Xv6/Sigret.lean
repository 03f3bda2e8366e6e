import Xv6.Lib.Runs
import Xv6.Trap.Frames
/-!
# Handlers and their return

`handle_signals` saves the interrupted frame on the user's stack and calls the
handler; the handler returns into the code injected there, which calls
`sigret`. What brings the frame back is `p->uTrapFrameBU` and
`p->signalMaskBU`, of which a process has one each.

A round trip restores everything but `eax`, which `syscall` overwrites with
`sigret`'s result. Nested handlers unwind only as far as the innermost: the
delivery of a second signal overwrites what the first one saved.
-/

namespace Xv6

open Bytes Runs

/-- The next round of `handle_signals` calls the handler of signal `i`. -/
def Task.Delivers (t : Task) (i : Sig) : Prop := t.phase = .signals i ∧ (t.sig.visit i).2 = .user

/-- A step that is neither the call of a handler nor a `sigret`, of the process
itself and not of its child. -/
structure Task.Plain (t : Task) (ev : Ev) : Prop where
  step : ∀ i, ev = .step → ¬ t.Delivers i
  sigret : ∀ o, ev = .int o → t.regs .eax ≠ 24
  child : ∀ tf stale bu, ev ≠ .int (.child tf stale bu)

/-! ## What a plain step keeps -/

/-- `t'` has the frame pointer and the mask that `t` has saved. -/
structure Task.SameSave (t t' : Task) : Prop where
  frame : t'.uTrapFrameBU = t.uTrapFrameBU
  mask : t'.sig.signalMaskBU = t.sig.signalMaskBU

/-- What the call of a handler does to the signal fields. -/
theorem Sigs.visit_user {g : Sigs} {i : Sig} (h : (g.visit i).2 = .user) :
    g.pending i ∧ (g.visit i).1.signalMaskBU = g.signalMask ∧ (g.visit i).1.signalHandler = g.signalHandler := by
  simp only [Sigs.visit] at h ⊢
  split at h
  · cases h
  · rename_i hp
    rw [if_neg hp]
    split at h
    · cases h
    · rename_i h1
      rw [if_neg h1]
      split at h
      · cases h
      · rename_i h2
        rw [if_neg h2]
        split at h <;> cases h
        exact ⟨not_not.1 hp, rfl, rfl⟩

theorem Sigs.visit_cases (g : Sigs) (i : Sig) :
    (g.visit i).2 = .user ∨
      ((g.visit i).1.signalMask = g.signalMask ∧ (g.visit i).1.signalMaskBU = g.signalMaskBU) := by
  simp only [Sigs.visit]
  repeat' split
  all_goals first | exact .inr ⟨rfl, rfl⟩ | exact .inl rfl

namespace Task

variable {t t' : Task}

namespace SameSave

theorem refl (t : Task) : t.SameSave t := ⟨rfl, rfl⟩

theorem access {a : BitVec 32} {n : Nat} (h : t.SameSave t') : t.SameSave (t.access a n t') := by
  rcases t.access_cases t' a n with he | he <;> rw [he]
  · exact h
  · exact ⟨rfl, rfl⟩

theorem set {r : Reg} {v : BitVec 32} (h : t.SameSave t') : t.SameSave (t'.set r v) := ⟨h.frame, h.mask⟩

theorem phase {p : Phase} (h : t.SameSave t') : t.SameSave { t' with phase := p } := ⟨h.frame, h.mask⟩

theorem handleSignals (h : t.SameSave t') : t.SameSave t'.handleSignals := by
  unfold Task.handleSignals
  split <;> exact h.phase

theorem trapEnd (h : t.SameSave t') : t.SameSave t'.trapEnd := by
  unfold Task.trapEnd
  split
  · split
    · exact h.phase
    · exact h.handleSignals
  · exact h

theorem signalsNext {i : Sig} (h : t.SameSave t') : t.SameSave (t'.signalsNext i) := by
  unfold Task.signalsNext
  split <;> exact h.phase

end SameSave

theorem sameSave_storeOldact (t : Task) (i : Sig) (a : BitVec 32) : t.SameSave (t.storeOldact i a) := by
  unfold storeOldact
  split <;> exact ⟨rfl, rfl⟩

theorem sameSave_sysSigaction (t : Task) : t.SameSave t.sysSigaction := by
  have fail : t.SameSave (t.set .eax (-1)) := (SameSave.refl t).set
  unfold sysSigaction
  split
  · exact fail
  · rename_i oldact _
    refine SameSave.set (SameSave.access (SameSave.access ?_))
    have h := t.sameSave_storeOldact
    exact ⟨(h _ oldact).frame, (h _ oldact).mask⟩

theorem sameSave_syscall {o : Outcome} (ho : ∀ tf stale bu, o ≠ .child tf stale bu) (hr : t.get .eax ≠ 24)
    (hs : t.syscall o = some t') : t.SameSave t' := by
  have fail : t.SameSave (t.set .eax (-1)) := (SameSave.refl t).set
  unfold syscall at hs
  split at hs
  · cases hs; exact fail
  · cases hs
    unfold sysSigprocmask
    split <;> exact ⟨rfl, rfl⟩
  · cases hs; exact t.sameSave_sysSigaction
  · rename_i hn
    exact absurd (BitVec.eq_of_toNat_eq hn) hr
  · split at hs
    · cases o with
      | child tf stale bu => exact absurd rfl (ho tf stale bu)
      | _ => simp only [sysOther] at hs; split at hs <;> cases hs; exact ⟨rfl, rfl⟩
    · cases hs; exact fail

theorem sameSave_signalsRound {i : Sig} (hn : (t.sig.visit i).2 ≠ .user) : t.SameSave (t.signalsRound i) := by
  have hv : t.SameSave { t with sig := (t.sig.visit i).1 } :=
    ⟨rfl, ((t.sig.visit_cases i).resolve_left hn).2⟩
  unfold signalsRound
  split
  · exact ⟨rfl, rfl⟩
  · split
    · exact hv.signalsNext
    · exact hv.phase
    · rename_i h
      exact absurd h hn

/-- What is saved changes on the call of a handler only. -/
theorem Plain.sameSave {ev : Ev} (h : t.Plain ev) (hs : t.step ev = some t') : t.SameSave t' := by
  cases ev with
  | run f => simp only [Task.step] at hs; split at hs <;> cases hs; exact ⟨rfl, rfl⟩
  | store a b => simp only [Task.step] at hs; split at hs <;> cases hs; exact ⟨rfl, rfl⟩
  | int o =>
    simp only [Task.step] at hs
    split at hs
    · split at hs
      · cases hs; exact ⟨rfl, rfl⟩
      · obtain ⟨u, hu, rfl⟩ := Option.map_eq_some_iff.1 hs
        have := sameSave_syscall (t := t.enter 64 0) (fun tf stale bu he => h.child tf stale bu (he ▸ rfl)) ?_ hu
        · exact SameSave.trapEnd ⟨this.frame, this.mask⟩
        · rw [get_enter _ _ _ _ (by decide) (by decide) (by decide)]
          exact h.sigret o rfl
    · cases hs
  | trap n e fault =>
    simp only [Task.step] at hs
    split at hs <;> cases hs
    exact SameSave.trapEnd ⟨rfl, rfl⟩
  | kill i => cases hs; exact ⟨rfl, rfl⟩
  | cont j => simp only [Task.step] at hs; split at hs <;> cases hs; exact ⟨rfl, rfl⟩
  | step =>
    simp only [Task.step] at hs
    cases hp : t.phase <;> simp only [hp] at hs
    case signals i =>
      cases hs
      exact sameSave_signalsRound fun hv => h.step i rfl ⟨hp, hv⟩
    case stopped i =>
      split at hs <;> cases hs
      exact (SameSave.refl t).signalsNext
    case trapret => cases hs; exact ⟨rfl, rfl⟩
    all_goals cases hs

/-! ## One signal -/

/-- Where the call of a handler at stack pointer `e` leaves what its return
needs: the saved frame, the injected code and the return address. -/
def Reserved (e x : BitVec 32) : Prop :=
  x.toNat < e.toNat ∧ (e.toNat ≤ x.toNat + (frameSize + sigretCode.length) ∨
    (e.toNat ≤ x.toNat + handlerRoom ∧ x.toNat + handlerRoom < e.toNat + 4))

/-- `handle_signals` is about to call the handler of signal `i`, for a frame of
user mode and on a stack that has room. -/
structure Interrupted (t : Task) (i : Sig) : Prop where
  delivers : t.Delivers i
  user : t.get .cs &&& 3 = DPL_USER
  vm : t.get .eflags &&& FL_VM = 0
  room : handlerRoom ≤ (t.get .esp).toNat
  fits : (t.get .esp).toNat ≤ t.sz.val.toNat

/-- A step of the handler that was called at stack pointer `e`. -/
structure Handling (t : Task) (e : BitVec 32) (ev : Ev) : Prop extends t.Plain ev where
  mem : ∀ t', t.step ev = some t' → ∀ x, Reserved e x → t'.mem x = t.mem x

/-- The handler that was called at stack pointer `e` is at its `ret`. -/
structure Returning (t : Task) (e : BitVec 32) : Prop where
  user : t.phase = .user
  esp : t.regs .esp = e - BitVec.ofNat 32 handlerRoom
  alive : t.sig.killed = false
  fits : e.toNat ≤ t.sz.val.toNat

/-- The registers after `ret`. -/
def afterRet (t : Task) : Frame :=
  Function.update (Function.update t.regs .eip (load t.mem (t.regs .esp))) .esp (t.regs .esp + 4)

/-- The registers at the `int` of the injected code, run from its start. -/
def afterCode (f : Frame) : Frame :=
  Function.update (Function.update f .eax 24) .eip (f .eip + BitVec.ofNat 32 sigretCode.length)

/-- `ret` leads to the injected code, which calls `sigret`. -/
def handlerReturn (t : Task) (o : Outcome) : Option Task :=
  if ∀ k, k < sigretCode.length → t.mem (t.afterRet .eip + BitVec.ofNat 32 k) = sigretCode.getD k 0 then
    exec Task.step t [.run t.afterRet, .run (afterCode t.afterRet), .int o]
  else none

/-- A step of `handle_signals` that calls no handler. -/
structure InSignals (t : Task) (ev : Ev) : Prop where
  phase : t.phase ≠ .trapret
  step : ∀ i, ev = .step → ¬ t.Delivers i

theorem le_PGROUNDUP (n : Nat) : n ≤ PGROUNDUP n := by
  unfold PGROUNDUP PGSIZE
  omega

/-- The handler of signal `i` has been called. -/
def called (t : Task) (i : Sig) : Task := { t with sig := (t.sig.visit i).1 }.callHandler i

theorem called_uTrapFrameBU (t : Task) (i : Sig) :
    (t.called i).uTrapFrameBU = t.get .esp - BitVec.ofNat 32 frameSize :=
  callHandler_uTrapFrameBU { t with sig := (t.sig.visit i).1 } i

theorem room_visit (h : t.Room) (i : Sig) : { t with sig := (t.sig.visit i).1 }.Room := ⟨h.low, h.high⟩

theorem called_saved {i : Sig} (h : t.Room) (r : Reg) :
    load (t.called i).mem (t.get .esp - BitVec.ofNat 32 frameSize + BitVec.ofNat 32 r.offset) = t.get r :=
  (room_visit h i).callHandler_saved i r

theorem signalsRound_user {i : Sig} (hv : (t.sig.visit i).2 = .user) : t.signalsRound i =
    t.access (t.get .esp - BitVec.ofNat 32 handlerRoom) handlerRoom { t.called i with phase := .trapret } := by
  have hne : t.sig.pendingSignals ≠ 0 := fun h0 => (Sigs.visit_user hv).1 (by rw [h0]; exact BitVec.zero_and)
  rw [signalsRound, if_neg hne]
  simp only [hv]
  rfl

namespace Interrupted

variable {i : Sig} (h : t.Interrupted i)
include h

theorem toRoom : t.Room := ⟨h.room, h.fits.trans t.sz.le⟩

theorem round : t.signalsRound i = { t.called i with phase := .trapret } := by
  have hto := toNat_sub_ofNat h.room
  have hsz := le_PGROUNDUP t.sz.val.toNat
  have hfits := h.fits
  have hroom := h.room
  rw [signalsRound_user h.delivers.2, access]
  refine if_pos fun k hk => .inl ?_
  have := (t.get .esp).isLt
  rw [toNat_add_ofNat (by omega)]
  omega

theorem enters {t₁ : Task} (h₁ : exec Task.step t [.step, .step] = some t₁) :
    t₁ = { t.called i with phase := .trapret }.pop := by
  have hstep : t.step .step = some { t.called i with phase := .trapret } := by
    simp only [Task.step, h.delivers.1, h.round]
  simp only [exec, hstep, Option.bind_some] at h₁
  exact (Option.some.inj h₁).symm

end Interrupted

/-- In `u`, what the handler called at stack pointer `e` needs to return to `t` is
in place. -/
structure Intact (u : Task) (e : BitVec 32) (t : Task) : Prop where
  room : handlerRoom ≤ e.toNat
  bu : u.uTrapFrameBU = e - BitVec.ofNat 32 frameSize
  mask : u.sig.signalMaskBU = t.sig.signalMask
  saved : ∀ r : Reg, load u.mem (e - BitVec.ofNat 32 frameSize + BitVec.ofNat 32 r.offset) = t.get r
  code : ∀ k, k < sigretCode.length →
    u.mem (e - BitVec.ofNat 32 (frameSize + sigretCode.length) + BitVec.ofNat 32 k) = sigretCode.getD k 0
  ret : load u.mem (e - BitVec.ofNat 32 handlerRoom) = e - BitVec.ofNat 32 (frameSize + sigretCode.length)

theorem Interrupted.intact {i : Sig} {t₁ : Task} (h : t.Interrupted i)
    (h₁ : exec Task.step t [.step, .step] = some t₁) : t₁.Intact (t.get .esp) t := by
  obtain rfl := h.enters h₁
  exact
    { room := h.room
      bu := t.called_uTrapFrameBU i
      mask := (Sigs.visit_user h.delivers.2).2.1
      saved := called_saved h.toRoom
      code := fun k hk => (room_visit h.toRoom i).callHandler_code i hk
      ret := (room_visit h.toRoom i).callHandler_ret i }

theorem toNat_sub_add {e : BitVec 32} {j k : Nat} (hj : j ≤ e.toNat) (hk : k < j) :
    (e - BitVec.ofNat 32 j + BitVec.ofNat 32 k).toNat = e.toNat - j + k := by
  have := e.isLt
  have hto := toNat_sub_ofNat hj
  rw [toNat_add_ofNat (by omega), hto]

/-- A step of the handler leaves what its return needs. -/
theorem Intact.preserved {e : BitVec 32} {u u' : Task} {ev : Ev} (hu : u.Intact e t) (h : u.Handling e ev)
    (hs : u.step ev = some u') : u'.Intact e t := by
  have hsave := h.toPlain.sameSave hs
  have hroom : frameSize + sigretCode.length + 8 ≤ e.toNat := hu.room
  have kept (j k : Nat) (hj : j ≤ e.toNat) (hk : k < j)
      (hx : j ≤ frameSize + sigretCode.length + k ∨ (j = handlerRoom ∧ k < 4)) :
      u'.mem (e - BitVec.ofNat 32 j + BitVec.ofNat 32 k) = u.mem (e - BitVec.ofNat 32 j + BitVec.ofNat 32 k) := by
    refine h.mem u' hs _ ?_
    rw [Reserved, toNat_sub_add hj hk]
    omega
  refine ⟨hu.room, hsave.frame.trans hu.bu, hsave.mask.trans hu.mask, fun r => ?_, fun k hk => ?_, ?_⟩
  · rw [← hu.saved r]
    refine load_congr fun k hk => ?_
    have := r.offset_add_le
    rw [BitVec.add_assoc, ← BitVec.ofNat_add]
    exact kept _ _ (by omega) (by omega) (by omega)
  · rw [← hu.code k hk]
    exact kept _ _ (by omega) (by omega) (by omega)
  · rw [← hu.ret]
    exact load_congr fun k hk => kept _ _ hu.room (hk.trans_le (by decide)) (.inr ⟨rfl, hk⟩)

theorem runs_of_eq {f f' : Frame} (hcs : f' .cs = f .cs) (hfl : f' .eflags = f .eflags) : f.Runs f' := by
  refine ⟨by rw [Frame.cs, Frame.cs, hcs], by rw [hfl], .inr (by rw [hfl])⟩

/-- The registers with which the injected code calls `sigret`. -/
def atSigret (u : Task) : Task := { u with regs := afterCode u.afterRet }.enter 64 0

theorem atSigret_eax (u : Task) : u.atSigret.get .eax = 24 :=
  get_enter _ 64 0 .eax (by decide) (by decide) (by decide)

theorem syscall_sigret {o : Outcome} (h : t.get .eax = 24) : t.syscall o = some t.sysSigret := by
  rw [syscall, h]
  rfl

theorem Intact.get_saved {u : Task} {e : BitVec 32} (hu : u.Intact e t) (hr : u.Returning e) (r : Reg) :
    u.atSigret.savedFrame r = t.get r := by
  have hroom : frameSize + sigretCode.length + 8 ≤ e.toNat := hu.room
  have hsz := hr.fits.trans u.sz.le
  have hoff := r.offset_add_le
  rw [← hu.saved r, savedFrame, show u.atSigret.uTrapFrameBU = _ from hu.bu]
  refine load_congr fun k hk => enter_mem_user _ _ _ ?_
  rw [BitVec.add_assoc, ← BitVec.ofNat_add, toNat_sub_add (by omega) (by omega)]
  omega

theorem Intact.sysSigret_eq {u : Task} {e : BitVec 32} (hu : u.Intact e t) (hr : u.Returning e) :
    u.atSigret.sysSigret = u.atSigret.restored := by
  have hroom : frameSize + sigretCode.length + 8 ≤ e.toNat := hu.room
  refine if_pos fun k hk => .inl ?_
  have hsz := hr.fits.trans (le_PGROUNDUP u.sz.val.toNat)
  rw [show u.atSigret.uTrapFrameBU = _ from hu.bu, toNat_sub_add (by omega) hk]
  exact lt_of_lt_of_le (by omega) hsz

/-- The handler's return leads through `sigret` back to `handle_signals`, with the
frame restored except for `eax`. -/
theorem Intact.returns {u : Task} {e : BitVec 32} (hu : u.Intact e t) (hr : u.Returning e)
    (huser : t.get .cs &&& 3 = DPL_USER) (o : Outcome) :
    ∃ t₃, u.handlerReturn o = some t₃ ∧ t₃.phase = .signals 0 ∧
      (∀ r, t₃.get r = if r = .eax then 0 else t.get r) ∧ t₃.sig.signalMask = t.sig.signalMask := by
  have hget (r : Reg) : u.atSigret.restored.get r = if r = .eax then 0 else t.get r := by
    rw [get_sigret, hu.get_saved hr]
  have heip : u.afterRet .eip = e - BitVec.ofNat 32 (frameSize + sigretCode.length) := by
    simp [afterRet, hr.esp, hu.ret]
  have hend : u.atSigret.restored.trapEnd = { u.atSigret.restored with phase := .signals 0 } := by
    have hcs : ¬ (u.atSigret.restored.get .cs &&& 3 ≠ DPL_USER ∨ u.atSigret.restored.sig.killed = true) := by
      rw [hget, if_neg (by decide), show u.atSigret.restored.sig.killed = u.sig.killed from rfl, hr.alive]
      rintro (hne | hk)
      exacts [hne huser, Bool.false_ne_true hk]
    rw [trapEnd, if_pos (show u.atSigret.restored.phase = .user from hr.user), if_neg (fun h => hcs (.inr h)),
      handleSignals, if_neg hcs]
  have hrun₁ : u.step (.run u.afterRet) = some { u with regs := u.afterRet } :=
    if_pos ⟨hr.user, runs_of_eq (by simp [afterRet]) (by simp [afterRet])⟩
  have hrun₂ : { u with regs := u.afterRet }.step (.run (afterCode u.afterRet)) =
      some { u with regs := afterCode u.afterRet } :=
    if_pos ⟨hr.user, runs_of_eq (by simp [afterCode]) (by simp [afterCode])⟩
  have hint : { u with regs := afterCode u.afterRet }.step (.int o) =
      some { u.atSigret.restored with phase := .signals 0 } := by
    change (if u.phase = .user then if u.sig.killed then _ else (u.atSigret.syscall o).map trapEnd else none) = _
    rw [if_pos hr.user, hr.alive, if_neg Bool.false_ne_true, syscall_sigret u.atSigret_eax, hu.sysSigret_eq hr,
      Option.map_some, hend]
  refine ⟨{ u.atSigret.restored with phase := .signals 0 }, ?_, rfl, hget, hu.mask⟩
  rw [handlerReturn, heip, if_pos hu.code]
  simp only [exec, hrun₁, hrun₂, hint, Option.bind_some]

/-- `handle_signals` leaves the frame and the mask unless it calls a handler. -/
structure SameFrame (t t' : Task) : Prop where
  phase : t'.phase ≠ .user
  get : ∀ r, t'.get r = t.get r
  mask : t'.sig.signalMask = t.sig.signalMask

theorem SameFrame.signalsNext {u : Task} (h : t.SameFrame u) (i : Sig) : t.SameFrame (u.signalsNext i) := by
  unfold Task.signalsNext
  split <;> exact ⟨by simp, h.get, h.mask⟩

theorem InSignals.sameFrame {u u' : Task} {ev : Ev} (hg : u.InSignals ev) (h : t.SameFrame u)
    (hs : u.step ev = some u') : t.SameFrame u' := by
  have hp := h.phase
  cases ev with
  | run | store | int | trap => simp only [Task.step, hp, false_and, if_false] at hs; cases hs
  | kill => cases hs; exact ⟨hp, h.get, h.mask⟩
  | cont => simp only [Task.step] at hs; split at hs <;> cases hs; exact ⟨hp, h.get, h.mask⟩
  | step =>
    simp only [Task.step] at hs
    cases hph : u.phase <;> simp only [hph] at hs
    case signals i =>
      cases hs
      have hn : (u.sig.visit i).2 ≠ .user := fun hv => hg.step i rfl ⟨hph, hv⟩
      have hv : t.SameFrame { u with sig := (u.sig.visit i).1 } :=
        ⟨hp, h.get, ((u.sig.visit_cases i).resolve_left hn).1.trans h.mask⟩
      unfold signalsRound
      split
      · exact ⟨by simp, h.get, h.mask⟩
      · split
        · exact hv.signalsNext i
        · exact ⟨by simp, hv.get, hv.mask⟩
        · exact absurd ‹_› hn
    case stopped i =>
      split at hs <;> cases hs
      exact h.signalsNext i
    case trapret => exact absurd hph hg.phase
    all_goals cases hs

end Task

/-- A round trip: signal `i` is delivered to `t`, its handler runs to its `ret`
and returns through the injected code. The process comes back to the end of
`trapret` with the frame and the mask that were interrupted exactly when `eax`
was 0. -/
theorem roundTrip_iff_eax {t t₁ t₂ : Task} {i : Sig} (hi : t.Interrupted i)
    (h₁ : exec Task.step t [.step, .step] = some t₁)
    (h₂ : Run Task.step (fun u => u.Handling (t.get .esp)) t₁ t₂) (hr : t₂.Returning (t.get .esp)) (o : Outcome) :
    ∃ t₃, t₂.handlerReturn o = some t₃ ∧ t₃.phase = .signals 0 ∧
      ∀ t₄, Run Task.step Task.InSignals t₃ t₄ → t₄.phase = .trapret →
        (t₄.frame = t.frame ∧ t₄.sig.signalMask = t.sig.signalMask ↔ t.get .eax = 0) := by
  have hu : t₂.Intact (t.get .esp) t :=
    h₂.inv (fun u : Task => u.Intact (t.get .esp) t) (fun _ _ _ hu hg hs => hu.preserved hg hs) (hi.intact h₁)
  obtain ⟨t₃, h₃, hp₃, hget, hmask⟩ := hu.returns hr hi.user o
  refine ⟨t₃, h₃, hp₃, fun t₄ h₄ _ => ?_⟩
  have hs : t₃.SameFrame t₄ :=
    h₄.inv (fun u : Task => t₃.SameFrame u) (fun _ _ _ hu hg hs => hg.sameFrame hu hs)
      ⟨by simp [hp₃], fun _ => rfl, rfl⟩
  have hframe (r : Reg) : t₄.frame r = if r = .eax then 0 else t.frame r := (hs.get r).trans (hget r)
  constructor
  · rintro ⟨he, _⟩
    have := hframe .eax
    rw [he, if_pos rfl] at this
    exact this
  · intro h0
    refine ⟨funext fun r => ?_, hs.mask.trans hmask⟩
    rw [hframe]
    split
    · rename_i hr; subst hr; exact h0.symm
    · rfl

/-- Handlers for signals 2 and 3. -/
def twoHandlers : Sigs :=
  { Sigs.zero with signalHandler := fun i => if i = 2 then 512 else if i = 3 then 768 else SIG_DFL }

def interruptedFrame (eax : BitVec 32) : Frame :=
  withEax (Function.update (Function.update Task.initFrame .eip 64) .esp 2048) eax

/-- A process at 64 with its stack at 2048, about to be interrupted by signal 2. -/
def signalled (eax : BitVec 32) : Task where
  mem := write (fun _ => 0) kstackFrame.addr frameSize (interruptedFrame eax).byte
  regs := interruptedFrame eax
  tf := kstackFrame
  sz := ⟨BitVec.ofNat 32 PGSIZE, PGSIZE_le⟩
  sig := { twoHandlers with pendingSignals := bit 2 }
  uTrapFrameBU := 0
  phase := .signals 2

theorem signalled_get (eax : BitVec 32) (r : Reg) : (signalled eax).get r = interruptedFrame eax r :=
  load_frame (fun _ => 0) kstackFrame.addr (interruptedFrame eax) r

theorem signalled_interrupted (eax : BitVec 32) : (signalled eax).Interrupted 2 := by
  have hv : (Sigs.visit { twoHandlers with pendingSignals := bit 2 } 2).2 = .user := by decide
  have hesp : (signalled eax).get .esp = 2048 := by simp [signalled_get, interruptedFrame, withEax]
  refine ⟨⟨rfl, hv⟩, ?_, ?_, ?_, ?_⟩
  · simp [signalled_get, interruptedFrame, withEax, Task.initFrame, USER_CS, DPL_USER]
  · simp [signalled_get, interruptedFrame, withEax, Task.initFrame, FL_IF, FL_VM]
  · rw [hesp]; decide
  · rw [hesp]; exact Nat.le_of_ble_eq_true rfl

theorem inSignals_of_visit {t : Task} {i : Sig} (hp : t.phase = .signals i) (hv : (t.sig.visit i).2 = .next) :
    t.InSignals .step where
  phase := by simp [hp]
  step j _ hd := by
    obtain ⟨hi, hu⟩ := hd
    rw [hp] at hi
    cases hi
    rw [hv] at hu
    cases hu

/-- The handler returns at once; `eax` was 1. -/
theorem signalled_loses_eax :
    ¬ ∀ (t t₁ t₂ t₃ t₄ : Task) (i : Sig) (o : Outcome), t.Interrupted i →
      exec Task.step t [.step, .step] = some t₁ → Run Task.step (fun u => u.Handling (t.get .esp)) t₁ t₂ →
      t₂.Returning (t.get .esp) → t₂.handlerReturn o = some t₃ → Run Task.step Task.InSignals t₃ t₄ →
      t₄.phase = .trapret → t₄.frame = t.frame ∧ t₄.sig.signalMask = t.sig.signalMask := by
  intro h
  have hrun : ((exec Task.step (signalled 1) [.step, .step]).bind fun t₁ => (t₁.handlerReturn .exit).bind fun t₃ =>
      (t₃.step .step).map fun t₄ => decide ((t₁.phase = .user ∧ t₁.regs .esp = 1957 ∧ t₁.sig.killed = false ∧
        t₁.sz.val = 4096) ∧ t₃.phase = .signals 0 ∧ (t₃.sig.visit 0).2 = .next ∧ t₄.phase = .trapret ∧
        t₄.frame .eax = 0)) = some true := by decide +kernel
  obtain ⟨t₁, h₁, hrun⟩ := Option.bind_eq_some_iff.1 hrun
  obtain ⟨t₃, h₃, hrun⟩ := Option.bind_eq_some_iff.1 hrun
  obtain ⟨t₄, h₄, he⟩ := Option.map_eq_some_iff.1 hrun
  obtain ⟨⟨hp, hesp, hk, hsz⟩, hp₃, hv, hp₄, heax⟩ := of_decide_eq_true he
  have hget : (signalled 1).get .esp = 2048 := signalled_get 1 .esp
  have hr : t₁.Returning ((signalled 1).get .esp) :=
    ⟨hp, by rw [hget, hesp]; decide, hk, by rw [hget, hsz]; decide⟩
  have := (h (signalled 1) t₁ t₁ t₃ t₄ 2 .exit (signalled_interrupted 1) h₁ (.refl _) hr h₃
    (.single (inSignals_of_visit hp₃ hv) h₄) hp₄).1
  rw [this] at heax
  exact absurd ((signalled_get 1 .eax).symm.trans heax) (by decide)

theorem handling_run (t : Task) (e : BitVec 32) (f : Frame) : t.Handling e (.run f) where
  step _ h := by cases h
  sigret _ h := by cases h
  child _ _ _ h := by cases h
  mem t' hs x _ := by
    simp only [Task.step] at hs
    split at hs <;> cases hs
    rfl

/-- The handler computes something and returns; `eax` was 0. -/
theorem signalled_returns :
    ∃ t₁ t₂ t₃ t₄, exec Task.step (signalled 0) [.step, .step] = some t₁ ∧
      t₁.step (.run (Function.update t₁.regs .ebx 7)) = some t₂ ∧ t₂.handlerReturn .exit = some t₃ ∧
      t₃.step .step = some t₄ ∧ t₄.frame = (signalled 0).frame ∧ t₄.sig.signalMask = (signalled 0).sig.signalMask := by
  have hrun : ((exec Task.step (signalled 0) [.step, .step]).bind fun t₁ =>
      (t₁.step (.run (Function.update t₁.regs .ebx 7))).bind fun t₂ => (t₂.handlerReturn .exit).bind fun t₃ =>
      (t₃.step .step).map fun t₄ => decide ((t₂.phase = .user ∧ t₂.regs .esp = 1957 ∧ t₂.sig.killed = false ∧
        t₂.sz.val = 4096) ∧ (t₃.sig.visit 0).2 = .next ∧ t₄.phase = .trapret)) = some true := by decide +kernel
  obtain ⟨t₁, h₁, hrun⟩ := Option.bind_eq_some_iff.1 hrun
  obtain ⟨t₂, h₂, hrun⟩ := Option.bind_eq_some_iff.1 hrun
  obtain ⟨t₃, h₃, hrun⟩ := Option.bind_eq_some_iff.1 hrun
  obtain ⟨t₄, h₄, he⟩ := Option.map_eq_some_iff.1 hrun
  obtain ⟨⟨hp, hesp, hk, hsz⟩, hv, hp₄⟩ := of_decide_eq_true he
  have hget : (signalled 0).get .esp = 2048 := signalled_get 0 .esp
  have hr : t₂.Returning ((signalled 0).get .esp) :=
    ⟨hp, by rw [hget, hesp]; decide, hk, by rw [hget, hsz]; decide⟩
  obtain ⟨u, hu, hpu, hiff⟩ := roundTrip_iff_eax (signalled_interrupted 0) h₁
    (.single (handling_run t₁ _ _) h₂) hr .exit
  obtain rfl : t₃ = u := Option.some.inj (h₃.symm.trans hu)
  exact ⟨t₁, t₂, t₃, t₄, h₁, h₂, h₃, h₄,
    (hiff t₄ (.single (inSignals_of_visit hpu hv) h₄) hp₄).2 (signalled_get 0 .eax)⟩

end Xv6
