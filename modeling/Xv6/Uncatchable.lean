import Xv6.Killed
import Xv6.Pending
import Xv6.Pids
/-!
# `SIGKILL` and `SIGSTOP`

`sys_sigaction` refuses the two signals, and every other store to a handler table
keeps their entries `SIG_DFL`. So `kill` never takes them for ignored, and
`handle_signals`, which does not ask for the mask or `SIG_IGN` of either, always
acts on them.
-/

namespace Xv6

open Runs

variable {C : Type} {s s' : Kernel C} {c : C} {a : Act} {p q r : Slot} {i : Sig} {l : C × Act} {pid : Int}

/-! ## The handler tables -/

/-- The two signals have their default action in every slot. -/
def Kernel.Default (s : Kernel C) : Prop :=
  ∀ p, (s.sig p).signalHandler SIGKILL = SIG_DFL ∧ (s.sig p).signalHandler SIGSTOP = SIG_DFL

theorem Kernel.Default.handler (h : s.Default) (hi : i = SIGKILL ∨ i = SIGSTOP) (p : Slot) :
    (s.sig p).signalHandler i = SIG_DFL := by
  rcases hi with rfl | rfl
  exacts [(h p).1, (h p).2]

/-- `fork` makes the process in slot `p` anew. -/
def Kernel.Renews (s : Kernel C) (l : C × Act) (p : Slot) : Prop :=
  ∃ r, s.cpu l.1 = .running r ∧ s.pc r = .base (.fork p .context)

section

variable [DecidableEq C]

theorem Kernel.Default.preserved (h : s.Default) (hs : step s (c, a) = some s') : s'.Default := by
  intro q
  rcases step_sig hs q with hsame | ⟨f, hr, hf⟩
  · rw [hsame]; exact h q
  rw [hf]
  cases hr with
  | signals hc hk hst =>
    rcases signals_cases hc hk hst hs hf with e | ⟨v, e⟩ | ⟨_, e⟩ | ⟨_, e⟩ | ⟨_, e⟩ | ⟨_, m, m', e⟩ <;>
      rw [← hf, e] <;> exact h q
  | sigaction _ _ hi =>
    obtain ⟨hk, hst⟩ := not_or.1 hi
    simp only [Sigs.sigaction, Ne.symm hk, Ne.symm hst, if_false]
    exact h q
  | exec =>
    obtain ⟨hk, hst⟩ := h q
    simp [Sigs.exec, hk, hst]
  | @fork r k _ fails hc hk hst =>
    cases k with
    | handlers0 => cases hst; exact ⟨rfl, rfl⟩
    | handlers => cases hst; exact h r
    | casPid => simp only [forkCode] at hst; split at hst <;> cases hst
    | publish => simp only [forkCode, cas] at hst; split at hst <;> cases hst
    | _ => cases hst <;> exact h q
  | _ => exact h q

/-! ## Sending one of them -/

/-- A thread is in `kill(pid, i)` with `n` steps to go to its store for process `p`. -/
inductive Pc.Seeks (pid : Int) (i : Sig) (p : Slot) : Nat → Pc → Prop
  | pid {j : Slot} : j ≤ p → Seeks pid i p (p.val - j.val + 4) (.kill pid i j .pid)
  | state : Seeks pid i p 3 (.kill pid i p .state)
  | handler : Seeks pid i p 2 (.kill pid i p .handler)
  | load : Seeks pid i p 1 (.kill pid i p .load)
  | store {v : BitVec 32} : Seeks pid i p 0 (.kill pid i p (.store v))

theorem Pc.Seeks.kill {n : Nat} {k : Pc} (h : k.Seeks pid i p n) : ∃ j k', k = .kill pid i j k' := by
  cases h <;> exact ⟨_, _, rfl⟩

/-- One step of `kill` towards the store. No other slot has the pid, and the signal is
not ignored. -/
theorem Pc.Seeks.next {n : Nat} (h : (s.pc r).Seeks pid i p n) (hp : Pids s) (hd : s.Default)
    (hi : i = SIGKILL ∨ i = SIGSTOP) (hpid : (s.proc p).pid = pid) (hlive : (s.state p).live)
    (hc : s.cpu c = .running r) (hsend : ¬ s.Sends (c, a) p i) (hs : step s (c, a) = some s') :
    ∃ m, n = m + 1 ∧ (s'.pc r).Seeks pid i p m := by
  obtain ⟨j, k, hk⟩ := h.kill
  have hs' := step_at hc hk rfl hs
  rw [hs', Kernel.setPc_self]
  rw [hk] at h
  cases h with
  | @pid _ hj =>
    by_cases hjp : j = p
    · subst hjp
      refine ⟨3, by omega, ?_⟩
      simp only [killCode, hpid, if_true]
      exact .state
    · -- another slot, and not the last
      have hlt : j.val < p.val := lt_of_le_of_ne (Fin.le_def.1 hj) fun e => hjp (Fin.ext e)
      have hne : (s.proc j).pid ≠ pid := by
        intro he
        exact hjp (Sum.inl.inj (hp.one _ _ _ (.slot j) (he ▸ hpid ▸ .slot p) (he ▸ hpid ▸ hp.live p hlive)))
      have hnext : nextSlot j = some ⟨j.val + 1, by omega⟩ := by simp only [nextSlot]; rw [dif_pos]
      refine ⟨p.val - (j.val + 1) + 4, by omega, ?_⟩
      simp only [killCode, killCode.next, hne, if_false, hnext]
      have hle : (⟨j.val + 1, by omega⟩ : Slot) ≤ p := Fin.le_def.2 hlt
      exact .pid hle
  | state =>
    have hne : s.state p ≠ .unused := by intro e; rw [e] at hlive; cases hlive
    refine ⟨2, rfl, ?_⟩
    simp only [killCode, ne_eq, hne, not_false_eq_true, if_true]
    exact .handler
  | handler =>
    refine ⟨1, rfl, ?_⟩
    simp only [killCode, hd.handler hi p]
    exact .load
  | load => exact ⟨0, rfl, .store⟩
  | @store v => exact absurd ⟨⟨p, i, v, .set⟩, by simp [Kernel.update, hc, hk], rfl, rfl, rfl⟩ hsend

/-- A thread keeps its place when it does not step and is not made anew. -/
theorem pc_kept (hs : step s (c, a) = some s') (hc : s.cpu c ≠ .running r) (hr : ¬ s.Renews (c, a) r) :
    s'.pc r = s.pc r := by
  rcases step_pc_ne hs hc with h | ⟨r', hc', hk, _⟩
  · exact h
  · exact absurd ⟨r', hc', hk⟩ hr

/-! ## Acting on one of them -/

/-- `handle_signals` has found signal `i` pending, with `n` steps to go to its action. -/
inductive SignalsPc.Acts (i : Sig) : Nat → SignalsPc → Prop
  | mask : Acts i 4 (.mask i)
  | ign : Acts i 3 (.ign i)
  | load : Acts i 2 (.load i)
  | store {v : BitVec 32} : Acts i 1 (.store i v)
  | act : Acts i 0 (.act i)

omit [DecidableEq C] in
/-- One step of `handle_signals` towards the action: neither the mask nor `SIG_IGN` holds
it up. -/
theorem SignalsPc.Acts.next {n : Nat} {k : SignalsPc} (h : k.Acts i n) (hi : i = SIGKILL ∨ i = SIGSTOP)
    (hk : k ≠ .act i) : ∃ m k', n = m + 1 ∧ k'.Acts i m ∧ (signalsCode s p k).2 = .base (.signals k') := by
  have hb : blockable i = false := by rcases hi with rfl | rfl <;> rfl
  cases h with
  | mask => exact ⟨3, _, rfl, .ign, by simp [signalsCode, hb]⟩
  | ign => exact ⟨2, _, rfl, .load, by simp [signalsCode, hb]⟩
  | load => exact ⟨1, _, rfl, .store, rfl⟩
  | store => exact ⟨0, _, rfl, .act, rfl⟩
  | act => exact absurd rfl hk

/-- What the results below need of a state. -/
structure Ready (s : Kernel C) : Prop where
  slots : Slots s
  pids : Pids s
  default : s.Default

theorem Ready.preserved (h : Ready s) (hs : step s (c, a) = some s') : Ready s' :=
  ⟨h.slots.preserved hs, h.pids.preserved h.slots hs, h.default.preserved hs⟩

end

end Xv6
