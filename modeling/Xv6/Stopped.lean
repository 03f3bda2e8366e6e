import Xv6.Killed
/-!
# Stopped processes

`sh_sigstop` sets `frozen` and yields. `scheduler` skips a frozen process unless
`check_cont_sig` finds a continue signal for it, which it consumes; a pending
`SIGKILL` does not count. The test of `frozen` and the `cas` on `state` that
follows are separate accesses, and the process may stop in between.
-/

namespace Xv6

open Runs

variable {C : Type} {s s' : Kernel C} {c d : C} {a : Act} {p q r : Slot} {j : Sig}

/-! ## A scheduler's visit of a frozen process -/

/-- CPU `c` is at process `p` in the loop of `scheduler`, before its `cas`
succeeds. -/
def Kernel.Visits (s : Kernel C) (c : C) (p : Slot) : Prop :=
  s.cpu c = .sched (.frozen p) ∨ (∃ j k, s.cpu c = .sched (.cont p j k)) ∨ s.cpu c = .sched (.unfreeze p) ∨
    s.cpu c = .sched (.claim p)

section

variable [DecidableEq C]

/-- A step of CPU `c` while it visits `p`, or a step of another CPU that leaves
the entry of `p` alone. -/
def Kernel.VisitStep (c : C) (p : Slot) (s : Kernel C) (l : C × Act) : Prop :=
  s.Visits c p ∧ (l.1 ≠ c → ∀ t, step s l = some t → t.proc p = s.proc p)

/-- CPU `c` can pass over process `p`. -/
def Kernel.Skips (s : Kernel C) (c : C) (p : Slot) : Prop :=
  ∃ t, Run step (Kernel.VisitStep c p) s t ∧ t.cpu c = schedNext p

omit [DecidableEq C] in
theorem contCode_congr {t : Kernel C} (h : t.proc = s.proc) (k : ContPc) : contCode t p j k = contCode s p j k := by
  cases k <;> simp only [contCode, Kernel.sig, h]

/-- One read of `check_cont_sig`. -/
theorem cont_reads {t : Kernel C} {k : ContPc} (hr : Run step (Kernel.VisitStep c p) s t) (hp : t.proc = s.proc)
    (hc : t.cpu c = .sched (.cont p j k)) (hk : ∀ v, k ≠ .store v) :
    ∃ u, Run step (Kernel.VisitStep c p) s u ∧ u.proc = s.proc ∧ u.cpu c = (contCode s p j k).2 := by
  have hst : (contCode t p j k).1 = .skip := by cases k <;> first | rfl | exact absurd rfl (hk _)
  have hs : step t (c, .step) = some (t.setCpu c (contCode t p j k).2) := by
    simp [step, hc, schedCode, hst, Kernel.store]
  refine ⟨_, hr.tail ⟨.inr (.inl ⟨j, k, hc⟩), fun h => absurd rfl h⟩ hs, hp, ?_⟩
  rw [Kernel.setCpu_self, contCode_congr hp]

/-- `check_cont_sig` goes on to the next signal. -/
theorem skips_signal {t : Kernel C} (hr : Run step (Kernel.VisitStep c p) s t) (hp : t.proc = s.proc)
    (hc : t.cpu c = .sched (.cont p j .dfl)) (hj : ¬ (s.sig p).continues j) :
    ∃ u, Run step (Kernel.VisitStep c p) s u ∧ u.proc = s.proc ∧ u.cpu c = contCode.next p j := by
  obtain ⟨t₁, hr, hp, hc⟩ := cont_reads hr hp hc (by simp)
  generalize hd : (decide (j = SIGCONT) && decide ((s.sig p).signalHandler j = SIG_DFL)) = d
  simp only [contCode, hd] at hc
  obtain ⟨t₂, hr, hp, hc⟩ := cont_reads hr hp hc (by simp)
  by_cases hpend : (s.sig p).pending j
  · simp only [contCode, hpend, if_true] at hc
    obtain ⟨t₃, hr, hp, hc⟩ := cont_reads hr hp hc (by simp)
    by_cases hm : (s.sig p).masked j
    · exact ⟨t₃, hr, hp, by simpa only [contCode, hm, if_true] using hc⟩
    · simp only [contCode, hm, if_false] at hc
      obtain ⟨t₄, hr, hp, hc⟩ := cont_reads hr hp hc (by simp)
      have hh : ¬ ((s.sig p).signalHandler j = .ofSig SIGCONT ∨ d) := by
        intro hh
        exact hj ⟨hpend, hm, hh.imp_right fun e => by simpa [← hd] using e⟩
      exact ⟨t₄, hr, hp, by simpa only [contCode, hh, if_false] using hc⟩
  · exact ⟨t₂, hr, hp, by simpa only [contCode, hpend, if_false] using hc⟩

theorem nextSig_val {i j : Sig} (h : nextSig i = some j) : j.val = i.val + 1 := by
  unfold nextSig at h
  split at h
  · cases h; rfl
  · cases h

/-- Without a continue signal from `j` on, `check_cont_sig` returns 0. -/
theorem skips_rest (n : Nat) {t : Kernel C} (hr : Run step (Kernel.VisitStep c p) s t) (hp : t.proc = s.proc)
    (hc : t.cpu c = .sched (.cont p j .dfl)) (hn : j.val + n = 31) (hj : ∀ i, j ≤ i → ¬ (s.sig p).continues i) :
    s.Skips c p := by
  induction n generalizing j t with
  | zero =>
    obtain ⟨u, hr, hp, hc⟩ := skips_signal hr hp hc (hj j (le_refl j))
    have hnone : nextSig j = none := by unfold nextSig; split; omega; rfl
    exact ⟨u, hr, by simpa only [contCode.next, hnone] using hc⟩
  | succ n ih =>
    obtain ⟨u, hr, hp, hc⟩ := skips_signal hr hp hc (hj j (le_refl j))
    obtain ⟨j', hj'⟩ : ∃ j', nextSig j = some j' := by unfold nextSig; split; exact ⟨_, rfl⟩; omega
    have hv := nextSig_val hj'
    refine ih hr hp (by simpa only [contCode.next, hj'] using hc) (by omega) fun i hi => hj i ?_
    exact Fin.le_def.2 (by have := Fin.le_def.1 hi; omega)

/-! ## A visit that finds a continue signal -/

/-- CPU `c` visits `p`, whose signal fields were `g`, and has not passed over the
continue signals there are. -/
def Kernel.Finding (g : Sigs) (c : C) (p : Slot) (s : Kernel C) : Prop :=
  s.state p = .runnable ∧
  match s.cpu c with
  | .sched (.frozen q) => q = p ∧ s.sig p = g ∧ g.frozen = true
  | .sched (.cont q j k) => q = p ∧ s.sig p = g ∧ (∃ i, j ≤ i ∧ g.continues i) ∧
      match k with
      | .dfl | .store _ => True
      | .bit d => (d = true ↔ j = SIGCONT ∧ g.signalHandler j = SIG_DFL)
      | .mask d => (d = true ↔ j = SIGCONT ∧ g.signalHandler j = SIG_DFL) ∧ g.pending j
      | .handler d => (d = true ↔ j = SIGCONT ∧ g.signalHandler j = SIG_DFL) ∧ g.pending j ∧ ¬ g.masked j
      | .load => True
  | .sched (.unfreeze q) | .sched (.claim q) => q = p
  | _ => False

theorem Kernel.Finding.next {g : Sigs} (hr : s.state p = .runnable) (hg : s.sig p = g)
    (hi : ∃ i, j ≤ i ∧ g.continues i) (hj : ¬ g.continues j) : (s.setCpu c (contCode.next p j)).Finding g c p := by
  obtain ⟨i, hji, hi⟩ := hi
  have hlt : j < i := lt_of_le_of_ne hji (by rintro rfl; exact hj hi)
  unfold contCode.next
  cases hn : nextSig j with
  | some j' =>
    have := nextSig_val hn
    refine ⟨hr, ?_⟩
    rw [Kernel.setCpu_self]
    exact ⟨rfl, hg, ⟨i, Fin.le_def.2 (by have := Fin.lt_def.1 hlt; omega), hi⟩, trivial⟩
  | none =>
    exfalso
    unfold nextSig at hn
    split at hn
    · cases hn
    · have := i.isLt
      have := Fin.lt_def.1 hlt
      omega

theorem Kernel.Finding.cont {g : Sigs} {k : ContPc} (h : s.Finding g c p) (hc : s.cpu c = .sched (.cont p j k)) :
    ((s.store (contCode s p j k).1).setCpu c (contCode s p j k).2).Finding g c p := by
  obtain ⟨hr, h⟩ := h
  simp only [hc] at h
  obtain ⟨-, hg, hi, hk⟩ := h
  cases k with
  | dfl =>
    refine ⟨hr, ?_⟩
    rw [Kernel.setCpu_self]
    exact ⟨rfl, hg, hi, by simp [hg]⟩
  | bit d =>
    by_cases hp : g.pending j
    · have hn : (contCode s p j (.bit d)).2 = .sched (.cont p j (.mask d)) := by simp [contCode, hg, hp]
      refine ⟨hr, ?_⟩
      rw [Kernel.setCpu_self, hn]
      exact ⟨rfl, hg, hi, hk, hp⟩
    · simp only [contCode, hg, hp, if_false, Kernel.store]
      exact .next hr hg hi fun hc => hp hc.1
  | mask d =>
    by_cases hm : g.masked j
    · simp only [contCode, hg, hm, if_true, Kernel.store]
      exact .next hr hg hi fun hc => hc.2.1 hm
    · have hn : (contCode s p j (.mask d)).2 = .sched (.cont p j (.handler d)) := by simp [contCode, hg, hm]
      refine ⟨hr, ?_⟩
      rw [Kernel.setCpu_self, hn]
      exact ⟨rfl, hg, hi, hk.1, hk.2, hm⟩
  | handler d =>
    by_cases hh : g.signalHandler j = .ofSig SIGCONT ∨ d
    · have hn : (contCode s p j (.handler d)).2 = .sched (.cont p j .load) := by simp only [contCode, hg, if_pos hh]
      refine ⟨hr, ?_⟩
      rw [Kernel.setCpu_self, hn]
      exact ⟨rfl, hg, hi, trivial⟩
    · simp only [contCode, hg, hh, if_false, Kernel.store]
      exact .next hr hg hi fun hc => hh (hc.2.2.imp_right hk.1.2)
  | load =>
    refine ⟨hr, ?_⟩
    rw [Kernel.setCpu_self]
    exact ⟨rfl, hg, hi, trivial⟩
  | store v =>
    refine ⟨by simpa [contCode, Kernel.store_state] using hr, ?_⟩
    rw [Kernel.setCpu_self]
    rfl

theorem Kernel.Finding.step {g : Sigs} {l : C × Act} (h : s.Finding g c p) (hg : Kernel.VisitStep c p s l)
    (hi : ∃ i, g.continues i) (hs : step s l = some s') : s'.Finding g c p ∨ s'.cpu c = .sched (.begin p) := by
  obtain ⟨d, a⟩ := l
  by_cases hd : d = c
  · subst hd
    rcases hg.1 with hc | ⟨j, k, hc⟩ | hc | hc <;> obtain ⟨o, ho, rfl⟩ := step_sched hc hs <;>
      obtain rfl := Option.some.inj ho
    · obtain ⟨hr, h⟩ := h
      simp only [hc] at h
      obtain ⟨-, hsig, hf⟩ := h
      refine .inl ⟨hr, ?_⟩
      rw [Kernel.setCpu_self, hsig, if_pos hf]
      exact ⟨rfl, hsig, hi.imp fun i hi => ⟨Fin.zero_le i, hi⟩, trivial⟩
    · exact .inl (h.cont hc)
    · refine .inl ⟨by simpa [Kernel.store_state] using h.1, ?_⟩
      rw [Kernel.setCpu_self]
    · exact .inr (by simp [cas, h.1])
  · have hproc := hg.2 hd s' hs
    left
    unfold Kernel.Finding Kernel.state Kernel.sig at h ⊢
    rw [hproc, step_cpu_ne hs (Ne.symm hd)]
    exact h

/-- A scheduler that comes to a frozen process that is `RUNNABLE` dispatches it
exactly when a continue signal is pending for it and not masked. -/
theorem not_skips_iff (hc : s.cpu c = .sched (.frozen p)) (hr : s.state p = .runnable) (hf : (s.sig p).frozen) :
    ¬ s.Skips c p ↔ ∃ j, (s.sig p).continues j := by
  constructor
  · intro hn
    by_contra hj
    push Not at hj
    have hs : step s (c, .step) = some (s.setCpu c (.sched (.cont p 0 .dfl))) := by
      simp [step, hc, schedCode, hf, Kernel.store]
    exact hn (skips_rest 31 (.single ⟨.inl hc, fun h => absurd rfl h⟩ hs) rfl (Kernel.setCpu_self ..) rfl
      fun i _ => hj i)
  · rintro hj ⟨t, ht, hn⟩
    have hinv : t.Finding (s.sig p) c p ∨ t.cpu c = .sched (.begin p) := by
      refine ht.inv (fun t : Kernel C => t.Finding (s.sig p) c p ∨ t.cpu c = .sched (.begin p)) ?_
        (.inl ⟨hr, by rw [hc]; exact ⟨rfl, rfl, hf⟩⟩)
      rintro t l u (h | h) hg hs
      · exact h.step hg hj hs
      · rcases hg.1 with h' | ⟨_, _, h'⟩ | h' | h' <;> rw [h] at h' <;> cases h'
    unfold schedNext at hn
    rcases hinv with ⟨-, h⟩ | h
    · split at hn
      · rename_i q hq
        rw [hn] at h
        have := nextSlot_val hq
        rw [h.1] at this
        omega
      · rw [hn] at h
        exact h
    · split at hn <;> rw [h] at hn <;> cases hn

/-! ## `SIGSTOP` in a call that consumed `SIGKILL` -/

/-- Past the test of the pending bit of `SIGSTOP`, until the process yields. -/
def SignalsPc.atStop : SignalsPc → Bool
  | .mask i | .ign i | .load i | .store i _ | .act i | .stop i => i = SIGSTOP
  | _ => false

/-- In step `l` the loop of `handle_signals` finds `SIGSTOP` pending after the same
call has set `killed`. -/
def Kernel.StopsKilled (s : Kernel C) (l : C × Act) : Prop :=
  ∃ p, s.cpu l.1 = .running p ∧ l.2 = .step ∧ s.pc p = .base (.signals (.bit SIGSTOP)) ∧
    (s.sig p).killed ∧ (s.sig p).pending SIGSTOP

omit [DecidableEq C] in
theorem signalsCode_atStop {k k' : SignalsPc} (h : (signalsCode s p k).2.within = some (.signals k'))
    (hk : k'.atStop) : k.atStop ∨ (k = .bit SIGSTOP ∧ (s.sig p).pending SIGSTOP) := by
  have next {i : Sig} (h : signalsNext i = .signals k') : False := by
    unfold signalsNext at h
    split at h <;> cases h
    cases hk
  cases k with
  | bit i =>
    simp only [signalsCode] at h
    split at h
    · rename_i hp
      cases h
      obtain rfl : i = SIGSTOP := of_decide_eq_true hk
      exact .inr ⟨rfl, hp⟩
    · exact (next (Option.some.inj h)).elim
  | killed | pending => simp only [signalsCode] at h; split at h <;> cases h; cases hk
  | mask i | ign i =>
    simp only [signalsCode] at h
    split at h
    · exact (next (Option.some.inj h)).elim
    · cases h; exact .inl hk
  | load i | store i => cases h; exact .inl hk
  | act i =>
    simp only [signalsCode] at h
    split at h
    · cases h; exact .inl hk
    · exact (next (Option.some.inj h)).elim
    · exact (next (Option.some.inj h)).elim
    · cases h
  | stop i => exact (next (Option.some.inj h)).elim

theorem atStop_step (hg : ¬ s.StopsKilled (c, a)) (hs : step s (c, a) = some s')
    (hi : ∀ k, (s.pc p).within = some (.signals k) → k.atStop → (s.sig p).killed = false) (k : SignalsPc)
    (hw : (s'.pc p).within = some (.signals k)) (hk : k.atStop) : (s'.sig p).killed = false := by
  -- the process cannot set `killed` while it deals with `SIGSTOP`
  have kept {k : SignalsPc} (hw : (s.pc p).within = some (.signals k))
      (hk : k.atStop ∨ k = .bit SIGSTOP) (hn : (s.sig p).killed = false) : (s'.sig p).killed = false := by
    by_contra hn'
    rcases step_killed hs (by simpa using hn') with h | ⟨_, h⟩ | h
    · rw [hn] at h; cases h
    · rw [h] at hw; cases hw
    · obtain ⟨i, h, hx⟩ := h.within
      rw [hw] at h
      cases h
      obtain rfl : i = SIGSTOP := by simpa [SignalsPc.atStop] using hk
      simp [sigAct] at hx
  rcases step_within hs hw with hw | ⟨_, _, _, h⟩ | ⟨hc, b, hw₀, ht⟩
  · exact kept hw (.inl hk) (hi k hw hk)
  · cases h
  · cases ht with
    | same => exact kept hw₀ (.inl hk) (hi k hw₀ hk)
    | signals ha hp h =>
      rcases signalsCode_atStop h hk with hk | ⟨rfl, hpend⟩
      · exact kept hw₀ (.inl hk) (hi _ hw₀ hk)
      · refine kept hw₀ (.inr rfl) ?_
        by_contra hn
        exact hg ⟨p, hc, ha, hp, by simpa using hn, hpend⟩
    | sysret | trapped | forkret => cases hk
    | forked h | looped h => simp at h

/-- In every run in which no call of `handle_signals` comes to a pending `SIGSTOP`
after it set `killed`: a frozen process with `SIGKILL` pending is not skipped
exactly when it has a continue signal, and no call that consumed `SIGKILL` stops
the process. -/
theorem stopped_killed_iff (h : Run step (fun s l => ¬ s.StopsKilled l) (Kernel.init C) s) :
    (∀ c p, s.cpu c = .sched (.frozen p) → s.state p = .runnable → (s.sig p).frozen → (s.sig p).pending SIGKILL →
      (¬ s.Skips c p ↔ ∃ j, (s.sig p).continues j)) ∧
    ∀ p, ¬ (s.pc p = .base (.signals (.stop SIGSTOP)) ∧ (s.sig p).killed) := by
  refine ⟨fun c p hc hr hf _ => not_skips_iff hc hr hf, ?_⟩
  rintro p ⟨hp, hk⟩
  have hinv : ∀ k, (s.pc p).within = some (.signals k) → k.atStop → (s.sig p).killed = false :=
    h.inv (fun s : Kernel C => ∀ k, (s.pc p).within = some (.signals k) → k.atStop → (s.sig p).killed = false)
      (fun _ _ _ hi hg hs => atStop_step hg hs hi) (fun _ _ _ => rfl)
  rw [hinv (.stop SIGSTOP) (by rw [hp]; rfl) rfl] at hk
  cases hk

end

/-- `init` stops itself with `kill(2, 17)`, and CPU 0 comes round to it. -/
def stopping : List (Fin 2 × Act) := forked ++ [(0, .kill 2 17)] ++ cpuSteps 0 185

/-- The child sends `SIGKILL` to `init`, which is stopped and is skipped. -/
theorem stopping_skips_killed :
    ¬ ∀ (ls : List (Fin 2 × Act)) s, exec step (Kernel.init (Fin 2)) ls = some s →
      (∀ c p, s.cpu c = .sched (.frozen p) → s.state p = .runnable → (s.sig p).frozen → (s.sig p).pending SIGKILL →
        ¬ s.Skips c p) ∧
      ∀ p, ¬ (s.pc p = .base (.signals (.stop SIGSTOP)) ∧ (s.sig p).killed) := by
  intro h
  have hrun : (exec step (Kernel.init (Fin 2)) (stopping ++ [(1, .kill 2 9)] ++ cpuSteps 1 7)).map (fun s =>
      decide (s.cpu 0 = .sched (.frozen 0) ∧ s.state 0 = .runnable ∧ (s.sig 0).frozen ∧ (s.sig 0).pending SIGKILL ∧
        ∀ j, ¬ (s.sig 0).continues j)) = some true := by decide +kernel
  obtain ⟨s, hs, hrun⟩ := Option.map_eq_some_iff.1 hrun
  obtain ⟨hc, hr, hf, hk, hj⟩ := of_decide_eq_true hrun
  obtain ⟨j, hj'⟩ := (not_skips_iff hc hr hf).1 ((h _ s hs).1 0 0 hc hr hf hk)
  exact hj j hj'

/-- A check that no call of `handle_signals` comes to `SIGSTOP` with `killed` set. -/
def Kernel.stopsClean (s : Kernel C) (l : C × Act) : Bool :=
  match s.cpu l.1 with
  | .running p => match s.pc p with
    | .base (.signals (.bit _)) => !(s.sig p).killed
    | _ => true
  | _ => true

theorem Kernel.stopsClean_spec {l : C × Act} (h : s.stopsClean l) : ¬ s.StopsKilled l := by
  rintro ⟨p, hc, _, hp, hk, _⟩
  simp [Kernel.stopsClean, hc, hp, hk] at h

/-- With `SIGCONT` pending too, the stopped `init` is not skipped. -/
theorem stopping_dispatches_continued :
    ∃ s : Kernel (Fin 2), exec step (Kernel.init (Fin 2))
      (stopping ++ [(1, .kill 2 9)] ++ cpuSteps 1 7 ++ [(1, .kill 2 19)] ++ cpuSteps 1 7) = some s ∧
      (s.sig 0).pending SIGKILL ∧ ¬ s.Skips 0 0 := by
  have hrun : (exec (checked step fun s l => s.stopsClean l) (Kernel.init (Fin 2))
      (stopping ++ [(1, .kill 2 9)] ++ cpuSteps 1 7 ++ [(1, .kill 2 19)] ++ cpuSteps 1 7)).map (fun s =>
      decide (s.cpu 0 = .sched (.frozen 0) ∧ s.state 0 = .runnable ∧ (s.sig 0).frozen ∧ (s.sig 0).pending SIGKILL ∧
        (s.sig 0).continues SIGCONT)) = some true := by decide +kernel
  obtain ⟨s, hs, hrun⟩ := Option.map_eq_some_iff.1 hrun
  obtain ⟨hc, hr, hf, hk, hj⟩ := of_decide_eq_true hrun
  exact ⟨s, exec_of_checked hs, hk,
    ((stopped_killed_iff (run_of_checked (fun _ _ h => Kernel.stopsClean_spec h) hs)).1 0 0 hc hr hf hk).2 ⟨_, hj⟩⟩

/-! ## Stopping while a scheduler is on its way -/

section

variable [DecidableEq C]

/-- `frozen` is set by a stop signal, and cleared by `scheduler` after
`check_cont_sig`, or by a continue signal. -/
theorem step_frozen (hs : step s (c, a) = some s') (p : Slot) :
    (s'.sig p).frozen = (s.sig p).frozen ∨ (s.ActsOn (c, a) p .stop ∧ (s'.sig p).frozen = true) ∨
      ((s.cpu c = .sched (.unfreeze p) ∨ s.ActsOn (c, a) p .cont) ∧ (s'.sig p).frozen = false) := by
  rcases step_sig hs p with h | ⟨f, hr, hf⟩
  · exact .inl (by rw [h])
  cases hr with
  | signals hc hp hst =>
    rcases signals_cases hc hp hst hs hf with h | ⟨v, h⟩ | ⟨hx, h⟩ | ⟨hx, h⟩ | ⟨_, h⟩ | ⟨_, m, m', h⟩
    case inr.inr.inl => exact .inr (.inl ⟨hx, by rw [h]⟩)
    case inr.inr.inr.inl => exact .inr (.inr ⟨.inr hx, by rw [h]⟩)
    all_goals exact .inl (by rw [h])
  | unfreeze hc => exact .inr (.inr ⟨.inl hc, by rw [hf]⟩)
  | @fork r k f fails hc hp hst =>
    left
    rw [hf]
    cases k with
    | casPid => simp only [forkCode] at hst; split at hst <;> cases hst
    | publish => simp only [forkCode, cas] at hst; split at hst <;> cases hst
    | _ => cases hst <;> rfl
  | _ => rw [hf]; exact .inl rfl

theorem Kernel.ActsOn.stops (h : s.ActsOn (c, a) p .stop) (hs : step s (c, a) = some s') :
    (s'.sig p).frozen = true := by
  obtain ⟨hc, ha, i, hk, hx⟩ := h
  obtain rfl : a = .step := ha
  rcases step_running hc hs with ⟨k, hk', _⟩ | ⟨o, ho, rfl⟩
  · rw [hk] at hk'; cases hk'
  · rw [hk, procCode, baseCode, unlocked] at ho
    split at ho <;> cases ho
    simp [signalsCode, hx, Kernel.store_sig]

/-- The CPU has found `frozen` clear, or a continue signal, and has not switched to
process `p` yet. -/
def Cpu.Takes (p : Slot) (k : Cpu) : Prop :=
  k = .sched (.unfreeze p) ∨ k = .sched (.claim p) ∨ k = .sched (.begin p) ∨ k = .sched (.enter p)

/-- Step `l` stops a process that a CPU is about to switch to. -/
def Kernel.StopsTaken (s : Kernel C) (l : C × Act) : Prop :=
  ∃ p d, s.ActsOn l p .stop ∧ (s.cpu d).Takes p

/-- Step `l` consumes a continue signal of process `p`. -/
def Kernel.ConsumesCont (s : Kernel C) (l : C × Act) (p : Slot) : Prop :=
  (∃ j v, s.cpu l.1 = .sched (.cont p j (.store v))) ∨ s.ActsOn l p .cont

/-- How a CPU comes to take a process. -/
theorem takes_back (hs : step s (c, a) = some s') (hd : (s'.cpu d).Takes p) :
    (s.cpu d).Takes p ∨ (d = c ∧ s.cpu c = .sched (.frozen p) ∧ (s.sig p).frozen = false ∧ s'.proc = s.proc) ∨
      (d = c ∧ (∃ j v, s.cpu c = .sched (.cont p j (.store v))) ∧ s'.cpu c = .sched (.unfreeze p)) := by
  by_cases hdc : d = c
  · subst hdc
    cases hc : s.cpu d with
    | panic => simp [step_panic hc] at hs
    | running r =>
      rcases step_running hc hs with ⟨k, _, rfl⟩ | ⟨i, _, rfl⟩
      · simp [Cpu.Takes] at hd
      · simp [Cpu.Takes, hc] at hd
    | sched k =>
      obtain ⟨o, ho, rfl⟩ := step_sched hc hs
      rw [Kernel.setCpu_self] at hd
      have away {i : Slot} (h : (schedNext i).Takes p) : False := by
        unfold schedNext at h
        split at h <;> simp [Cpu.Takes] at h
      cases k with
      | top => cases a <;> cases ho <;> simp [Cpu.Takes] at hd
      | intr ch i k =>
        obtain rfl := Option.some.inj ho
        dsimp only at hd
        generalize (wakeup1 s ch i k).2 = w at hd
        cases w <;> simp [Wakeup.cpu, Cpu.Takes] at hd
      | frozen i =>
        obtain rfl := Option.some.inj ho
        dsimp only at hd
        split at hd
        · simp [Cpu.Takes] at hd
        · rename_i hf
          obtain rfl : i = p := by simpa [Cpu.Takes] using hd
          exact .inr (.inl ⟨rfl, rfl, by simpa using hf, rfl⟩)
      | cont i j k =>
        obtain rfl := Option.some.inj ho
        have next (h : (contCode.next i j).Takes p) : False := by
          unfold contCode.next at h
          split at h
          · simp [Cpu.Takes] at h
          · exact away h
        cases k with
        | store v =>
          obtain rfl : i = p := by simpa [contCode, Cpu.Takes] using hd
          exact .inr (.inr ⟨rfl, ⟨j, v, rfl⟩, by simp [contCode]⟩)
        | dfl | load => simp [contCode, Cpu.Takes] at hd
        | bit | handler => simp only [contCode] at hd; split at hd; exacts [by simp [Cpu.Takes] at hd, (next hd).elim]
        | mask => simp only [contCode] at hd; split at hd; exacts [(next hd).elim, by simp [Cpu.Takes] at hd]
      | unfreeze i =>
        obtain rfl := Option.some.inj ho
        obtain rfl : i = p := by simpa [Cpu.Takes] using hd
        exact .inl (.inl rfl)
      | claim i =>
        obtain rfl := Option.some.inj ho
        simp only [cas] at hd
        split at hd
        · obtain rfl : i = p := by simpa [Cpu.Takes] using hd
          exact .inl (.inr (.inl rfl))
        · exact (away hd).elim
      | begin i =>
        obtain rfl := Option.some.inj ho
        simp only [cas_same] at hd
        obtain rfl : i = p := by simpa [Cpu.Takes] using hd
        exact .inl (.inr (.inr (.inl rfl)))
      | enter => obtain rfl := Option.some.inj ho; simp [Cpu.Takes] at hd
      | runnable | sleeping => obtain rfl := Option.some.inj ho; simp [cas_same, Cpu.Takes] at hd
      | zombie => obtain rfl := Option.some.inj ho; simp only [cas_same] at hd; exact (away hd).elim
  · rw [step_cpu_ne hs hdc] at hd
    exact .inl hd

/-- A process that a CPU is about to switch to is not frozen, but for the store that
`scheduler` makes first. -/
theorem taken_step (hg : ¬ s.StopsTaken (c, a)) (hs : step s (c, a) = some s')
    (hi : ∀ d p, (s.cpu d).Takes p → s.cpu d = .sched (.unfreeze p) ∨ (s.sig p).frozen = false) (d : C) (p : Slot)
    (hd : (s'.cpu d).Takes p) : s'.cpu d = .sched (.unfreeze p) ∨ (s'.sig p).frozen = false := by
  rcases takes_back hs hd with hd₀ | ⟨rfl, _, hf, hp⟩ | ⟨rfl, _, hu⟩
  · rcases hi d p hd₀ with hu | hf
    · by_cases hdc : d = c
      · subst hdc
        obtain ⟨o, ho, rfl⟩ := step_sched hu hs
        obtain rfl := Option.some.inj ho
        exact .inr (by simp [Kernel.store_sig])
      · exact .inl ((step_cpu_ne hs hdc).trans hu)
    · rcases step_frozen hs p with h | ⟨h, _⟩ | ⟨_, h⟩
      · exact .inr (h.trans hf)
      · exact absurd ⟨p, d, h, hd₀⟩ hg
      · exact .inr h
  · exact .inr (by rw [Kernel.sig, hp]; exact hf)
  · exact .inl hu

/-- In every run in which no process stops while a CPU is about to switch to it, no
CPU switches to a frozen process; and once a process has stopped, no CPU switches
to it before a continue signal of it is consumed. -/
theorem frozen_not_entered (h : Run step (fun s l => ¬ s.StopsTaken l) (Kernel.init C) s) :
    (∀ c p, s.cpu c = .sched (.enter p) → (s.sig p).frozen = false) ∧
    ∀ p l s₁ s₂, s.ActsOn l p .stop → ¬ s.StopsTaken l → step s l = some s₁ →
      Run step (fun s l => ¬ s.StopsTaken l ∧ ¬ s.ConsumesCont l p) s₁ s₂ → ∀ c, s₂.cpu c ≠ .sched (.enter p) := by
  constructor
  · intro c p hc
    have hinv : ∀ d p, (s.cpu d).Takes p → s.cpu d = .sched (.unfreeze p) ∨ (s.sig p).frozen = false :=
      h.inv (fun s : Kernel C => ∀ d p, (s.cpu d).Takes p → s.cpu d = .sched (.unfreeze p) ∨ (s.sig p).frozen = false)
        (fun _ _ _ hi hg hs => taken_step hg hs hi) (fun d p hd => by simp [Kernel.init, Cpu.Takes] at hd)
    refine (hinv c p (.inr (.inr (.inr hc)))).resolve_left ?_
    rw [hc]
    simp
  · rintro p ⟨c, a⟩ s₁ s₂ hx hg hs hrun d hd
    have hstop : (s₁.sig p).frozen = true ∧ ∀ d, ¬ (s₁.cpu d).Takes p := by
      have hnot (d : C) (h : (s.cpu d).Takes p) : False := hg ⟨p, d, hx, h⟩
      refine ⟨hx.stops hs, fun d hd => ?_⟩
      rcases takes_back hs hd with h | ⟨rfl, h, _⟩ | ⟨rfl, ⟨_, _, h⟩, _⟩
      · exact hnot d h
      · rw [hx.1] at h; cases h
      · rw [hx.1] at h; cases h
    have hinv : (s₂.sig p).frozen = true ∧ ∀ d, ¬ (s₂.cpu d).Takes p := by
      refine hrun.inv (fun s : Kernel C => (s.sig p).frozen = true ∧ ∀ d, ¬ (s.cpu d).Takes p) ?_ hstop
      rintro t ⟨c, a⟩ t' ⟨hf, hn⟩ ⟨_, hcons⟩ hs
      constructor
      · rcases step_frozen hs p with h | ⟨_, h⟩ | ⟨h | h, _⟩
        · exact h.trans hf
        · exact h
        · exact (hn c (.inl h)).elim
        · exact (hcons (.inr h)).elim
      · intro d hd
        rcases takes_back hs hd with h | ⟨_, _, h, _⟩ | ⟨_, h, _⟩
        · exact hn d h
        · rw [hf] at h; cases h
        · exact hcons (.inl h)
    exact hinv.2 d (.inr (.inr (.inr hd)))

end

/-- CPU 1 runs no process and has found `init` not frozen; `init`, on CPU 0, then
stops itself, and CPU 0 sets it `RUNNABLE`. -/
def overlooked : List (Fin 2 × Act) :=
  cpuSteps 0 9 ++ [(0, .syscall), (0, .step), (0, .kill 2 17)] ++ cpuSteps 0 7 ++ cpuSteps 1 2 ++ cpuSteps 0 49

/-- CPU 1 dispatches the stopped `init`. -/
theorem overlooked_enters_frozen :
    ¬ ∀ (ls : List (Fin 2 × Act)) s, exec step (Kernel.init (Fin 2)) ls = some s →
      ∀ c p, s.cpu c = .sched (.enter p) → (s.sig p).frozen = false := by
  intro h
  have hrun : (exec step (Kernel.init (Fin 2)) (overlooked ++ cpuSteps 1 2)).map
    (fun s => (s.cpu 1, (s.sig 0).frozen)) = some (.sched (.enter 0), true) := by decide +kernel
  obtain ⟨s, hs, he⟩ := Option.map_eq_some_iff.1 hrun
  obtain ⟨hc, hf⟩ := Prod.mk.inj he
  rw [h _ s hs 1 0 hc] at hf
  cases hf

/-- A check that step `l` acts on no signal, and consumes no continue signal. -/
def Kernel.inert (s : Kernel C) (l : C × Act) : Bool :=
  match s.cpu l.1 with
  | .running p => match s.pc p with
    | .base (.signals (.act _)) => false
    | _ => true
  | .sched (.cont _ _ (.store _)) => false
  | _ => true

theorem Kernel.inert_spec {l : C × Act} (h : s.inert l) : ¬ s.StopsTaken l ∧ ¬ s.ConsumesCont l p := by
  refine ⟨?_, ?_⟩
  · rintro ⟨p, d, ⟨hc, _, i, hk, _⟩, _⟩
    simp [Kernel.inert, hc, hk] at h
  · rintro (⟨j, v, hc⟩ | ⟨hc, _, i, hk, _⟩)
    · simp [Kernel.inert, hc] at h
    · simp [Kernel.inert, hc, hk] at h

/-- `init` stops itself on CPU 0, and no CPU switches to it for a whole pass. -/
theorem stopping_not_entered :
    ∃ s₀ s₁ s₂ : Kernel (Fin 2),
      exec step (Kernel.init (Fin 2)) (forked ++ [(0, .kill 2 17)] ++ cpuSteps 0 50) = some s₀ ∧
      s₀.ActsOn (0, .step) 0 .stop ∧ step s₀ (0, .step) = some s₁ ∧ exec step s₁ (cpuSteps 0 134) = some s₂ ∧
      s₂.cpu 0 = .sched (.frozen 0) ∧ ∀ c, s₂.cpu c ≠ .sched (.enter 0) := by
  have hrun : ((exec (checked step fun s l => s.inert l) (Kernel.init (Fin 2))
      (forked ++ [(0, .kill 2 17)] ++ cpuSteps 0 50)).bind fun s₀ => (step s₀ (0, .step)).bind fun s₁ =>
      (exec (checked step fun s l => s.inert l) s₁ (cpuSteps 0 134)).map fun s₂ =>
        decide (s₀.cpu 0 = .running 0 ∧ s₀.cpu 1 = .running 1 ∧ s₀.pc 0 = .base (.signals (.act 17)) ∧
          s₂.cpu 0 = .sched (.frozen 0))) = some true := by decide +kernel
  obtain ⟨s₀, h₀, hrun⟩ := Option.bind_eq_some_iff.1 hrun
  obtain ⟨s₁, h₁, hrun⟩ := Option.bind_eq_some_iff.1 hrun
  obtain ⟨s₂, h₂, hrun⟩ := Option.map_eq_some_iff.1 hrun
  obtain ⟨hc₀, hc₁, hk, hc⟩ := of_decide_eq_true hrun
  have hx : s₀.ActsOn (0, .step) 0 .stop := ⟨hc₀, rfl, SIGSTOP, hk, by simp [sigAct]⟩
  have hn : ¬ s₀.StopsTaken (0, .step) := by
    rintro ⟨p, d, _, hd⟩
    obtain rfl | rfl : d = 0 ∨ d = 1 := by omega
    · simp [hc₀, Cpu.Takes] at hd
    · simp [hc₁, Cpu.Takes] at hd
  have hr₀ := run_of_checked (G := fun s l => ¬ s.StopsTaken l) (fun _ _ h => (Kernel.inert_spec (p := 0) h).1) h₀
  have hr₂ := run_of_checked (fun _ _ h => Kernel.inert_spec (p := 0) h) h₂
  exact ⟨s₀, s₁, s₂, exec_of_checked h₀, hx, h₁, exec_of_checked h₂, hc,
    (frozen_not_entered hr₀).2 0 (0, .step) s₁ s₂ hx hn h₁ hr₂⟩

end Xv6
