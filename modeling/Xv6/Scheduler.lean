import Xv6.OneStack
/-!
# Processes handed over in time

A process belongs to one CPU from the `cas` that claims it until the scheduler,
back from `swtch`, has made the first of its three `cas`. A scheduler is late
if it finds the state its second or third `cas` looks for when the process
already belongs to another CPU (`Late`).

Without late schedulers a process that belongs to no CPU is in a state that
tells how it left its stack (`Ctx.states`), and what `wakeup1` does after its
`cas` to `-RUNNABLE` cannot be interfered with.
-/

namespace Xv6

variable {C : Type} {s s' : Kernel C} {c d : C} {a : Act} {p q r : Slot}

/-! ## Owners -/

/-- The states of a process that belongs to no CPU, by how it left its stack. -/
def Cont.states : Cont → List PState
  | .yield _ => [.runnable]
  | .sleep _ _ _ | .wait => [.negSleeping, .sleeping, .negRunnable, .runnable]
  | .exit => [.negZombie, .zombie, .preUnused, .unused, .embryo]

/-- A slot that `fork` fills keeps the context of its last process until it is
given its own. -/
def Ctx.states : Ctx → List PState
  | .forkret => [.unused, .embryo, .runnable]
  | .cont k => k.states

/-- Process `p` belongs to the CPU. -/
def Cpu.Owns (p : Slot) (k : Cpu) : Prop := k.Holds p ∨ k = .sched (.runnable p)

/-- `fork` has given the child its context. -/
def ForkPc.ready : ForkPc → Bool
  | .nextpid | .casPid _ | .pid _ | .kalloc | .context | .undo => false
  | .handlers0 | .pending0 | .mask0 | .copyuvm | .parent | .mask | .pending | .handlers | .publish => true

/-- CPU `c` has set process `q` to `-RUNNABLE` in `wakeup1` and will set it to
`RUNNABLE`. -/
def Kernel.Claims (s : Kernel C) (c : C) (q : Slot) : Prop :=
  ∃ ch k, s.Waking c ch q k ∧ (k = .clear ∨ k = .runnable)

structure Owned (s : Kernel C) : Prop extends Stacks s where
  oneOwner : ∀ c d p, (s.cpu c).Owns p → (s.cpu d).Owns p → c = d
  back : ∀ c p, s.cpu c = .sched (.runnable p) → ∃ k, s.pc p = .resume (.cont k) ∧ s.state p = k.state
  free : ∀ p, (∀ c, ¬ (s.cpu c).Owns p) → ∃ k, s.pc p = .resume k ∧ s.state p ∈ k.states
  ready : ∀ p q k, (s.pc p).home = some (.fork q k) → k.ready → s.pc q = .resume .forkret
  claimed : ∀ c q, s.Claims c q → s.state q = .negRunnable ∧ ∀ d, ¬ (s.cpu d).Owns q
  oneClaim : ∀ c d q, s.Claims c q → s.Claims d q → c = d

/-- CPU `c` is about to end a transition of a process that belongs to another
CPU. -/
def Kernel.Late (s : Kernel C) (c : C) : Prop :=
  ∃ p d, (s.cpu d).Owns p ∧
    ((s.cpu c = .sched (.sleeping p) ∧ s.state p = .negSleeping) ∨
      (s.cpu c = .sched (.zombie p) ∧ s.state p = .negZombie))

theorem owned_init : Owned (Kernel.init C) where
  toStacks := stacks_init
  oneOwner c d p h := by simp [Kernel.init, Cpu.Owns, Cpu.Holds] at h
  back c p h := by simp [Kernel.init] at h
  free p _ := ⟨.forkret, rfl, by by_cases h : p = initproc <;> simp [Kernel.init, Kernel.state, Ctx.states, h]⟩
  ready p q k h := by cases h
  claimed c q := by rintro ⟨ch, k, h | ⟨p, r, h, _⟩, _⟩ <;> simp [Kernel.init] at h
  oneClaim c d q := by rintro ⟨ch, k, h | ⟨p, r, h, _⟩, _⟩ <;> simp [Kernel.init] at h

/-! ## Steps into `wakeup1` -/

section

variable [DecidableEq C]

theorem Stacks.waking_other {ch : Chan} {i : Slot} {k : WakeupPc} (h : Stacks s) (hs : step s (c, a) = some s')
    (hd : d ≠ c) : s'.Waking d ch i k ↔ s.Waking d ch i k := by
  simp only [Kernel.Waking, step_cpu_ne hs hd]
  refine or_congr Iff.rfl (exists₂_congr fun p r => and_congr_right fun hp => ?_)
  have hc : s.cpu c ≠ .running p := fun hc => hd (h.one d c p (.inr (.inr hp)) (.inr (.inr hc)))
  rw [h.pc_kept hs hc hp]

omit [DecidableEq C] in
theorem procCode_wakeup1 {i : Store × Pc} {ret : Ret} {ch : Chan} {j : Slot} {k' : WakeupPc}
    (hc : s.cpu c = .running p) (h : procCode s p a (s.pc p) = some i) (hi : i.2 = .wakeup1 ret ch j k') :
    (j = 0 ∧ k' = .chan) ∨ ∃ i₀ k, s.pc p = .wakeup1 ret ch i₀ k ∧ (wakeup1 s ch i₀ k).2 = .place j k' := by
  have hg := procCode_goes hc h
  rw [hi] at hg
  generalize s.pc p = k at hg
  generalize hk' : Pc.wakeup1 ret ch j k' = k₁ at hg
  cases hg with
  | base hg => cases hg <;> cases hk'; exact .inl ⟨rfl, rfl⟩
  | @wakeup1 r ch₀ i₀ k₀ =>
    right
    generalize hw : Xv6.wakeup1 s ch₀ i₀ k₀ = w at hk'
    obtain ⟨st, w⟩ := w
    cases w with
    | place => cases hk'; exact ⟨i₀, k₀, rfl, by rw [hw]⟩
    | panic => cases hk'
    | done => cases r <;> simp only [Wakeup.pc, Ret.done, exitNext] at hk' <;> (try split at hk') <;> cases hk'
  | @exit k _ he =>
    subst hk'
    cases k <;> simp only [exitCode, exitNext, cas] at he <;> (repeat' split at he) <;> cases he <;>
      exact .inl ⟨rfl, rfl⟩
  | @wait k _ he =>
    subst hk'
    cases k <;> simp only [waitCode, waitNext, cas] at he <;> (repeat' split at he) <;> cases he
  | _ => cases hk'

omit [DecidableEq C] in
theorem schedCode_intr {k : SchedPc} {i : Store × Cpu} {ch : Chan} {j : Slot} {k' : WakeupPc}
    (h : schedCode s a k = some i) (hi : i.2 = .sched (.intr ch j k')) :
    (j = 0 ∧ k' = .chan) ∨ ∃ i₀ k₀, k = .intr ch i₀ k₀ ∧ (wakeup1 s ch i₀ k₀).2 = .place j k' ∧
      i.1 = (wakeup1 s ch i₀ k₀).1 := by
  have next (j₀ : Slot) : schedNext j₀ ≠ .sched (.intr ch j k') := by
    unfold schedNext
    split <;> simp
  cases k with
  | top => cases a <;> cases h <;> cases hi; exact .inl ⟨rfl, rfl⟩
  | intr ch' j' k₀ =>
    obtain rfl := Option.some.inj h
    simp only at hi
    cases hw : (wakeup1 s ch' j' k₀).2 <;> rw [hw] at hi <;> cases hi
    exact .inr ⟨j', k₀, rfl, hw, rfl⟩
  | frozen => obtain rfl := Option.some.inj h; simp only at hi; split at hi <;> cases hi
  | cont i₀ j₀ k₀ =>
    obtain rfl := Option.some.inj h
    cases k₀ <;> simp only [contCode, contCode.next] at hi <;> (repeat' split at hi) <;>
      first | cases hi | exact absurd hi (next _)
  | claim => obtain rfl := Option.some.inj h; simp only [cas] at hi; split at hi <;> first | cases hi | exact absurd hi (next _)
  | zombie => obtain rfl := Option.some.inj h; simp only [cas] at hi; split at hi <;> exact absurd hi (next _)
  | unfreeze | enter => obtain rfl := Option.some.inj h; cases hi
  | begin | runnable | sleeping => obtain rfl := Option.some.inj h; simp only [cas] at hi; split at hi <;> cases hi

/-- A CPU in `wakeup1` has just called it or was in it, one step before. -/
theorem Stacks.waking_back {ch : Chan} {j : Slot} {k' : WakeupPc} (h : Stacks s) (hs : step s (c, a) = some s')
    (hw : s'.Waking c ch j k') :
    (j = 0 ∧ k' = .chan) ∨ ∃ i k, s.Waking c ch i k ∧ (wakeup1 s ch i k).2 = .place j k' ∧
      s'.proc = (s.store (wakeup1 s ch i k).1).proc := by
  cases hc : s.cpu c with
  | panic => simp [step_panic hc] at hs
  | sched k =>
    obtain ⟨i, hi, rfl⟩ := step_sched hc hs
    rcases hw with hw | ⟨p, ret, hw, hk⟩
    · simp only [Kernel.setCpu_self] at hw
      rcases schedCode_intr hi hw with h0 | ⟨i₀, k₀, rfl, hp, he⟩
      · exact .inl h0
      · exact .inr ⟨i₀, k₀, .inl hc, hp, by rw [he]; rfl⟩
    · -- a CPU that gets onto a stack finds the thread switched out
      have hf := step_cpu hs
      rw [hw] at hf
      rcases hf with hf | hf
      · rw [hc] at hf; cases hf
      · obtain ⟨k, hk'⟩ := h.parked p fun e he => by
          obtain rfl := h.one c e p (.inr (.inl hf)) (.inr (.inr he))
          rw [hf] at he; cases he
        obtain ⟨st, he, _, hpc, _⟩ := step_effect hs
        rw [hpc p (by simp [hf])] at hk
        rcases he.pc_cases p with h' | ⟨_, _, _, h'⟩ <;> rw [h'] at hk
        · rw [hk'] at hk; cases hk
        · cases hk
  | running p =>
    rcases step_running hc hs with ⟨k, _, rfl⟩ | ⟨i, hi, rfl⟩
    · rcases hw with hw | ⟨p, ret, hw, hk⟩ <;> simp at hw
    · rcases hw with hw | ⟨p', ret, hw, hk⟩
      · simp [hc] at hw
      · simp only [Kernel.setPc_cpu, Kernel.store_cpu, hc, Cpu.running.injEq] at hw
        subst hw
        simp only [Kernel.setPc_self] at hk
        rcases procCode_wakeup1 hc hi hk with h0 | ⟨i₀, k, hp, hw⟩
        · exact .inl h0
        · refine .inr ⟨i₀, k, .inr ⟨p, ret, hc, hp⟩, hw, ?_⟩
          rw [hp] at hi
          obtain rfl := Option.some.inj hi
          rfl

/-- A claim is kept, or has just been made on a process found `SLEEPING`. -/
theorem Stacks.claims_back (h : Stacks s) (hs : step s (c, a) = some s') (hq : s'.Claims d q) :
    (s.Claims d q ∧ (d = c → s'.state q = s.state q)) ∨
      (d = c ∧ s.state q = .sleeping ∧ s'.state q = .negRunnable) := by
  obtain ⟨ch, k', hw, hk'⟩ := hq
  by_cases hd : d = c
  · subst hd
    rcases h.waking_back hs hw with ⟨_, rfl⟩ | ⟨i, k, hw₀, hp, hs'⟩
    · simp at hk'
    cases k with
    | clear =>
      cases hp
      exact .inl ⟨⟨ch, .clear, hw₀, .inl rfl⟩, fun _ => by
        simp only [Kernel.state, hs']; exact s.store_state _ _⟩
    | cas =>
      simp only [wakeup1, wakeup1.next, cas] at hp hs'
      split at hp
      · rename_i hsl
        cases hp
        exact .inr ⟨rfl, hsl, by simp [Kernel.state, hs', hsl, Kernel.store, Kernel.setProc]⟩
      · split at hp <;> cases hp
        simp at hk'
    | _ =>
      simp only [wakeup1, wakeup1.next, cas] at hp
      (repeat' split at hp) <;> cases hp <;> simp at hk'
  · exact .inl ⟨⟨ch, k', (h.waking_other hs hd).1 hw, hk'⟩, fun e => absurd e hd⟩

end

/-! ## The invariant -/

namespace Owned

theorem owned_onCpu (h : Owned s) (hp : (s.cpu d).Owns p) : (s.state p).onCpu := by
  rcases hp with hp | hp
  · exact h.onCpu hp
  · obtain ⟨k, _, hk⟩ := h.back d p hp
    rw [hk]
    cases k <;> rfl

/-- Without late schedulers no CPU is overtaken. -/
theorem not_overtaken (h : Owned s) (hl : ¬ s.Late c) : ¬ s.Overtaken c := by
  rintro ⟨p, d, hf, hd⟩
  have howns : (s.cpu d).Owns p := .inl (.inr (.inr hd))
  rcases hf with ⟨hc, _⟩ | hf | hf | ⟨ch, hw, _⟩
  · obtain rfl := h.oneOwner c d p (.inr hc) howns
    rw [hc] at hd; cases hd
  · exact hl ⟨p, d, howns, .inl hf⟩
  · exact hl ⟨p, d, howns, .inr hf⟩
  · exact (h.claimed c p ⟨ch, _, hw, .inr rfl⟩).2 d howns

variable [DecidableEq C]

/-- No step of another CPU changes the state of a process that belongs to a CPU. -/
theorem owned_state_kept (h : Owned s) (hl : ¬ s.Late c) (hs : step s (c, a) = some s') (hd : d ≠ c)
    (hp : (s.cpu d).Owns p) : s'.state p = s.state p := by
  rcases hp with hp | hp
  · exact h.state_kept (h.not_overtaken hl) hs hd hp
  have howns : (s.cpu d).Owns p := .inr hp
  have hother : ¬ (s.cpu c).Owns p := fun hc => hd (h.oneOwner d c p howns hc)
  have hon := h.owned_onCpu howns
  rcases step_state hs p with hst | hm
  · exact hst
  exfalso
  generalize hv : s.state p = v at hm hon
  generalize s'.state p = w at hm
  cases hm with
  | begin hc => exact hother (.inl (.inl hc))
  | yield hc _ | sleep hc _ | wait hc _ | exit hc _ | waitRun hc _ | waitFail hc _ =>
    exact hother (.inl (.inr (.inr hc)))
  | toRunnable hc => exact hother (.inr hc)
  | toSleeping hc => exact hl ⟨p, d, howns, .inl ⟨hc, hv⟩⟩
  | toZombie hc => exact hl ⟨p, d, howns, .inr ⟨hc, hv⟩⟩
  | woken hw => exact (h.claimed c p ⟨_, _, hw, .inr rfl⟩).2 d howns
  | undo _ hk => rw [← hv, h.embryo_of hk] at hon; cases hon
  | claim | wake | kill | reap | free | alloc | publish => cases hon

/-- What a step leaves a CPU owning, it owned or has just claimed. -/
theorem owns_back (hs : step s (c, a) = some s') (hp : (s'.cpu d).Owns p) :
    (s.cpu d).Owns p ∨ (d = c ∧ s.cpu c = .sched (.claim p) ∧ s.state p = .runnable) := by
  rcases hp with hp | hp
  · exact (Stacks.holds_back hs hp).imp_left .inl
  · by_cases hd : d = c
    · subst hd
      have hf := step_cpu hs
      rw [hp] at hf
      exact .inl (.inl (.inr (.inr hf.1)))
    · rw [step_cpu_ne hs hd] at hp
      exact .inl (.inr hp)

/-- A CPU gives a process up at the first `cas` after `swtch`. -/
theorem owns_lost (hs : step s (c, a) = some s') (hp : (s.cpu d).Owns p) (hp' : ¬ (s'.cpu d).Owns p) :
    d = c ∧ s.cpu c = .sched (.runnable p) := by
  by_cases hd : d = c
  · subst hd
    refine ⟨rfl, ?_⟩
    rcases hp with (hp | hp | hp) | hp
    · obtain ⟨i, hi, rfl⟩ := step_sched hp hs
      obtain rfl := Option.some.inj hi
      exact absurd (.inl (.inr (.inl (by simp)))) hp'
    · obtain ⟨i, hi, rfl⟩ := step_sched hp hs
      obtain rfl := Option.some.inj hi
      exact absurd (.inl (.inr (.inr (by simp)))) hp'
    · rcases step_running hp hs with ⟨k, _, rfl⟩ | ⟨i, _, rfl⟩
      · exact absurd (.inr (by simp)) hp'
      · exact absurd (.inl (.inr (.inr (by simpa using hp)))) hp'
    · exact hp
  · rw [step_cpu_ne hs hd] at hp'
    exact absurd hp hp'

/-- The first `cas` after `swtch` gives up a process that is in one of the
states its place allows. -/
theorem back_free (h : Owned s) (hs : step s (c, a) = some s') (hc : s.cpu c = .sched (.runnable p)) :
    ∃ k, s'.pc p = .resume k ∧ s'.state p ∈ k.states := by
  obtain ⟨k, hk, hv⟩ := h.back c p hc
  obtain ⟨i, hi, rfl⟩ := step_sched hc hs
  obtain rfl := Option.some.inj hi
  refine ⟨.cont k, ?_, ?_⟩
  · simp only [cas]
    split <;> simpa [Kernel.store_pc] using hk
  · cases k <;> simp [cas, hv, Cont.state, Ctx.states, Cont.states, Kernel.store_state]

/-- A process that belongs to no CPU keeps to the states its place allows. -/
theorem free_kept (h : Owned s) (hs : step s (c, a) = some s') (hp : ∀ d, ¬ (s.cpu d).Owns p)
    (hp' : ∀ d, ¬ (s'.cpu d).Owns p) : ∃ k, s'.pc p = .resume k ∧ s'.state p ∈ k.states := by
  obtain ⟨k, hk, hv⟩ := h.free p hp
  have hrun (hc : s.cpu c = .running p) : False := hp c (.inl (.inr (.inr hc)))
  rcases step_pc_ne hs hrun with hpc | ⟨r, hc, hr, hpc⟩
  · refine ⟨k, hpc.trans hk, ?_⟩
    rcases step_state hs p with hst | hm
    · exact hst ▸ hv
    generalize hw : s.state p = w at hm hv
    generalize s'.state p = w' at hm
    cases hm with
    | claim hc =>
      obtain ⟨i, hi, rfl⟩ := step_sched hc hs
      obtain rfl := Option.some.inj hi
      exact absurd (.inl (.inl (by simp [cas, hw]))) (hp' c)
    | begin hc => exact (hp c (.inl (.inl hc))).elim
    | toRunnable hc => exact (hp c (.inr hc)).elim
    | yield hc _ | sleep hc _ | wait hc _ | exit hc _ | waitRun hc _ | waitFail hc _ => exact (hrun hc).elim
    | publish _ hr =>
      obtain rfl : k = .forkret := by simpa [h.ready _ p _ (by rw [hr]; rfl) rfl] using hk.symm
      simp [Ctx.states]
    | undo _ hr =>
      rw [← hw, h.embryo_of hr] at hv
      rcases k with _ | ⟨⟨⟩⟩ <;> simp_all [Ctx.states, Cont.states]
    | _ => rcases k with _ | ⟨⟨⟩⟩ <;> simp_all [Ctx.states, Cont.states]
  · refine ⟨.forkret, hpc, ?_⟩
    have he := h.embryo_of hr
    by_cases hne : s'.state p = .embryo
    · simp [Ctx.states, hne]
    · obtain ⟨r', hc', hr'⟩ := Stacks.embryo_kept hs he hne
      rw [hc] at hc'
      cases hc'
      rcases hr' with hr' | hr' <;> rw [hr] at hr' <;> cases hr'

/-- The process a waker has set to `-RUNNABLE` stays so, and belongs to no CPU. -/
theorem claimed_kept (h : Owned s) (hs : step s (c, a) = some s') (hd : s'.Claims d q) :
    s'.state q = .negRunnable ∧ ∀ e, ¬ (s'.cpu e).Owns q := by
  rcases h.claims_back hs hd with ⟨hd, hself⟩ | ⟨_, hsl, hv'⟩
  · have ⟨hv, hno⟩ := h.claimed d q hd
    refine ⟨?_, fun e he => ?_⟩
    · rcases step_state hs q with hst | hm
      · exact hst.trans hv
      by_cases hdc : d = c
      · exact (hself hdc).trans hv
      rw [hv] at hm
      generalize s'.state q = w at hm
      cases hm with
      | toRunnable hc => exact absurd (.inr hc) (hno c)
      | woken hw => exact absurd (h.oneClaim d c q hd ⟨_, _, hw, .inr rfl⟩) hdc
      | undo _ hk => rw [h.embryo_of hk] at hv; cases hv
    · rcases owns_back hs he with he | ⟨_, _, hr⟩
      · exact hno e he
      · rw [hr] at hv; cases hv
  · refine ⟨hv', fun e he => ?_⟩
    rcases owns_back hs he with he | ⟨_, _, hr⟩
    · have hon := h.owned_onCpu he
      rw [hsl] at hon; cases hon
    · rw [hr] at hsl; cases hsl

/-- Without late schedulers the invariant is kept. -/
theorem preserved (h : Owned s) (hl : ¬ s.Late c) (hs : step s (c, a) = some s') : Owned s' where
  toStacks := h.toStacks.preserved (h.not_overtaken hl) hs
  oneOwner := by
    have fresh {d e p} (hd : (s.cpu d).Owns p) (he : s.state p = .runnable) : e = d := by
      have hon := h.owned_onCpu hd
      rw [he] at hon
      cases hon
    intro d e p hd he
    rcases owns_back hs hd with hd | ⟨rfl, _, hd⟩ <;> rcases owns_back hs he with he | ⟨rfl, _, he⟩
    · exact h.oneOwner d e p hd he
    · exact (fresh hd he).symm
    · exact fresh he hd
    · rfl
  back := by
    intro d p hd
    by_cases hdc : d = c
    · subst hdc
      have hf := step_cpu hs
      rw [hd] at hf
      obtain ⟨hc, k, hk, hk'⟩ := hf
      refine ⟨k, hk', ?_⟩
      have hv := h.running d p hc
      rw [hk] at hv
      rcases step_running hc hs with ⟨_, _, rfl⟩ | ⟨i, _, rfl⟩
      · simpa [Pc.states] using hv
      · simp [hc] at hd
    · rw [step_cpu_ne hs hdc] at hd
      obtain ⟨k, hk, hv⟩ := h.back d p hd
      refine ⟨k, ?_, (h.owned_state_kept hl hs hdc (.inr hd)).trans hv⟩
      have hc : s.cpu c ≠ .running p := fun hc => hdc (h.oneOwner d c p (.inr hd) (.inl (.inr (.inr hc))))
      rcases step_pc_ne hs hc with hpc | ⟨r, _, hr, _⟩
      · exact hpc.trans hk
      · have hon := h.owned_onCpu (.inr hd)
        rw [h.embryo_of hr] at hon; cases hon
  free := by
    intro p hp'
    by_cases hp : ∀ d, ¬ (s.cpu d).Owns p
    · exact h.free_kept hs hp hp'
    · obtain ⟨d, hd⟩ := not_forall_not.1 hp
      exact h.back_free hs (owns_lost hs hd (hp' d)).2
  ready := by
    intro p q k hb hk
    have hoff (he : s.state q = .embryo) : s.cpu c ≠ .running q := by
      intro hc
      have hon := h.onCpu (.inr (.inr hc))
      rw [he] at hon; cases hon
    have hq (he : s.state q = .embryo) (hq : s.pc q = .resume .forkret) : s'.pc q = .resume .forkret := by
      rcases step_pc_ne hs (hoff he) with h' | ⟨_, _, _, h'⟩
      · exact h'.trans hq
      · exact h'
    rcases Stacks.home_back hs hb rfl with hb | ⟨k₀, f, hc, hp, hs'⟩ | ⟨_, _, hb, _⟩
    · exact hq (h.embryo p q (Option.bind_eq_some_iff.2 ⟨_, hb, rfl⟩)) (h.ready p q k hb hk)
    · have he := h.embryo_of hp
      by_cases hk₀ : k₀.ready
      · exact hq he (h.ready p q k₀ (by rw [hp]; rfl) hk₀)
      · have hqp : q ≠ p := fun e => hoff he (e ▸ hc)
        rw [hs', Kernel.setPc_self] at hb
        rw [hs', Kernel.setPc_ne _ _ hqp]
        cases k₀ with
        | context => simp [forkCode, Kernel.store_pc]
        | nextpid | casPid | pid | kalloc | undo =>
          simp only [forkCode] at hb
          (try split at hb) <;> cases hb <;> cases hk
        | _ => exact absurd rfl hk₀
    · cases hb; cases hk
  claimed d q hd := h.claimed_kept hs hd
  oneClaim := by
    intro d e q hd he
    rcases h.claims_back hs hd with ⟨hd, _⟩ | ⟨rfl, hd, _⟩ <;>
      rcases h.claims_back hs he with ⟨he, _⟩ | ⟨rfl, he, _⟩
    · exact h.oneClaim d e q hd he
    · rw [(h.claimed d q hd).1] at he; cases he
    · rw [(h.claimed e q he).1] at hd; cases hd
    · rfl

end Owned

end Xv6
