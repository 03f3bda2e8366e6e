import Xv6.SleepWakeup
/-!
# Who owns a slot

Between `UNUSED` and its first run a slot belongs to the process that fills it in
`fork`; from `ZOMBIE` to `UNUSED` it belongs to the process that reaps it in
`wait`. The owner's place in the code says which, and also whose child the slot
is. These facts rest on the `cas` that take and give the slot, so they hold in
every run, also where two CPUs are on one stack.
-/

namespace Xv6

open Runs

variable {C : Type} {s s' : Kernel C} {c : C} {a : Act} {p q r : Slot}

/-! ## Places that own a slot -/

/-- The slot a thread in `wait` has taken from `ZOMBIE` and not yet freed. -/
def Pc.reaps : Pc → Option Slot
  | .wait (.pid i) | .wait (.parent i) | .wait (.killed i) | .wait (.run i) | .wait (.free i) => some i
  | _ => none

/-- The child that a thread in `wait` or `exit` has found in the table. -/
def Pc.minds : Pc → Option Slot
  | .wait (.spin i) | .wait (.reap i) | .wait (.pid i) | .wait (.parent i) | .exit (.reparent i) => some i
  | _ => none

/-- `fork` has not stored the child's parent. -/
def ForkPc.early : ForkPc → Bool
  | .mask | .pending | .handlers | .publish => false
  | _ => true

/-- The slot whose `parent` is null because of where the thread stands. -/
def Pc.clears : Pc → Option Slot
  | .wait (.killed i) | .wait (.run i) | .wait (.free i) => some i
  | k => match k.home with
    | some (.fork i f) => if f.early then some i else none
    | _ => none

structure Slots (s : Kernel C) : Prop where
  embryo : ∀ p q, (s.pc p).child = some q → s.state q = .embryo
  owner : ∀ p q r, (s.pc p).child = some r → (s.pc q).child = some r → p = q
  reaped : ∀ p q, (s.pc p).reaps = some q → s.state q = .preUnused
  reaper : ∀ p q r, (s.pc p).reaps = some r → (s.pc q).reaps = some r → p = q
  minded : ∀ p q, (s.pc p).minds = some q → s.parent q = some p
  cleared : ∀ p q, (s.pc p).clears = some q → s.parent q = none
  unused : ∀ q, s.state q = .unused → s.parent q = none

theorem slots_init : Slots (Kernel.init C) where
  embryo p q h := by cases h
  owner p q r h := by cases h
  reaped p q h := by cases h
  reaper p q r h := by cases h
  minded p q h := by cases h
  cleared p q h := by cases h
  unused q _ := rfl

/-! ## Steps into `wait` and `exit` -/

/-- A thread comes to a place of `wait` from another, or calls `wait`. -/
theorem Pc.Goes.wait_back {k : Pc} {w : WaitPc} (h : k.Goes s p (.wait w)) :
    w = .cas ∨ ∃ k₀, k = .wait k₀ ∧ (waitCode s p k₀).2 = .wait w := by
  generalize hk' : Pc.wait w = k' at h
  cases h with
  | base h => cases h <;> cases hk'; exact .inl rfl
  | wakeup1 =>
    rcases Wakeup.pc_cases _ _ _ with ⟨_, _, h⟩ | h | ⟨_, h⟩ | ⟨_, h⟩ | h <;> rw [h] at hk' <;> cases hk'
  | @exit k _ he =>
    subst hk'
    cases k <;> simp only [exitCode, exitNext, cas_same] at he <;> (repeat' split at he) <;> cases he
  | @wait k _ he => subst hk'; exact .inr ⟨k, rfl, he⟩
  | waited => cases hk'; exact .inl rfl
  | _ => cases hk'

section

variable [DecidableEq C]

theorem wait_back {w : WaitPc} (hs : step s (c, a) = some s') (hw : s'.pc p = .wait w) :
    s.pc p = .wait w ∨ w = .cas ∨ ∃ k, s.cpu c = .running p ∧ s.pc p = .wait k ∧ (waitCode s p k).2 = .wait w ∧
      s' = (s.store (waitCode s p k).1).setPc p (.wait w) := by
  rcases step_pc hs p with hpc | ⟨_, _, _, hpc⟩ | ⟨hc, ⟨_, _, hpc⟩ | hg⟩
  · exact .inl (hpc.symm.trans hw)
  · rw [hw] at hpc; cases hpc
  · rw [hw] at hpc; cases hpc
  · rw [hw] at hg
    rcases hg.wait_back with hg | ⟨k, hk, hg⟩
    · exact .inr (.inl hg)
    · exact .inr (.inr ⟨k, hc, hk, hg, hg ▸ step_wait hc hk hs⟩)

namespace Slots

/-! ## Slots being reaped -/

theorem reaps_back (hs : step s (c, a) = some s') (hr : (s'.pc p).reaps = some q) :
    (s.pc p).reaps = some q ∨ (s.cpu c = .running p ∧ s.state q = .zombie ∧ s'.state q = .preUnused) := by
  cases hk : s'.pc p with
  | wait w =>
    rw [hk] at hr
    rcases wait_back hs hk with hk | rfl | ⟨k, hc, hk₀, hw, rfl⟩
    · exact .inl (hk ▸ hr)
    · cases hr
    · rw [hk₀]
      cases k with
      | reap i =>
        simp only [waitCode, cas, waitNext] at hw ⊢
        split at hw
        · rename_i hz
          cases hw
          obtain rfl := Option.some.inj hr
          exact .inr ⟨hc, hz, by simp [hz, Kernel.store_state]⟩
        · split at hw <;> cases hw <;> cases hr
      | scan => simp only [waitCode, waitNext] at hw; (repeat' split at hw) <;> cases hw <;> cases hr
      | spin => simp only [waitCode] at hw; split at hw <;> cases hw <;> cases hr
      | run => simp only [waitCode, cas] at hw; split at hw <;> cases hw; exact .inl hr
      | free => simp only [waitCode, cas] at hw; split at hw <;> cases hw
      | check => simp only [waitCode] at hw; split at hw <;> cases hw; cases hr
      | fail => simp only [waitCode, cas] at hw; split at hw <;> cases hw; cases hr
      | cas => simp only [waitCode, cas_same] at hw; cases hw; cases hr
      | pid | parent | killed => cases hw; exact .inl hr
      | chan | clear => cases hw <;> cases hr
  | _ => rw [hk] at hr; cases hr

/-- A slot being reaped changes only when its reaper frees it. -/
theorem preUnused_kept (h : Slots s) (hs : step s (c, a) = some s') (hq : s.state q = .preUnused)
    (hq' : s'.state q ≠ .preUnused) : ∃ r, s.cpu c = .running r ∧ s.pc r = .wait (.free q) := by
  rcases step_state hs q with hst | hm
  · exact absurd (hst.trans hq) hq'
  rw [hq] at hm
  generalize s'.state q = w at hm
  cases hm with
  | free hc hk => exact ⟨_, hc, hk⟩
  | undo hc hk => rw [h.embryo _ q (by rw [hk]; rfl)] at hq; cases hq

theorem reaped_next (h : Slots s) (hs : step s (c, a) = some s') (hq : (s'.pc p).reaps = some q) :
    s'.state q = .preUnused := by
  rcases reaps_back hs hq with hq₀ | ⟨_, _, hq₀⟩
  · by_contra hne
    obtain ⟨r, hc, hk⟩ := h.preUnused_kept hs (h.reaped p q hq₀) hne
    obtain rfl : r = p := h.reaper r p q (by rw [hk]; rfl) hq₀
    -- once freed, the slot is not being reaped
    rw [step_wait hc hk hs, Kernel.setPc_self] at hq
    simp only [waitCode, cas] at hq
    split at hq <;> cases hq
  · exact hq₀

theorem reaper_next (h : Slots s) (hs : step s (c, a) = some s') (hp : (s'.pc p).reaps = some r)
    (hq : (s'.pc q).reaps = some r) : p = q := by
  rcases reaps_back hs hp with hp | ⟨hcp, hz, _⟩ <;> rcases reaps_back hs hq with hq | ⟨hcq, hz', _⟩
  · exact h.reaper p q r hp hq
  · rw [h.reaped p r hp] at hz'; cases hz'
  · rw [h.reaped q r hq] at hz; cases hz
  · rw [hcp] at hcq; cases hcq; rfl

/-! ## Parents -/

omit [DecidableEq C] in
/-- A step stores to `parent` of a slot the process fills, or of its own child. -/
theorem reparent_cases {v : Option Slot} (h : Slots s) (hr : Reparent s c q v) :
    (∃ r, s.cpu c = .running r ∧ s.pc r = .base (.fork q .parent) ∧ s.state q = .embryo ∧ s.parent q = none) ∨
    (∃ r, s.cpu c = .running r ∧ (s.pc r = .exit (.reparent q) ∨ s.pc r = .wait (.parent q)) ∧
      s.parent q = some r) := by
  cases hr with
  | @fork r hc hk =>
    exact .inl ⟨r, hc, hk, h.embryo r q (by rw [hk]; rfl), h.cleared r q (by rw [hk]; rfl)⟩
  | @exit r hc hk => exact .inr ⟨r, hc, .inl hk, h.minded r q (by rw [hk]; rfl)⟩
  | @wait r hc hk => exact .inr ⟨r, hc, .inr hk, h.minded r q (by rw [hk]; rfl)⟩

/-- Only its parent's own steps take a child from it. -/
theorem parent_kept (h : Slots s) (hs : step s (c, a) = some s') (hq : s.parent q = some p)
    (hp : s.pc p ≠ .exit (.reparent q) ∧ s.pc p ≠ .wait (.parent q)) : s'.parent q = some p := by
  rcases step_parent hs q with hsame | hr
  · exact hsame.trans hq
  rcases h.reparent_cases hr with ⟨r, _, _, _, hn⟩ | ⟨r, _, hk, hq'⟩
  · rw [hq] at hn; cases hn
  · obtain rfl := Option.some.inj (hq.symm.trans hq')
    exact (hk.elim hp.1 hp.2).elim

omit [DecidableEq C] in
theorem minds_back {k k' : Pc} (hg : k.Goes s p k') (hq : k'.minds = some q) :
    (s.parent q = some p ∧ (k = .exit (.scan q) ∨ ∃ h, k = .wait (.scan q h))) ∨
      (k.minds = some q ∧ k ≠ .exit (.reparent q) ∧ k ≠ .wait (.parent q)) := by
  cases k' with
  | wait w =>
    rcases hg.wait_back with rfl | ⟨k, rfl, hw⟩
    · cases hq
    · cases k with
      | scan i h =>
        simp only [waitCode, waitNext] at hw
        split at hw
        · cases hw; cases hq
          exact .inl ⟨‹_›, .inr ⟨h, rfl⟩⟩
        · split at hw <;> cases hw <;> cases hq
      | spin i => simp only [waitCode] at hw; split at hw <;> cases hw <;> exact .inr ⟨hq, by simp, by simp⟩
      | reap i =>
        simp only [waitCode, cas, waitNext] at hw
        split at hw
        · cases hw; exact .inr ⟨hq, by simp, by simp⟩
        · split at hw <;> cases hw <;> cases hq
      | pid i => cases hw; exact .inr ⟨hq, by simp, by simp⟩
      | _ => simp only [waitCode, cas] at hw; (repeat' split at hw) <;> cases hw <;> cases hq
  | exit e =>
    cases e with
    | reparent i =>
      obtain rfl : i = q := Option.some.inj hq
      generalize hk' : Pc.exit (.reparent i) = k' at hg
      cases hg with
      | base h => cases h <;> cases hk'
      | wakeup1 =>
        rcases Wakeup.pc_cases _ _ _ with ⟨_, _, h⟩ | h | ⟨_, h⟩ | ⟨_, h⟩ | h <;> rw [h] at hk' <;> cases hk'
      | @exit k _ he =>
        subst hk'
        cases k with
        | scan i =>
          simp only [exitCode, exitNext] at he
          split at he
          · cases he; exact .inl ⟨‹_›, .inl rfl⟩
          · split at he <;> cases he
        | _ => simp only [exitCode, exitNext, cas_same] at he; (repeat' split at he) <;> cases he
      | @wait k _ he =>
        subst hk'
        cases k <;> simp only [waitCode, waitNext, cas] at he <;> (repeat' split at he) <;> cases he
      | _ => cases hk'
    | _ => cases hq
  | _ => cases hq

theorem minded_next (h : Slots s) (hs : step s (c, a) = some s') (hq : (s'.pc p).minds = some q) :
    s'.parent q = some p := by
  rcases step_pc hs p with hpc | ⟨_, _, _, hpc⟩ | ⟨_, ⟨_, _, hpc⟩ | hg⟩
  · by_cases hk : s.pc p = .exit (.reparent q) ∨ s.pc p = .wait (.parent q)
    · -- such a place is left by the process's own step, so the step is another's
      rw [hpc] at hq
      have hpq := h.minded p q hq
      rcases step_parent hs q with hsame | hr
      · exact hsame.trans hpq
      rcases h.reparent_cases hr with ⟨r, _, _, _, hn⟩ | ⟨r, hc, hk', hq'⟩
      · rw [hpq] at hn; cases hn
      · obtain rfl := Option.some.inj (hpq.symm.trans hq')
        rcases hk' with hk' | hk'
        · rw [step_exit hc hk' hs, Kernel.setPc_self, hk'] at hpc; cases hpc
        · rw [step_wait hc hk' hs, Kernel.setPc_self, hk'] at hpc; cases hpc
    · rw [hpc] at hq
      exact h.parent_kept hs (h.minded p q hq) (not_or.1 hk)
  · rw [hpc] at hq; cases hq
  · rw [hpc] at hq; cases hq
  · rcases minds_back hg hq with ⟨hpq, hk⟩ | ⟨hm, hk⟩
    · exact h.parent_kept hs hpq (by rcases hk with hk | ⟨_, hk⟩ <;> simp [hk])
    · exact h.parent_kept hs (h.minded p q hm) hk

/-- A slot without a parent is given one by the process that fills it only. -/
theorem none_kept (h : Slots s) (hs : step s (c, a) = some s') (hq : s.parent q = none) :
    s'.parent q = none ∨ ∃ r, s.cpu c = .running r ∧ s.pc r = .base (.fork q .parent) := by
  rcases step_parent hs q with hsame | hr
  · exact .inl (hsame.trans hq)
  rcases h.reparent_cases hr with ⟨r, hc, hk, _⟩ | ⟨r, _, _, hq'⟩
  · exact .inr ⟨r, hc, hk⟩
  · rw [hq] at hq'; cases hq'

theorem unused_next (h : Slots s) (hs : step s (c, a) = some s') (hq : s'.state q = .unused) :
    s'.parent q = none := by
  -- the slot had no parent, and was not about to be given one
  have hn : s.parent q = none ∧ ∀ r, s.cpu c = .running r → s.pc r ≠ .base (.fork q .parent) := by
    rcases step_state hs q with hst | hm
    · have hu := hst.symm.trans hq
      refine ⟨h.unused q hu, fun r _ hk => ?_⟩
      rw [h.embryo r q (by rw [hk]; rfl)] at hu
      cases hu
    rw [hq] at hm
    generalize s.state q = v at hm
    cases hm with
    | @free r hc hk =>
      refine ⟨h.cleared r q (by rw [hk]; rfl), fun r' hc' hk' => ?_⟩
      rw [hc] at hc'; cases hc'
      rw [hk] at hk'; cases hk'
    | @undo r _ hc hk =>
      refine ⟨h.cleared r q (by rw [hk]; rfl), fun r' hc' hk' => ?_⟩
      rw [hc] at hc'; cases hc'
      rw [hk] at hk'; cases hk'
  rcases h.none_kept hs hn.1 with h' | ⟨r, hc, hk⟩
  · exact h'
  · exact absurd hk (hn.2 r hc)

omit [DecidableEq C] in
theorem clears_cases {k : Pc} (h : k.clears = some q) :
    (∃ w, k = .wait w ∧ (w = .killed q ∨ w = .run q ∨ w = .free q)) ∨
      ∃ f : ForkPc, k.home = some (.fork q f) ∧ f.early := by
  unfold Pc.clears at h
  split at h
  · cases h; exact .inl ⟨_, rfl, .inl rfl⟩
  · cases h; exact .inl ⟨_, rfl, .inr (.inl rfl)⟩
  · cases h; exact .inl ⟨_, rfl, .inr (.inr rfl)⟩
  · split at h
    · rename_i i f hf
      split at h
      · cases h; exact .inr ⟨f, hf, ‹_›⟩
      · cases h
    · cases h

omit [DecidableEq C] in
theorem clears_fork {k : Pc} {f : ForkPc} (h : k.home = some (.fork q f)) (hf : f.early) : k.clears = some q := by
  unfold Pc.clears
  split
  · cases h
  · cases h
  · cases h
  · simp [h, hf]

theorem cleared_wait (h : Slots s) (hs : step s (c, a) = some s') {w : WaitPc} (hk : s'.pc p = .wait w)
    (hw : w = .killed q ∨ w = .run q ∨ w = .free q) : s'.parent q = none := by
  have hq : (s'.pc p).reaps = some q := by rcases hw with rfl | rfl | rfl <;> rw [hk] <;> rfl
  have kept (hn : s.parent q = none) (hv : s.state q = .preUnused) : s'.parent q = none := by
    rcases h.none_kept hs hn with h' | ⟨r, _, hk⟩
    · exact h'
    · rw [h.embryo r q (by rw [hk]; rfl)] at hv; cases hv
  rcases wait_back hs hk with hk₀ | rfl | ⟨k, _, hk₀, hw', hs'⟩
  · exact kept (h.cleared p q (by rw [hk₀]; rcases hw with rfl | rfl | rfl <;> rfl))
      (h.reaped p q (by rw [hk₀]; rcases hw with rfl | rfl | rfl <;> rfl))
  · simp at hw
  · cases k with
    | parent i =>
      cases hw'
      obtain rfl : i = q := by simpa using hw
      rw [hs']
      simp [waitCode, Kernel.store_parent]
    | killed i =>
      cases hw'
      obtain rfl : i = q := by simpa using hw
      exact kept (h.cleared p i (by rw [hk₀]; rfl)) (h.reaped p i (by rw [hk₀]; rfl))
    | run i =>
      simp only [waitCode, cas] at hw'
      split at hw' <;> cases hw'
      obtain rfl : i = q := by simpa using hw
      exact kept (h.cleared p i (by rw [hk₀]; rfl)) (h.reaped p i (by rw [hk₀]; rfl))
    | _ => simp only [waitCode, waitNext, cas] at hw'; (repeat' split at hw') <;> cases hw' <;> simp at hw

theorem cleared_fork (h : Slots s) (hs : step s (c, a) = some s') {f : ForkPc}
    (hb : (s'.pc p).home = some (.fork q f)) (hf : f.early) : s'.parent q = none := by
  rcases Stacks.home_back hs hb rfl with hb₀ | ⟨k, fails, hc, hk, rfl⟩ | ⟨hc, hk, _, hu, _⟩
  · rcases h.none_kept hs (h.cleared p q (clears_fork hb₀ hf)) with h' | ⟨r, hc, hk⟩
    · exact h'
    · obtain rfl : r = p := h.owner r p q (by rw [hk]; rfl) (by rw [Pc.child, hb₀]; rfl)
      obtain ⟨i, rfl, ⟨hl, _⟩ | ⟨np, k, f', he, rfl⟩⟩ := step_base hc hk hs
      · rw [Kernel.setPc_parent, hl.parent]
        exact h.cleared r q (by rw [hk]; rfl)
      · cases he
        rw [Kernel.setPc_self] at hb
        cases hb
        cases hf
  · have hn : k.early → s.parent q = none := fun hk' => h.cleared p q (by rw [hk]; exact clears_fork rfl hk')
    simp only [Kernel.setPc_self] at hb
    cases k <;> simp only [forkCode, cas] at hb ⊢ <;> (try split at hb) <;> cases hb <;>
      first
      | exact absurd hf (by decide)
      | simpa [Kernel.store_parent, *] using hn rfl
  · rcases h.none_kept hs (h.unused q hu) with h' | ⟨r, hc', hk'⟩
    · exact h'
    · rw [hc] at hc'; cases hc'
      rw [hk] at hk'; cases hk'

theorem preserved (h : Slots s) (hs : step s (c, a) = some s') : Slots s' where
  embryo _ _ := Stacks.embryo_next h.embryo h.owner hs
  owner _ _ _ := Stacks.owner_next h.embryo h.owner hs
  reaped _ _ := h.reaped_next hs
  reaper _ _ _ := h.reaper_next hs
  minded _ _ := h.minded_next hs
  cleared p q hq := by
    rcases clears_cases hq with ⟨w, hk, hw⟩ | ⟨f, hb, hf⟩
    · exact h.cleared_wait hs hk hw
    · exact h.cleared_fork hs hb hf
  unused _ := h.unused_next hs

end Slots

/-- The invariant holds in every state of every run. -/
theorem slots_of_run {G : Kernel C → C × Act → Prop} (h : Run step G (Kernel.init C) s) : Slots s :=
  h.inv (fun s : Kernel C => Slots s) (fun _ _ _ hi _ hs => hi.preserved hs) slots_init

/-- In every run without late schedulers each `cas` whose failure is a panic succeeds, and
`sched` is not entered `RUNNING`. -/
theorem cas_succeeds (h : Run step (fun s l => ¬ s.Late l.1) (Kernel.init C) s) (c : C) :
    (∀ ch i k, s.Waking c ch i k → (wakeup1 s ch i k).2 ≠ .panic) ∧ ∀ p, s.cpu c = .running p →
      match s.pc p with
      | .wait k => (waitCode s p k).2 ≠ .panic
      | .sleep b ch l .cas => (sleepCode s p b ch l .cas).2 ≠ .panic
      | .base (.fork q .publish) => (forkCode s p q false .publish).2 ≠ .panic
      | .yield _ => s.state p = .running
      | .sched _ => s.state p ≠ .running
      | _ => True := by
  have ho : Owned s := h.inv (fun s : Kernel C => Owned s) (fun _ _ _ hi hl hs => hi.preserved hl hs) owned_init
  have hs := slots_of_run h
  refine ⟨fun ch i k hw => ?_, fun p hc => ?_⟩
  · have hq := fun e => ho.claimed c i ⟨ch, k, hw, .inr e⟩
    cases k <;> grind [wakeup1, wakeup1.next, cas]
  · have hv := ho.running c p hc
    have he := hs.embryo p
    have hr := hs.reaped p
    generalize s.pc p = k at *
    cases k with
    | wait w => cases w <;> simp_all [waitCode, waitNext, cas, Pc.states, WaitPc.state, Pc.reaps] <;> grind
    | base b =>
      cases b with
      | fork q f => cases f <;> simp_all [forkCode, cas, Pc.child, Pc.home, Base.child]
      | _ => trivial
    | sleep b ch l w => cases w <;> simp_all [sleepCode, cas, Pc.states, SleepPc.state]
    | sched k => cases k <;> simp_all [Pc.states, Cont.state]
    | yield => exact List.mem_singleton.1 hv
    | _ => trivial

end

theorem wakeup1_succeeds :
    ∃ s : Kernel (Fin 2), s.pc 1 = .wakeup1 (.base .sys) (.addr 7) 0 .runnable ∧
      (wakeup1 s (.addr 7) 0 .runnable).2 ≠ .panic := by
  have h : (exec (checked step fun s l => s.calm l.1) (Kernel.init (Fin 2)) (keptWakeup.take 57)).map
      (fun s => (s.cpu 1, s.pc 1)) = some (.running 1, .wakeup1 (.base .sys) (.addr 7) 0 .runnable) := by decide +kernel
  obtain ⟨s, hs, he⟩ := Option.map_eq_some_iff.1 h
  obtain ⟨hc, hk⟩ := Prod.mk.inj he
  exact ⟨s, hk, (cas_succeeds (run_of_checked (fun _ _ h => (Kernel.calm_spec h).1) hs) 1).1 _ _ _ (.inr ⟨1, _, hc, hk⟩)⟩

end Xv6
