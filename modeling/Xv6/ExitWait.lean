import Xv6.SleepWakeup
/-!
# Exits that a waiting parent is told of

A child in `exit` sets itself to `-ZOMBIE` and then calls `wakeup1` for its
parent. The parent in `wait` sets itself to `-SLEEPING` and stores its channel
before it looks at its children. So either the parent still comes to the child
(`WillSee`), or some thread in `exit` still comes to the parent (`WillTell`):
the child itself, or a process that has handed the child to `init`.

What loses a notification is the window between the two reads of `state` in
`wakeup1` (`SplitRead`).
-/

namespace Xv6

open Runs

variable {C : Type} {s s' : Kernel C} {c d : C} {a : Act} {p q r : Slot} {ch : Chan}

/-- In a call of `exit` that has not yet given up its stack. -/
def Pc.inExit : Pc → Bool
  | .exit _ | .wakeup1 .exitParent _ _ _ | .wakeup1 (.exitChild _) _ _ _ | .sched .exit | .swtch .exit => true
  | k => k.home = some .exiting

/-- Process `p` is asleep in `wait`, its child `q` is a zombie, and no other
process is in `exit`. -/
def Kernel.Unnoticed (s : Kernel C) (p q : Slot) : Prop :=
  s.state p = .sleeping ∧ (s.pc p).inWait ∧ s.parent q = some p ∧ s.state q = .zombie ∧
    ∀ r, r ≠ p → r ≠ q → ¬ (s.pc r).inExit

/-! ## Who will notice -/

/-- In `wait`, from the store of the channel to the return from `sched`. -/
def Pc.waiting : Pc → Bool
  | .wait .chan | .wait (.scan _ _) | .wait (.spin _) | .wait (.reap _) | .wait (.check _)
  | .sched .wait | .swtch .wait | .resume (.cont .wait) => true
  | _ => false

/-- Process `p`, at `k` in `wait`, has still to look at child `q`. -/
def Kernel.WillSee (s : Kernel C) (q : Slot) : Pc → Prop
  | .wait .chan => True
  | .wait (.scan i _) | .wait (.spin i) => i ≤ q
  | .wait (.reap i) => i < q ∨ (i = q ∧ s.state q = .zombie)
  | _ => False

/-- Thread `r`, at `k` in `exit`, has still to wake `p` for its child `q`. -/
def Kernel.WillTell (s : Kernel C) (p q r : Slot) : Pc → Prop
  | .exit .parent => r = q
  | .exit (.spin i) => i = q ∧ p = initproc
  | .exit (.zombie i) => i = q ∧ p = initproc ∧ s.state q = .zombie
  | .wakeup1 .exitParent ch i k => ch = .proc p ∧ s.NotPast p i k
  | .wakeup1 (.exitChild _) ch i k => ch = .proc p ∧ s.NotPast p i k
  | _ => False

def PState.dying : PState → Bool
  | .negZombie | .zombie => true
  | _ => false

/-- Somebody will notice every child that is dying. -/
def Kernel.Noticed (s : Kernel C) (p q : Slot) : Prop :=
  (s.pc p).waiting → (s.state p).asleep → s.parent q = some p → (s.state q).dying →
    s.WillSee q (s.pc p) ∨ ∃ r, s.WillTell p q r (s.pc r)

section

variable [DecidableEq C]

theorem dying_kept (hs : step s (c, a) = some s') (hq : s.state q = .zombie) (hq' : (s'.state q).dying) :
    s'.state q = .zombie := by
  rcases step_state hs q with hst | hm
  · exact hst.trans hq
  rw [hq] at hm
  generalize s'.state q = v at hm hq'
  cases hm <;> cases hq'

/-- Only its own `exit` makes a process die. -/
theorem dying_back (hs : step s (c, a) = some s') (hq : (s'.state q).dying) :
    (s.state q).dying ∨ (s.cpu c = .running q ∧ s.pc q = .exit .cas) := by
  rcases step_state hs q with hst | hm
  · exact .inl (hst ▸ hq)
  generalize s.state q = v at hm
  generalize s'.state q = v' at hm hq
  cases hm with
  | toZombie => exact .inl rfl
  | exit hc hk => exact .inr ⟨hc, hk⟩
  | _ => cases hq

omit [DecidableEq C] in
theorem willSee_next {i : Slot} {h : Bool} (hi : i < q) : s.WillSee q (waitNext i h) := by
  unfold waitNext
  split
  · rename_i j hj
    exact le_of_nextSlot hj hi
  · rename_i hj
    exact absurd hi (not_lt_of_ge (le_of_nextSlot_none hj q))

omit [DecidableEq C] in
theorem Wakeup.waiting_pc (w : Wakeup) (ret : Ret) (ch : Chan) : (w.pc ret ch).waiting = false := by
  rcases w.pc_cases ret ch with ⟨_, _, h⟩ | h | ⟨_, h⟩ | ⟨_, h⟩ | h <;> rw [h] <;> rfl

omit [DecidableEq C] in
theorem willSee_congr {k : Pc} (h : s'.state q = s.state q) (hk : s.WillSee q k) : s'.WillSee q k := by
  cases k with
  | wait k => cases k <;> first | exact hk | exact hk.imp_right (And.imp_right h.trans)
  | _ => exact hk

theorem willSee_kept {k : Pc} (hs : step s (c, a) = some s') (hd : (s'.state q).dying) (hk : s.WillSee q k) :
    s'.WillSee q k := by
  cases k with
  | wait k => cases k <;> first | exact hk | exact hk.imp_right (And.imp_right fun hz => dying_kept hs hz hd)
  | _ => exact hk

omit [DecidableEq C] in
theorem waitCode_waiting {k : WaitPc} (hw : (waitCode s p k).2.waiting) :
    (waitCode s p k).2 = .wait .chan ∨
      ((Pc.wait k).waiting ∧ (∀ q, (s.store (waitCode s p k).1).state q = s.state q) ∧
        (∀ q, (s.store (waitCode s p k).1).parent q = s.parent q) ∧
        ∀ q, s.parent q = some p → (s.state q).dying → s.WillSee q (.wait k) →
          s.WillSee q (waitCode s p k).2) := by
  cases k with
  | cas => exact .inl (by simp [waitCode])
  | chan =>
    exact .inr ⟨rfl, fun q => by simp [waitCode, Kernel.store_state], fun q => by simp [waitCode, Kernel.store_parent],
      fun q _ _ _ => Fin.zero_le q⟩
  | scan i h =>
    refine .inr ⟨rfl, fun _ => rfl, fun _ => rfl, fun q hq _ hi => ?_⟩
    simp only [waitCode]
    split
    · exact hi
    · rename_i hne
      exact willSee_next (lt_of_le_of_ne hi fun e => hne (e ▸ hq))
  | spin i =>
    refine .inr ⟨rfl, fun _ => rfl, fun _ => rfl, fun q _ hq hi => ?_⟩
    simp only [waitCode]
    split
    · exact hi
    · rename_i hne
      refine (lt_or_eq_of_le hi).imp_right fun e => ⟨e, ?_⟩
      subst e
      generalize s.state i = v at hne hq
      cases v <;> simp_all [PState.dying]
  | reap i =>
    simp only [waitCode, cas] at hw ⊢
    split at hw
    · cases hw
    · rename_i hne
      simp only [hne, if_false]
      refine .inr ⟨rfl, fun _ => rfl, fun _ => rfl, fun q _ hq hi => ?_⟩
      rcases hi with hi | ⟨rfl, hz⟩
      · exact willSee_next hi
      · exact absurd hz hne
  | check h =>
    exact .inr ⟨rfl, fun _ => rfl, fun _ => rfl, fun q _ _ hi => hi.elim⟩
  | _ => simp only [waitCode, cas] at hw; (repeat' split at hw) <;> cases hw

/-- A step of the waiting process starts the scan, or comes no further than the
children it has looked at. -/
theorem waiting_step (hc : s.cpu c = .running p) (hs : step s (c, a) = some s') (hw : (s'.pc p).waiting) :
    s'.pc p = .wait .chan ∨
      ((s.pc p).waiting ∧ (∀ q, s'.state q = s.state q) ∧ (∀ q, s'.parent q = s.parent q) ∧
        ∀ q, s.parent q = some p → (s.state q).dying → s.WillSee q (s.pc p) → s'.WillSee q (s'.pc p)) := by
  rcases step_running hc hs with ⟨k, hk, rfl⟩ | ⟨i, hi, rfl⟩
  · simp only [Kernel.setCpu_pc, Kernel.setPc_self] at hw ⊢
    cases k with
    | wait => rw [hk]; exact .inr ⟨rfl, fun _ => rfl, fun _ => rfl, fun _ _ _ h => h.elim⟩
    | _ => cases hw
  have hg := procCode_goes hc hi
  simp only [Kernel.setPc_self] at hw ⊢
  generalize hk : s.pc p = k at hi hg
  generalize hk' : i.2 = k' at hg hw
  cases hg with
  | base hg => cases hg <;> cases hw
  | @sched k =>
    obtain rfl := Option.some.inj hi
    cases k with
    | wait => exact .inr ⟨rfl, fun _ => rfl, fun _ => rfl, fun _ _ _ h => h.elim⟩
    | _ => cases hw
  | wakeup1 => rw [Wakeup.waiting_pc] at hw; cases hw
  | @exit k _ he =>
    subst he
    cases k <;> simp only [exitCode, exitNext, cas] at hw <;> (repeat' split at hw) <;> cases hw
  | @wait k _ he =>
    obtain rfl := Option.some.inj hi
    subst he
    rcases waitCode_waiting hw with h | ⟨hk, hst, hpa, hsee⟩
    · exact .inl h
    · exact .inr ⟨hk, hst, hpa, fun q hq hd h => willSee_congr (hst q) (hsee q hq hd h)⟩
  | _ => cases hw

/-- A step of a thread in `exit` takes it on towards a parent that stays asleep. -/
theorem Sleepers.willTell_step (h : Sleepers s) (hs : step s (c, a) = some s') (hc : s.cpu c = .running r)
    (ht : s.WillTell p q r (s.pc r)) (hch : s.chan p = .proc p) (hq : s.parent q = some p)
    (hd : (s.state q).dying) (hp : (s'.state p).asleep) : s'.WillTell p q r (s'.pc r) := by
  generalize hk : s.pc r = k at ht
  cases k with
  | exit k =>
    obtain rfl := step_exit hc hk hs
    rw [Kernel.setPc_self]
    cases k with
    | parent =>
      obtain rfl := ht
      simp only [exitCode, hq]
      exact ⟨rfl, Fin.zero_le p⟩
    | spin i =>
      obtain ⟨rfl, rfl⟩ := ht
      simp only [exitCode]
      split
      · exact ⟨rfl, rfl⟩
      · rename_i hne
        refine ⟨rfl, rfl, ?_⟩
        simp only [Kernel.store, Kernel.setPc_state]
        generalize s.state i = v at hne hd
        cases v <;> simp_all [PState.dying]
    | zombie i =>
      obtain ⟨rfl, rfl, hz⟩ := ht
      simp only [exitCode, hz, if_true]
      exact ⟨rfl, Fin.zero_le _⟩
    | _ => exact ht.elim
  | wakeup1 ret ch i k =>
    have hn : ch = .proc p ∧ s.NotPast p i k := by cases ret <;> first | exact ht | exact ht.elim
    obtain ⟨j, k', hj, hn'⟩ := h.notPast_step hs hc hk hn.2 (fun _ _ => hn.1 ▸ hch) hp
    rw [hj]
    cases ret <;> first | exact ⟨hn.1, hn'⟩ | exact ht.elim
  | _ => exact ht.elim

theorem willTell_kept (hs : step s (c, a) = some s') {k : Pc} (ht : s.WillTell p q r k) (hp : (s.state p).asleep)
    (hp' : (s'.state p).asleep) (hd : (s'.state q).dying) : s'.WillTell p q r k := by
  cases k with
  | exit k =>
    cases k with
    | zombie i => exact ⟨ht.1, ht.2.1, dying_kept hs ht.2.2 hd⟩
    | _ => exact ht
  | wakeup1 ret ch i k =>
    cases ret with
    | base => exact ht.elim
    | _ => exact ⟨ht.1, notPast_kept hs ht.2 hp hp'⟩
  | _ => exact ht.elim

omit [DecidableEq C] in
theorem willTell_runs (h : Stacks s) (ht : s.WillTell p q r (s.pc r)) : ∃ d, s.cpu d = .running r :=
  h.runs_of_pc fun k hk => by rw [hk] at ht; exact ht.elim

omit [DecidableEq C] in
theorem sleepsOn_of_waiting {k : Pc} (hk : k.waiting) (hne : k ≠ .wait .chan) : k.sleepsOn p = some (.proc p) := by
  cases k with
  | wait k => cases k <;> first | rfl | exact absurd rfl hne | cases hk
  | sched k | swtch k => cases k <;> first | rfl | cases hk
  | resume k => rcases k with _ | ⟨⟨⟩⟩ <;> first | rfl | cases hk
  | _ => cases hk

namespace Sleepers

/-- A thread that is to wake `p` stays on its way while another takes a step. -/
theorem willTell_other (h : Sleepers s) (hs : step s (c, a) = some s') (hc : s.cpu c ≠ .running r)
    (ht : s.WillTell p q r (s.pc r)) (hp : (s.state p).asleep) (hp' : (s'.state p).asleep)
    (hd : (s'.state q).dying) : s'.WillTell p q r (s'.pc r) := by
  obtain ⟨d, hr⟩ := willTell_runs h.toStacks ht
  rw [h.pc_kept hs hc hr]
  exact willTell_kept hs ht hp hp' hd

/-- The steps of other threads than `p`. -/
theorem noticed_other (h : Sleepers s) (hn : s.Noticed p q) (hs : step s (c, a) = some s')
    (hc : s.cpu c ≠ .running p) : s'.Noticed p q := by
  intro hw hp hq hd
  have hp₀ := asleep_back hs hc hp
  have hpc : s'.pc p = s.pc p := by
    rcases step_pc_ne hs hc with hpc | ⟨_, _, _, hpc⟩
    · exact hpc
    · rw [hpc] at hw; cases hw
  rcases step_parent hs q with hq₀ | hr
  · rw [hq₀] at hq
    rcases dying_back hs hd with hd₀ | ⟨hcq, hk⟩
    · rw [hpc] at hw ⊢
      rcases hn hw hp₀ hq hd₀ with hsee | ⟨r, ht⟩
      · exact .inl (willSee_kept hs hd hsee)
      · by_cases hchan : s.pc p = .wait .chan
        · rw [hchan]; exact .inl trivial
        · have hch := h.chan p _ (sleepsOn_of_waiting hw hchan) hp₀
          by_cases hcr : s.cpu c = .running r
          · exact .inr ⟨r, h.willTell_step hs hcr ht hch hq hd₀ hp⟩
          · exact .inr ⟨r, h.willTell_other hs hcr ht hp₀ hp hd⟩
    · refine .inr ⟨q, ?_⟩
      obtain rfl := step_exit hcq hk hs
      simp only [Kernel.setPc_self, exitCode, cas_same]
      rfl
  · rw [hq] at hr
    generalize hv : some p = v at hr
    cases hr with
    | fork hcr => cases hv; exact absurd hcr hc
    | @exit r hcr hk =>
      cases hv
      refine .inr ⟨r, ?_⟩
      obtain rfl := step_exit hcr hk hs
      rw [Kernel.setPc_self]
      exact ⟨rfl, rfl⟩
    | wait => cases hv

/-- What is noticed stays noticed. -/
theorem noticed_preserved (h : Sleepers s) (hn : s.Noticed p q) (hs : step s (c, a) = some s') :
    s'.Noticed p q := by
  by_cases hc : s.cpu c = .running p
  · intro hw hp hq hd
    rcases waiting_step hc hs hw with hk | ⟨hw₀, hst, hpa, hsee⟩
    · rw [hk]; exact .inl trivial
    · rw [hpa] at hq
      rcases hn hw₀ (hst p ▸ hp) hq (hst q ▸ hd) with hsee₀ | ⟨r, ht⟩
      · exact .inl (hsee q hq (hst q ▸ hd) hsee₀)
      · have hcr : s.cpu c ≠ .running r := by
          intro hcr
          rw [hc] at hcr
          cases hcr
          generalize s.pc p = k at hw₀ ht
          cases k <;> first | exact ht.elim | cases hw₀
        exact .inr ⟨r, h.willTell_other hs hcr ht (hst p ▸ hp) hp hd⟩
  · exact h.noticed_other hn hs hc

end Sleepers

/-- In every run without late schedulers and split reads, no process sleeps in
`wait` on a zombie child that nobody will tell it of. -/
theorem exit_noticed (h : Run step (fun s l => ¬ s.Late l.1 ∧ ¬ s.SplitRead l.1) (Kernel.init C) s) (p q : Slot) :
    ¬ s.Unnoticed p q := by
  rintro ⟨hp, hin, hq, hz, hno⟩
  have hinv : Sleepers s ∧ ∀ p q, s.Noticed p q := by
    refine h.inv (fun s : Kernel C => Sleepers s ∧ ∀ p q, s.Noticed p q) ?_
      ⟨sleepers_init, fun p q hw => by cases hw⟩
    rintro t ⟨c, a⟩ t' ⟨hsl, hn⟩ ⟨hl, hg⟩ hs
    exact ⟨hsl.preserved hl hg hs, fun p q => hsl.noticed_preserved (hn p q) hs⟩
  obtain ⟨hsl, hn⟩ := hinv
  obtain ⟨kp, hkp⟩ := hsl.resume_of_not_onCpu (p := p) (by rw [hp]; simp [PState.onCpu])
  obtain ⟨kq, hkq⟩ := hsl.resume_of_not_onCpu (p := q) (by rw [hz]; simp [PState.onCpu])
  have hw : (s.pc p).waiting := by
    rw [hkp] at hin ⊢
    rcases kp with _ | ⟨⟨⟩⟩ <;> first | rfl | cases hin
  rcases hn p q hw (by rw [hp]; rfl) hq (by rw [hz]; rfl) with hsee | ⟨r, ht⟩
  · rw [hkp] at hsee; exact hsee
  · refine hno r ?_ ?_ ?_
    · rintro rfl; rw [hkp] at ht; exact ht
    · rintro rfl; rw [hkq] at ht; exact ht
    · generalize s.pc r = k at ht
      cases k with
      | exit => rfl
      | wakeup1 ret => cases ret <;> first | rfl | exact ht.elim
      | _ => exact ht.elim

end

/-- `init` has looked at its table in `wait` and is about to call `sched` when
the child exits. The child's `wakeup1` reads `init`'s state as not `SLEEPING`;
the scheduler sets it from `-SLEEPING` to `SLEEPING`; the child then reads it
as not `-SLEEPING`, and goes on. -/
def lostExit : List (Fin 2 × Act) :=
  forked ++ [(0, .wait)] ++ cpuSteps 0 68 ++ [(1, .exit)] ++ cpuSteps 1 5 ++ cpuSteps 0 6 ++ cpuSteps 1 133

theorem lostExit_unnoticed :
    ¬ ∀ ls s, exec step (Kernel.init (Fin 2)) ls = some s → ∀ p q, ¬ s.Unnoticed p q := by
  intro h
  have hrun : (exec step (Kernel.init (Fin 2)) lostExit).map (fun s => (s.state 0, (s.pc 0).inWait, s.parent 1,
    s.state 1, decide (∀ r, ¬ (s.pc r).inExit))) = some (.sleeping, true, some 0, .zombie, true) := by decide +kernel
  obtain ⟨s, hs, he⟩ := Option.map_eq_some_iff.1 hrun
  simp only [Prod.mk.injEq, decide_eq_true_eq] at he
  exact h lostExit s hs 0 1 ⟨he.1, he.2.1, he.2.2.1, he.2.2.2.1, fun r _ _ => he.2.2.2.2 r⟩

/-- `init` is asleep in `wait` before the child exits, and is woken. -/
def keptExit : List (Fin 2 × Act) :=
  forked ++ [(0, .wait)] ++ cpuSteps 0 74 ++ [(1, .exit)] ++ cpuSteps 1 142

theorem keptExit_noticed :
    ∃ s, exec step (Kernel.init (Fin 2)) keptExit = some s ∧ s.parent 1 = some 0 ∧ s.state 1 = .zombie ∧
      ∀ p q, ¬ s.Unnoticed p q := by
  have hrun : (exec (checked step fun s l => s.calm l.1) (Kernel.init (Fin 2)) keptExit).map
    (fun s => (s.parent 1, s.state 1)) = some (some 0, .zombie) := by decide +kernel
  obtain ⟨s, hs, he⟩ := Option.map_eq_some_iff.1 hrun
  obtain ⟨hp, hz⟩ := Prod.mk.inj he
  have hG (s : Kernel (Fin 2)) (l : Fin 2 × Act) (h : s.calm l.1) : ¬ s.Late l.1 ∧ ¬ s.SplitRead l.1 :=
    ⟨(Kernel.calm_spec h).1, (Kernel.calm_spec h).2.2⟩
  exact ⟨s, exec_of_checked hs, hp, hz, exit_noticed (run_of_checked hG hs)⟩

end Xv6
