import Xv6.Scheduler
/-!
# Sleepers and wakers

`wakeup1` looks at a sleeper three times: it reads `chan`, then `state` against
`SLEEPING`, then `state` against `-SLEEPING`. Two windows lose a wakeup. `sleep`
releases its lock before it stores `chan`, so a waker may read the old channel
(`EarlyRead`); and the scheduler may set the sleeper from `-SLEEPING` to
`SLEEPING` between the two reads of `state` (`SplitRead`).

`Watch` follows one call of `sleep` and one process that takes the lock after
it was released and calls `wakeup`.
-/

namespace Xv6

open Runs

variable {C : Type} {s s' : Kernel C} {c d : C} {a : Act} {p q r : Slot} {ch : Chan} {l : Lock}

/-! ## Channels of sleepers -/

def Cont.sleepsOn (p : Slot) : Cont → Option Chan
  | .sleep _ ch _ => some ch
  | .wait => some (.proc p)
  | .yield _ | .exit => none

def WaitPc.sleepsOn (p : Slot) : WaitPc → Option Chan
  | .cas | .chan | .free _ | .clear => none
  | .scan _ _ | .spin _ | .reap _ | .pid _ | .parent _ | .killed _ | .run _ | .check _ | .fail => some (.proc p)

/-- The channel that process `p` has stored when it is about to sleep. -/
def Pc.sleepsOn (p : Slot) : Pc → Option Chan
  | .sched k | .swtch k | .resume (.cont k) => k.sleepsOn p
  | .wait k => k.sleepsOn p
  | .base _ | .yield _ | .resume .forkret | .sleep _ _ _ _ | .wakeup1 _ _ _ _ | .kill _ _ _ _ | .exit _
  | .allocproc _ | .panic => none

def PState.asleep : PState → Bool
  | .sleeping | .negSleeping => true
  | _ => false

/-- A waker that has read a state other than `SLEEPING` stands before its second
read while CPU `c` is about to set the process to `SLEEPING`. -/
def Kernel.SplitRead (s : Kernel C) (c : C) : Prop :=
  ∃ p, s.cpu c = .sched (.sleeping p) ∧ s.state p = .negSleeping ∧ ∃ d ch, s.Waking d ch p .negSleeping

structure Sleepers (s : Kernel C) : Prop extends Owned s where
  chan : ∀ p ch, (s.pc p).sleepsOn p = some ch → (s.state p).asleep → s.chan p = ch
  unsplit : ∀ c ch q, s.Waking c ch q .negSleeping → s.state q ≠ .sleeping

theorem sleepers_init : Sleepers (Kernel.init C) where
  toOwned := owned_init
  chan p ch h := by cases h
  unsplit c ch q h := by rcases h with h | ⟨p, r, h, _⟩ <;> simp [Kernel.init] at h

theorem Base.Goes.sleepsOn {b : Base} {k : Pc} (h : b.Goes p k) (q : Slot) : k.sleepsOn q = none := by
  cases h <;> rfl

theorem Wakeup.sleepsOn_pc (w : Wakeup) (ret : Ret) (ch : Chan) (q : Slot) : (w.pc ret ch).sleepsOn q = none := by
  rcases w.pc_cases ret ch with ⟨_, _, h⟩ | h | ⟨_, h⟩ | ⟨_, h⟩ | h <;> rw [h] <;> rfl

/-- A process about to sleep has just stored its channel, or had stored it. -/
theorem procCode_sleepsOn {i : Store × Pc} (hc : s.cpu c = .running p) (hv : s.state p ∈ (s.pc p).states)
    (h : procCode s p a (s.pc p) = some i) (hi : i.2.sleepsOn p = some ch) :
    (s.store i.1).chan p = ch ∨
      ((s.pc p).sleepsOn p = some ch ∧ s.state p = .negSleeping ∧ (s.store i.1).chan p = s.chan p) := by
  have hg := procCode_goes hc h
  generalize hk' : i.2 = k' at hg hi
  generalize s.pc p = k at h hv hg
  cases hg with
  | base hg => rw [hg.sleepsOn p] at hi; cases hi
  | @sched k =>
    obtain rfl := Option.some.inj h
    refine .inr ⟨hi, ?_, rfl⟩
    cases k <;> simp_all [Pc.sleepsOn, Cont.sleepsOn, Pc.states, Cont.state]
  | sleep =>
    cases hi
    obtain rfl := Option.some.inj h
    exact .inl (by simp [sleepCode, Kernel.store_chan])
  | wakeup1 => rw [Wakeup.sleepsOn_pc] at hi; cases hi
  | @exit k _ he =>
    subst he
    cases k <;> simp only [exitCode, exitNext, cas] at hi <;> (repeat' split at hi) <;> cases hi
  | @wait k _ he =>
    subst he
    obtain rfl := Option.some.inj h
    replace hv : s.state p = k.state := List.mem_singleton.1 hv
    cases k with
    | chan => cases hi; exact .inl (by simp [waitCode, Kernel.store_chan])
    | cas | free | clear => simp only [waitCode, cas] at hi; (repeat' split at hi) <;> cases hi
    | _ =>
      right
      simp only [waitCode, waitNext, cas] at hi ⊢
      (repeat' split at hi) <;> cases hi <;>
        exact ⟨rfl, hv, by (repeat' split) <;> simp [Kernel.store_chan]⟩
  | _ => cases hi

section

variable [DecidableEq C]

/-- No step of another CPU puts a process to sleep that was not about to. -/
theorem asleep_back (hs : step s (c, a) = some s') (hc : s.cpu c ≠ .running p) (hp : (s'.state p).asleep) :
    (s.state p).asleep := by
  rcases step_state hs p with hst | hm
  · exact hst ▸ hp
  generalize s.state p = v at hm
  generalize s'.state p = v' at hm hp
  cases hm <;> first | contradiction | rfl

/-- No step of another CPU stores to the channel of a sleeper. -/
theorem Owned.chan_kept (h : Owned s) (hs : step s (c, a) = some s') (hc : s.cpu c ≠ .running p)
    (hp : (s'.state p).asleep) : s'.chan p = s.chan p := by
  rcases step_chan hs p with hch | hr
  · exact hch
  have hp' := asleep_back hs hc hp
  generalize s'.chan p = ch' at hr
  cases hr with
  | clear hw =>
    -- between its two `cas` a waker holds the process at `-RUNNABLE`
    rw [(h.claimed c p ⟨_, _, hw, .inl rfl⟩).1] at hp'
    cases hp'
  | _ => contradiction

namespace Sleepers

theorem chan_preserved (h : Sleepers s) (hs : step s (c, a) = some s') (hk : (s'.pc p).sleepsOn p = some ch)
    (hp : (s'.state p).asleep) : s'.chan p = ch := by
  by_cases hc : s.cpu c = .running p
  · have hv := h.running c p hc
    rcases step_running hc hs with ⟨k, hk', rfl⟩ | ⟨i, hi, rfl⟩
    · simp only [Kernel.setCpu_pc, Kernel.setPc_self] at hk
      exact h.chan p ch (by rw [hk']; exact hk) hp
    · simp only [Kernel.setPc_self] at hk
      rcases procCode_sleepsOn hc hv hi hk with hch | ⟨hch, hv, hsame⟩
      · exact hch
      · exact hsame.trans (h.chan p ch hch (by rw [hv]; rfl))
  · rw [h.chan_kept hs hc hp]
    rcases step_pc_ne hs hc with hpc | ⟨_, _, _, hpc⟩ <;> rw [hpc] at hk
    · exact h.chan p ch hk (asleep_back hs hc hp)
    · cases hk

theorem unsplit_preserved (h : Sleepers s) (hg : ¬ s.SplitRead c) (hs : step s (c, a) = some s')
    (hw : s'.Waking d ch q .negSleeping) : s'.state q ≠ .sleeping := by
  by_cases hd : d = c
  · subst hd
    rcases h.waking_back hs hw with ⟨_, hk⟩ | ⟨i, k, _, hp, hs'⟩
    · cases hk
    · cases k <;> simp only [wakeup1, wakeup1.next, cas] at hp hs' <;> (repeat' split at hp) <;> cases hp
      simpa only [Kernel.state, hs', Kernel.store] using ‹s.state q ≠ .sleeping›
  · have hw := (h.waking_other hs hd).1 hw
    intro hsl
    rcases step_state hs q with hst | hm
    · exact h.unsplit d ch q hw (hst.symm.trans hsl)
    rw [hsl] at hm
    generalize hv : s.state q = v at hm
    cases hm with
    | toSleeping hc => exact hg ⟨q, hc, hv, d, ch, hw⟩

/-- Without late schedulers and split reads the invariant is kept. -/
theorem preserved (h : Sleepers s) (hl : ¬ s.Late c) (hg : ¬ s.SplitRead c) (hs : step s (c, a) = some s') :
    Sleepers s' where
  toOwned := h.toOwned.preserved hl hs
  chan _ _ hk hp := h.chan_preserved hs hk hp
  unsplit _ _ _ hw := h.unsplit_preserved hg hs hw

end Sleepers

end

/-! ## A waker on its way to a sleeper -/

/-- A waker at entry `i` has still to wake process `p`, if it finds it asleep. -/
def Kernel.NotPast (s : Kernel C) (p i : Slot) : WakeupPc → Prop
  | .chan | .sleeping | .negSleeping | .spin => i ≤ p
  | .cas => i < p ∨ (i = p ∧ s.state p ≠ .negSleeping)
  | .clear | .runnable => i < p

section

variable [DecidableEq C]

theorem sleeping_kept (hs : step s (c, a) = some s') (hp : s.state p = .sleeping) (hp' : (s'.state p).asleep) :
    s'.state p = .sleeping := by
  rcases step_state hs p with hst | hm
  · exact hst.trans hp
  rw [hp] at hm
  generalize s'.state p = v' at hm hp'
  cases hm <;> cases hp'

/-- Steps of other threads do not let a waker pass a sleeper. -/
theorem notPast_kept {i : Slot} {k : WakeupPc} (hs : step s (c, a) = some s') (hn : s.NotPast p i k)
    (hp : (s.state p).asleep) (hp' : (s'.state p).asleep) : s'.NotPast p i k := by
  cases k with
  | cas =>
    refine Or.imp_right (And.imp_right fun hne => ?_) hn
    have hsl : s.state p = .sleeping := by
      generalize s.state p = v at hne hp
      cases v <;> simp_all [PState.asleep]
    rw [sleeping_kept hs hsl hp']
    simp
  | _ => exact hn

omit [DecidableEq C] in
theorem notPast_next {i : Slot} {w : Wakeup} (hw : wakeup1.next i = w) (hi : i < p) :
    ∃ j k, w = .place j k ∧ s.NotPast p j k := by
  unfold wakeup1.next at hw
  split at hw
  · rename_i j hj
    exact ⟨j, .chan, hw.symm, le_of_nextSlot hj hi⟩
  · rename_i hj
    exact absurd hi (not_lt_of_ge (le_of_nextSlot_none hj p))

/-- A step of the waker that leaves the process asleep does not pass it. -/
theorem Sleepers.notPast_step {ret : Ret} {i : Slot} {k : WakeupPc} (h : Sleepers s) (hs : step s (c, a) = some s')
    (hc : s.cpu c = .running q) (hq : s.pc q = .wakeup1 ret ch i k) (hn : s.NotPast p i k)
    (hch : i = p → k = .chan → s.chan p = ch) (hp : (s'.state p).asleep) :
    ∃ j k', s'.pc q = .wakeup1 ret ch j k' ∧ s'.NotPast p j k' := by
  obtain rfl := step_wakeup1 hc hq hs
  suffices ∃ j k', (wakeup1 s ch i k).2 = .place j k' ∧
      ((s.store (wakeup1 s ch i k).1).setPc q ((wakeup1 s ch i k).2.pc ret ch)).NotPast p j k' by
    obtain ⟨j, k', hj, hn⟩ := this
    exact ⟨j, k', by rw [Kernel.setPc_self, hj]; rfl, hn⟩
  simp only [Kernel.setPc_state] at hp
  cases k with
  | chan =>
    simp only [wakeup1]
    split
    · exact ⟨i, .sleeping, rfl, hn⟩
    · refine notPast_next rfl (lt_of_le_of_ne hn fun e => ?_)
      subst e
      exact absurd (hch rfl rfl) ‹_›
  | sleeping =>
    simp only [wakeup1]
    split
    · exact ⟨i, .spin, rfl, hn⟩
    · exact ⟨i, .negSleeping, rfl, hn⟩
  | negSleeping =>
    simp only [wakeup1]
    split
    · exact ⟨i, .spin, rfl, hn⟩
    · refine notPast_next rfl (lt_of_le_of_ne hn fun e => ?_)
      subst e
      have hne := h.unsplit c ch i (.inr ⟨q, ret, hc, hq⟩)
      simp only [wakeup1, Kernel.store] at hp
      generalize s.state i = v at *
      cases v <;> simp_all [PState.asleep]
  | spin =>
    simp only [wakeup1]
    split
    · exact ⟨i, .spin, rfl, hn⟩
    · rename_i hne
      refine ⟨i, .cas, rfl, (lt_or_eq_of_le hn).imp_right fun e => ⟨e, ?_⟩⟩
      subst e
      exact hne
  | cas =>
    rcases hn with hn | ⟨rfl, hne⟩
    · simp only [wakeup1, cas]
      split
      · exact ⟨i, .clear, rfl, hn⟩
      · exact notPast_next rfl hn
    · exfalso
      simp only [wakeup1, cas] at hp
      split at hp
      · simp [Kernel.store_state, PState.asleep] at hp
      · simp only [Kernel.store] at hp
        generalize s.state i = v at *
        cases v <;> simp_all [PState.asleep]
  | clear => exact ⟨i, .runnable, rfl, hn⟩
  | runnable =>
    have hv := (h.claimed c i ⟨ch, _, .inr ⟨q, ret, hc, hq⟩, .inr rfl⟩).1
    simp only [wakeup1, cas, hv, if_true]
    exact notPast_next rfl hn

end

/-! ## One call of `sleep` and one of `wakeup` -/

/-- In a call of `sleep(ch, l)`. -/
def Pc.inSleep (ch : Chan) (l : Lock) : Pc → Bool
  | .sleep _ ch' l' _ | .sched (.sleep _ ch' l') | .swtch (.sleep _ ch' l')
  | .resume (.cont (.sleep _ ch' l')) => ch' = ch && l' = l
  | _ => false

/-- In a call of `sleep(ch, l)`, about to release the lock. -/
def Pc.releasing (ch : Chan) (l : Lock) : Pc → Bool
  | .sleep _ ch' l' .release => ch' = ch && l' = l
  | _ => false

/-- At the start of `wakeup1(ch)`. -/
def Pc.wakes (ch : Chan) : Pc → Bool
  | .wakeup1 _ ch' i .chan => ch' = ch && i = 0
  | _ => false

def Pc.inWakeup : Pc → Bool
  | .wakeup1 _ _ _ _ => true
  | _ => false

/-- How far a run has come: the sleeper has released the lock inside `sleep`,
the waker has acquired it since, has called `wakeup`, and has returned from it. -/
inductive Watch where
  | idle | released | acquired | calling | returned
  deriving DecidableEq, Repr

/-- What a step from `s` to `s'` adds, for sleeper `p` and waker `q`; the CPU that
made it stood at `k`. -/
def Watch.next (p q : Slot) (ch : Chan) (l : Lock) (s s' : Kernel C) (k : Cpu) (w : Watch) : Watch :=
  if (s'.pc p).inSleep ch l then
    match w with
    | .idle => if k = .running p ∧ (s.pc p).releasing ch l then .released else .idle
    | .released => if k = .running q ∧ s.lock l = none ∧ s'.lock l = some q then .acquired else .released
    | .acquired => if k = .running q ∧ (s'.pc q).wakes ch then .calling else .acquired
    | .calling => if (s'.pc q).inWakeup then .calling else .returned
    | .returned => .returned
  else .idle

/-- A step of the kernel, watched. -/
def watch [DecidableEq C] (p q : Slot) (ch : Chan) (l : Lock) (ws : Watch × Kernel C) (lab : C × Act) :
    Option (Watch × Kernel C) :=
  (step ws.2 lab).map fun s' => (ws.1.next p q ch l ws.2 s' (ws.2.cpu lab.1), s')

/-- A waker of `ch` on CPU `c` is about to read the channel of a process that has
released its lock in `sleep(ch, lk)` and has not stored the channel. -/
def Kernel.EarlyRead (s : Kernel C) (c : C) : Prop :=
  ∃ ch p b l, s.Waking c ch p .chan ∧ s.pc p = .sleep b ch l .chan

/-- In a call of `sleep(ch, l)`, after it released the lock. -/
def Pc.pastRelease (ch : Chan) (l : Lock) : Pc → Bool
  | .sleep _ ch' l' .chan | .sleep _ ch' l' .acquire | .sched (.sleep _ ch' l') | .swtch (.sleep _ ch' l')
  | .resume (.cont (.sleep _ ch' l')) => ch' = ch && l' = l
  | _ => false

/-- What holds of a watched run. -/
def Watched (p q : Slot) (ch : Chan) (l : Lock) (s : Kernel C) : Watch → Prop
  | .idle => True
  | .released | .acquired => (s.pc p).pastRelease ch l
  | .calling => (s.pc p).pastRelease ch l ∧ ((s.state p).asleep →
      ∃ ret i k, s.pc q = .wakeup1 ret ch i k ∧ s.NotPast p i k)
  | .returned => (s.pc p).pastRelease ch l ∧ ¬ (s.state p).asleep

section

variable [DecidableEq C]

theorem pastRelease_kept (hs : step s (c, a) = some s') (hp : (s.pc p).pastRelease ch l ∨
    (s.cpu c = .running p ∧ (s.pc p).releasing ch l)) (hp' : (s'.pc p).inSleep ch l) :
    (s'.pc p).pastRelease ch l := by
  by_cases hc : s.cpu c = .running p
  · replace hp := hp.imp_right And.right
    rcases step_running hc hs with ⟨k, hk, rfl⟩ | ⟨i, hi, rfl⟩
    · simp only [Kernel.setCpu_pc, Kernel.setPc_self] at hp' ⊢
      cases k with
      | sleep => exact hp'
      | _ => cases hp'
    have hg := procCode_goes hc hi
    simp only [Kernel.setPc_self] at hp' ⊢
    generalize s.pc p = k at hp hg
    generalize i.2 = k' at hp' hg
    cases hg with
    | @sched k => cases k <;> exact hp'
    | chan | sleep | slept | acquire => exact hp'
    | base | wakeup1 | exit | wait | release => rcases hp with hp | hp <;> cases hp
    | _ => cases hp'
  · rcases step_pc_ne hs hc with hpc | ⟨_, _, _, hpc⟩ <;> rw [hpc] at hp' ⊢
    · exact hp.resolve_right fun h => hc h.1
    · cases hp'

theorem awake_kept (hs : step s (c, a) = some s') (hp : (s.pc p).pastRelease ch l)
    (hv : ¬ (s.state p).asleep) : ¬ (s'.state p).asleep := by
  rcases step_state hs p with hst | hm
  · exact hst ▸ hv
  generalize s.state p = v at hm hv
  generalize s'.state p = v' at hm
  cases hm with
  | toSleeping => exact absurd rfl hv
  | sleep _ hk | wait _ hk => rw [hk] at hp; cases hp
  | _ => simp [PState.asleep]

omit [DecidableEq C] in
theorem wakes_iff {k : Pc} : k.wakes ch ↔ ∃ ret, k = .wakeup1 ret ch 0 .chan := by
  cases k with
  | wakeup1 ret ch' i k => cases k <;> simp [Pc.wakes]
  | _ => simp [Pc.wakes]

omit [DecidableEq C] in
/-- A sleeper past its store to `chan` is on that channel. -/
theorem Sleepers.chan_of_pastRelease (h : Sleepers s) (hp : (s.pc p).pastRelease ch l) (hv : (s.state p).asleep)
    (hk : ∀ b, s.pc p ≠ .sleep b ch l .chan) : s.chan p = ch := by
  have hon : (∃ k, s.pc p = .resume k) ∨ s.state p ∈ (s.pc p).states := by
    by_cases hr : ∃ k, s.pc p = .resume k
    · exact .inl hr
    · obtain ⟨c, hc⟩ := h.runs_of_pc fun k hk => hr ⟨k, hk⟩
      exact .inr (h.running c p hc)
  refine h.chan p ch ?_ hv
  generalize s.pc p = k at hp hk hon
  cases k with
  | sleep b ch' l' k =>
    cases k <;> simp_all [Pc.pastRelease, Pc.states, SleepPc.state, PState.asleep]
  | sched k | swtch k => cases k <;> simp_all [Pc.pastRelease, Pc.sleepsOn, Cont.sleepsOn]
  | resume k => rcases k with _ | ⟨⟨⟩⟩ <;> simp_all [Pc.pastRelease, Pc.sleepsOn, Cont.sleepsOn]
  | _ => cases hp

/-- Every step but an early read, a split read or a late scheduler keeps what
holds of a watched run. -/
theorem watched_step {w : Watch} (h : Sleepers s) (hw : Watched p q ch l s w) (he : ¬ s.EarlyRead c)
    (hs : step s (c, a) = some s') : Watched p q ch l s' (w.next p q ch l s s' (s.cpu c)) := by
  unfold Watch.next
  split
  case isFalse => trivial
  rename_i hin
  cases w with
  | idle =>
    dsimp only
    split
    · rename_i hr
      exact pastRelease_kept hs (.inr hr) hin
    · trivial
  | released =>
    have hp := pastRelease_kept hs (.inl hw) hin
    dsimp only
    split <;> exact hp
  | acquired =>
    have hp := pastRelease_kept hs (.inl hw) hin
    dsimp only
    split
    · rename_i hq
      refine ⟨hp, fun _ => ?_⟩
      obtain ⟨ret, hret⟩ := wakes_iff.1 hq.2
      exact ⟨ret, 0, .chan, hret, Fin.zero_le p⟩
    · exact hp
  | calling =>
    obtain ⟨hpast, hw⟩ := hw
    have hp := pastRelease_kept hs (.inl hpast) hin
    by_cases hv' : (s'.state p).asleep
    · have hv : (s.state p).asleep := by
        by_contra hv
        exact awake_kept hs hpast hv hv'
      obtain ⟨ret, i, k, hq, hn⟩ := hw hv
      have hstill : ∃ ret i k, s'.pc q = .wakeup1 ret ch i k ∧ s'.NotPast p i k := by
        by_cases hc : s.cpu c = .running q
        · obtain ⟨j, k', hj⟩ := h.notPast_step hs hc hq hn
            (fun e ek => by
              subst e ek
              exact h.chan_of_pastRelease hpast hv fun b hb => he ⟨ch, i, b, l, .inr ⟨q, ret, hc, hq⟩, hb⟩) hv'
          exact ⟨ret, j, k', hj⟩
        · obtain ⟨d, hd⟩ := h.runs_of_pc (p := q) fun k hk => by rw [hq] at hk; cases hk
          exact ⟨ret, i, k, (h.pc_kept hs hc hd).trans hq, notPast_kept hs hn hv hv'⟩
      obtain ⟨ret, i, k, hq', hn'⟩ := hstill
      simp only [hq', Pc.inWakeup, if_true]
      exact ⟨hp, fun _ => ⟨ret, i, k, hq', hn'⟩⟩
    · dsimp only
      split
      · exact ⟨hp, fun h => absurd h hv'⟩
      · exact ⟨hp, hv'⟩
  | returned => exact ⟨pastRelease_kept hs (.inl hw.1) hin, awake_kept hs hw.1 hw.2⟩

/-- Once `wakeup` has returned the sleeper is not asleep in that call of `sleep`,
in every run without late schedulers, early reads and split reads. -/
theorem wakeup_not_lost (h : Run (watch p q ch l)
      (fun ws lab => ¬ ws.2.Late lab.1 ∧ ¬ ws.2.EarlyRead lab.1 ∧ ¬ ws.2.SplitRead lab.1)
      (.idle, Kernel.init C) (.returned, s)) :
    s.state p ≠ .sleeping ∧ s.state p ≠ .negSleeping := by
  have hinv : Sleepers s ∧ Watched p q ch l s .returned := by
    refine h.inv (fun ws : Watch × Kernel C => Sleepers ws.2 ∧ Watched p q ch l ws.2 ws.1) ?_
      ⟨sleepers_init, trivial⟩
    rintro ⟨w, t⟩ ⟨c, a⟩ ⟨w', t'⟩ ⟨hsl, hw⟩ ⟨hl, he, hg⟩ hs
    obtain ⟨u, hu, heq⟩ := Option.map_eq_some_iff.1 hs
    cases heq
    exact ⟨hsl.preserved hl hg hu, watched_step hsl hw he hu⟩
  have hv := hinv.2.2
  constructor <;> intro hs <;> rw [hs] at hv <;> exact hv rfl

end

/-! ## Two CPUs -/

/-- `init` forks a child on CPU 0, CPU 1 runs it, and both are in system calls. -/
def forked : List (Fin 2 × Act) :=
  cpuSteps 0 9 ++ [(0, .syscall), (0, .step), (0, .fork)] ++ cpuSteps 0 16 ++
  cpuSteps 1 11 ++ [(1, .syscall), (1, .step)]

/-- `init` sleeps and releases the lock. Before it stores its channel, the child
acquires the lock and looks at every process in `wakeup`. `init` then sleeps on. -/
def lostWakeup : List (Fin 2 × Act) :=
  forked ++ [(0, .acquire 1), (0, .sleep (.addr 7) 1)] ++ cpuSteps 0 2 ++
  [(1, .acquire 1), (1, .wakeup (.addr 7))] ++ cpuSteps 1 64 ++ cpuSteps 0 5

theorem lostWakeup_sleeps :
    ¬ ∀ ls s, exec (watch 0 1 (.addr 7) 1) (.idle, Kernel.init (Fin 2)) ls = some (.returned, s) →
      s.state 0 ≠ .sleeping ∧ s.state 0 ≠ .negSleeping := by
  intro h
  have hrun : (exec (watch 0 1 (.addr 7) 1) (.idle, Kernel.init (Fin 2)) lostWakeup).map
    (fun ws => (ws.1, ws.2.state 0)) = some (.returned, .sleeping) := by decide +kernel
  obtain ⟨⟨w, s⟩, hs, he⟩ := Option.map_eq_some_iff.1 hrun
  obtain ⟨hw, hv⟩ := Prod.mk.inj he
  subst hw
  exact (h lostWakeup s hs).1 hv

/-- CPU `d` has nothing to do with process `p` and is not in `wakeup1`. -/
def Kernel.away (s : Kernel C) (d : C) (p : Slot) : Bool :=
  match s.cpu d with
  | .running r => r ≠ p && !(s.pc r).inWakeup
  | .sched (.begin _) | .sched (.enter _) | .sched (.runnable _) | .sched (.intr _ _ _) => false
  | _ => true

theorem Kernel.away_spec (h : s.away d p) : ¬ (s.cpu d).Owns p ∧ ∀ ch i k, ¬ s.Waking d ch i k := by
  unfold Kernel.away at h
  cases hd : s.cpu d with
  | sched k => cases k <;> simp_all [Cpu.Owns, Cpu.Holds, Kernel.Waking]
  | panic => simp [Cpu.Owns, Cpu.Holds, Kernel.Waking, hd]
  | running r =>
    simp only [hd, Bool.and_eq_true, decide_eq_true_eq, Bool.not_eq_true'] at h
    refine ⟨by simp [Cpu.Owns, Cpu.Holds, h.1], ?_⟩
    rintro ch i k (hw | ⟨r', ret, hw, hk⟩) <;> rw [hd] at hw <;> cases hw
    rw [hk] at h
    cases h.2

/-- On two CPUs, a check that no scheduler is late and no read early or split:
the other CPU is away when a scheduler makes its second or third `cas`. -/
def Kernel.calm (s : Kernel (Fin 2)) (c : Fin 2) : Bool :=
  match s.cpu c with
  | .sched (.sleeping p) | .sched (.zombie p) => s.away (1 - c) p
  | .sched (.intr _ _ _) => false
  | .running r =>
    match s.pc r with
    | .wakeup1 _ _ i .chan => match s.pc i with | .sleep _ _ _ .chan => false | _ => true
    | _ => true
  | _ => true

theorem Kernel.calm_spec {s : Kernel (Fin 2)} {c : Fin 2} (h : s.calm c) :
    ¬ s.Late c ∧ ¬ s.EarlyRead c ∧ ¬ s.SplitRead c := by
  have two (d : Fin 2) : d = c ∨ d = 1 - c := by omega
  have other {p : Slot} (hc : s.cpu c = .sched (.sleeping p) ∨ s.cpu c = .sched (.zombie p)) :
      s.away (1 - c) p := by
    rcases hc with hc | hc <;> simpa only [Kernel.calm, hc] using h
  refine ⟨?_, ?_, ?_⟩
  · rintro ⟨p, d, hd, hc⟩
    replace hc := hc.imp And.left And.left
    rcases two d with rfl | rfl
    · rcases hc with hc | hc <;> simp [hc, Cpu.Owns, Cpu.Holds] at hd
    · exact (s.away_spec (other hc)).1 hd
  · rintro ⟨ch, p, b, l, hw | ⟨r, ret, hw, hr⟩, hp⟩
    · simp [Kernel.calm, hw] at h
    · simp [Kernel.calm, hw, hr, hp] at h
  · rintro ⟨p, hc, _, d, ch, hw⟩
    rcases two d with rfl | rfl
    · rcases hw with hw | ⟨r, ret, hw, _⟩ <;> rw [hc] at hw <;> cases hw
    · exact (s.away_spec (other (.inl hc))).2 _ _ _ hw

/-- `init` is asleep before the child acquires the lock, and is woken. -/
def keptWakeup : List (Fin 2 × Act) :=
  forked ++ [(0, .acquire 1), (0, .sleep (.addr 7) 1)] ++ cpuSteps 0 7 ++
  [(1, .acquire 1), (1, .wakeup (.addr 7))] ++ cpuSteps 1 69

theorem keptWakeup_wakes :
    ∃ s, exec (watch 0 1 (.addr 7) 1) (.idle, Kernel.init (Fin 2)) keptWakeup = some (.returned, s) ∧
      s.state 0 ≠ .sleeping ∧ s.state 0 ≠ .negSleeping := by
  have hrun : (exec (checked (watch 0 1 (.addr 7) 1) fun ws lab => ws.2.calm lab.1)
    (.idle, Kernel.init (Fin 2)) keptWakeup).map (fun ws => ws.1) = some .returned := by decide +kernel
  obtain ⟨⟨w, s⟩, hs, rfl⟩ := Option.map_eq_some_iff.1 hrun
  exact ⟨s, exec_of_checked hs, wakeup_not_lost (run_of_checked (fun _ _ h => Kernel.calm_spec h) hs)⟩

end Xv6
