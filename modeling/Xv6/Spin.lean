import Mathlib.Data.Fintype.Order
import Xv6.Lib.Cycles
import Xv6.ExitWait
/-!
# Processes that spin on each other

Four loops spin until another process leaves a transitional state: in `wait`
and in `exit` on a child that is `-ZOMBIE`, in `wakeup1` and in `kill` on a
process that is `-SLEEPING`. Only a process in `wait` or in `exit` can be both
spinning and spun on.

A process in `exit` spins on children only, and a child is younger than its
parent (`Lineage`), so those edges close no cycle. What closes one is a process
in `exit` that spins in `wakeup1` on a process in `wait` which spins on a dying
child (`Chain`).
-/

namespace Xv6

open Runs Relation

variable {C : Type} {s s' : Kernel C} {c d : C} {a : Act} {o p q r : Slot}

/-- Process `p` spins until process `q` leaves its transitional state. -/
def Kernel.SpinsOn (s : Kernel C) (p q : Slot) : Prop :=
  match s.pc p with
  | .wait (.spin i) | .exit (.spin i) => i = q ∧ s.state q = .negZombie
  | .wakeup1 _ _ i .spin | .kill _ _ i .spin => i = q ∧ s.state q = .negSleeping
  | _ => False

/-- A thread in `exit` that spins in `wakeup1` on process `p`. -/
def Pc.exitSpins (p : Slot) : Pc → Bool
  | .wakeup1 .exitParent _ i .spin | .wakeup1 (.exitChild _) _ i .spin => i = p
  | _ => false

/-- Process `r` in `exit` spins on process `p`, which spins in `wait` on its
child `q`. -/
structure Kernel.Chain (s : Kernel C) (r p q : Slot) : Prop where
  exits : (s.pc r).exitSpins p
  waits : s.pc p = .wait (.spin q)
  dying : s.state q = .negZombie

/-- The next access of CPU `c` makes a chain: the waiting process comes to a
dying child while a process in `exit` spins on it, the process in `exit` starts
to spin, or the child starts to die. -/
inductive Kernel.Links (s : Kernel C) (c : C) : Prop
  | wait {x w z h} : s.cpu c = .running w → s.pc w = .wait (.scan z h) → s.parent z = some w →
      s.state z = .negZombie → (s.pc x).exitSpins w → Links s c
  | exit {x w z ret ch} : s.cpu c = .running x → s.pc x = .wakeup1 ret ch w .negSleeping → ret.home = none →
      s.pc w = .wait (.spin z) → s.state z = .negZombie → Links s c
  | die {x w z} : s.cpu c = .running z → s.pc z = .exit .cas → s.pc w = .wait (.spin z) →
      (s.pc x).exitSpins w → Links s c

/-! ## Chains -/

section

variable [DecidableEq C]

omit [DecidableEq C] in
theorem exitSpins_iff {k : Pc} :
    k.exitSpins p ↔ ∃ ret ch, ret.home = none ∧ k = .wakeup1 ret ch p .spin := by
  cases k with
  | wakeup1 ret ch i k => cases ret <;> cases k <;> simp [Pc.exitSpins, Ret.home]
  | _ => simp [Pc.exitSpins]

/-- A process comes to spin in `wait` on a child of its own. -/
theorem waitSpin_back (hc : s.cpu c = .running p) (hs : step s (c, a) = some s')
    (hp : s'.pc p = .wait (.spin q)) :
    s'.proc = s.proc ∧ (s.pc p = .wait (.spin q) ∨ ∃ h, s.pc p = .wait (.scan q h) ∧ s.parent q = some p) := by
  rcases step_running hc hs with ⟨k, _, rfl⟩ | ⟨i, hi, rfl⟩
  · simp at hp
  have hg := procCode_goes hc hi
  rw [Kernel.setPc_self] at hp
  rw [hp] at hg
  generalize hk : s.pc p = k at hi hg
  generalize hk' : Pc.wait (.spin q) = k' at hg
  cases hg with
  | base hg => cases hg <;> cases hk'
  | wakeup1 =>
    rcases Wakeup.pc_cases _ _ _ with ⟨_, _, h⟩ | h | ⟨_, h⟩ | ⟨_, h⟩ | h <;> rw [h] at hk' <;> cases hk'
  | @exit k _ he =>
    subst hk'
    cases k <;> simp only [exitCode, exitNext, cas] at he <;> (repeat' split at he) <;> cases he
  | @wait k _ he =>
    subst hk'
    obtain rfl := Option.some.inj hi
    cases k with
    | scan i h =>
      simp only [waitCode, waitNext] at he
      split at he
      · cases he
        exact ⟨rfl, .inr ⟨h, rfl, ‹_›⟩⟩
      · split at he <;> cases he
    | spin i =>
      simp only [waitCode] at he
      split at he <;> cases he
      exact ⟨rfl, .inl rfl⟩
    | _ => simp only [waitCode, waitNext, cas] at he; (repeat' split at he) <;> cases he
  | _ => cases hk'

/-- A thread comes to spin in `wakeup1` after it read the state of the process. -/
theorem wakeupSpin_back {ret : Ret} {ch : Chan} (hc : s.cpu c = .running r) (hs : step s (c, a) = some s')
    (hr : s'.pc r = .wakeup1 ret ch p .spin) :
    s'.proc = s.proc ∧ (s.pc r = .wakeup1 ret ch p .spin ∨ s.pc r = .wakeup1 ret ch p .negSleeping ∨
      (s.pc r = .wakeup1 ret ch p .sleeping ∧ s.state p = .sleeping)) := by
  rcases step_running hc hs with ⟨k, _, rfl⟩ | ⟨i, hi, hs'⟩
  · simp at hr
  rw [hs', Kernel.setPc_self] at hr
  rcases procCode_wakeup1 hc hi hr with ⟨_, hk⟩ | ⟨i₀, k, hk, hw⟩
  · cases hk
  have hs' := step_wakeup1 hc hk hs
  cases k <;> simp only [wakeup1, wakeup1.next, cas] at hw hs' <;> (repeat' split at hw) <;> cases hw <;>
    refine ⟨by rw [hs']; rfl, ?_⟩
  · exact .inr (.inr ⟨hk, ‹_›⟩)
  · exact .inr (.inl hk)
  · exact .inl hk

/-- Only steps that link make a chain. -/
theorem Owned.chain_back (h : Owned s) (hl : ¬ s.Links c) (hs : step s (c, a) = some s')
    (hn : ∀ r p q, ¬ s.Chain r p q) (r p q : Slot) : ¬ s'.Chain r p q := by
  rintro ⟨hr, hp, hq⟩
  have hr' := hr
  obtain ⟨ret, ch, hret, hr⟩ := exitSpins_iff.1 hr
  have same {r k} (hc : s.cpu c ≠ .running r) (hk : s'.pc r = k) (hne : k ≠ .resume .forkret) : s.pc r = k := by
    rcases step_pc_ne hs hc with h | ⟨_, _, _, h⟩ <;> rw [hk] at h
    · exact h.symm
    · exact absurd h hne
  by_cases hcr : s.cpu c = .running r
  · have hcp : s.cpu c ≠ .running p := by
      rintro hc
      rw [hcr] at hc
      cases hc
      rw [hr] at hp
      cases hp
    have hp₀ := same hcp hp (by simp)
    obtain ⟨hproc, hr₀⟩ := wakeupSpin_back hcr hs hr
    have hq₀ : s.state q = .negZombie := by rw [← hq, Kernel.state, Kernel.state, hproc]
    rcases hr₀ with hr₀ | hr₀ | ⟨hr₀, hsl⟩
    · exact hn r p q ⟨exitSpins_iff.2 ⟨ret, ch, hret, hr₀⟩, hp₀, hq₀⟩
    · exact hl (.exit hcr hr₀ hret hp₀ hq₀)
    · obtain ⟨d, hd⟩ := h.runs_of_pc (p := p) fun k hk => by rw [hp₀] at hk; cases hk
      have hv := h.running d p hd
      rw [hp₀, hsl] at hv
      simp [Pc.states, WaitPc.state] at hv
  · have hr₀ := same hcr hr (by simp)
    have hr' : (s.pc r).exitSpins p := exitSpins_iff.2 ⟨ret, ch, hret, hr₀⟩
    by_cases hcp : s.cpu c = .running p
    · obtain ⟨hproc, hp₀⟩ := waitSpin_back hcp hs hp
      have hq₀ : s.state q = .negZombie := by rw [← hq, Kernel.state, Kernel.state, hproc]
      rcases hp₀ with hp₀ | ⟨hk, hp₀, hpa⟩
      · exact hn r p q ⟨hr', hp₀, hq₀⟩
      · exact hl (.wait hcp hp₀ hpa hq₀ hr')
    · have hp₀ := same hcp hp (by simp)
      rcases step_state hs q with hst | hm
      · exact hn r p q ⟨hr', hp₀, hst.symm.trans hq⟩
      rw [hq] at hm
      generalize s.state q = v at hm
      cases hm with
      | exit hcq hk => exact hl (.die hcq hk hp₀ hr')

end

/-! ## Families -/

/-- In a call of `exit`, also after it has given up its stack. -/
def Pc.leaving : Pc → Bool
  | .exit _ | .sched .exit | .swtch .exit | .resume (.cont .exit) => true
  | .wakeup1 r _ _ _ => r.home = none || r.home = some .exiting
  | k => k.home = some .exiting

/-- In `exit`, past child `q` in the loop that hands children to `init`. -/
def Pc.Handed (q : Slot) : Pc → Prop
  | .exit (.scan i) | .exit (.reparent i) => q < i
  | .exit (.spin i) | .exit (.zombie i) | .wakeup1 (.exitChild i) _ _ _ => q ≤ i
  | .sched .exit | .swtch .exit | .resume (.cont .exit) => True
  | _ => False

/-- The states in which a process may have children. -/
def PState.alive : PState → Bool
  | .unused | .embryo | .preUnused | .zombie => false
  | _ => true

/-- `r` orders processes by birth: a child comes after its parent. `init` is
given children it did not fork, but does not exit. -/
structure Lineage (s : Kernel C) (r : Slot → Nat) : Prop where
  parent : ∀ p q, s.parent q = some p → p ≠ initproc → r p < r q
  exit : ∀ p q, s.pc p = .exit (.reparent q) ∨ s.pc p = .exit (.spin q) → r p < r q
  fork : ∀ p q, (s.pc p).child = some q → r p < r q

structure Family (s : Kernel C) : Prop extends Owned s where
  init : ¬ (s.pc initproc).leaving
  initAlive : (s.state initproc).alive ∧ s.state initproc ≠ .negZombie
  alive : ∀ p q, s.parent q = some p → (s.state p).alive
  handed : ∀ p q, s.parent q = some p → ¬ (s.pc p).Handed q
  lineage : ∃ r, Lineage s r

theorem family_init : Family (Kernel.init C) where
  toOwned := owned_init
  init := by simp [Kernel.init, Pc.leaving, Pc.home]
  initAlive := by simp [Kernel.init, Kernel.state, PState.alive]
  alive p q h := by cases h
  handed p q h := by cases h
  lineage := ⟨fun _ => 0, ⟨fun _ _ h => (by cases h), fun _ _ h => (by simp [Kernel.init] at h),
    fun _ _ h => (by cases h)⟩⟩

theorem Base.Goes.leaving {b : Base} {k : Pc} (h : b.Goes p k) (hk : k.leaving) :
    (Pc.base b).leaving ∨ p ≠ initproc := by
  cases h with
  | base h | yield h | wakeup h | sleep _ h =>
    refine (h.exiting (by simpa [Pc.leaving, Pc.home, Ret.home] using hk)).imp_left fun e => ?_
    subst e; rfl
  | exit h => subst h; exact .inl rfl
  | _ => cases hk

theorem Pc.Goes.leaving {k k' : Pc} (h : k.Goes s p k') (hk : k'.leaving) : k.leaving ∨ p ≠ initproc := by
  cases h with
  | base h => exact h.leaving hk
  | @fork np k b f he =>
    cases k <;> simp only [forkCode, cas] at he <;> (repeat' split at he) <;> cases he <;> cases hk
  | @wakeup1 r ch i k =>
    left
    generalize (Xv6.wakeup1 s ch i k).2 = w at hk
    cases w with
    | place => exact hk
    | panic => cases hk
    | done => cases r <;> simp_all [Wakeup.pc, Ret.done, Pc.leaving, Ret.home, Pc.home]
  | exit => exact .inl rfl
  | @wait k _ he =>
    subst he
    cases k <;> simp only [waitCode, waitNext, cas] at hk <;> (repeat' split at hk) <;> cases hk
  | @sched k => cases k <;> exact .inl hk
  | yield | yielded | slept | release | chan | sleep | acquire | acquired => exact .inl hk
  | killed he => rcases he with rfl | rfl <;> cases hk
  | _ => cases hk

theorem Pc.leaving_of_handed {k : Pc} (h : k.Handed q) : k.leaving := by
  cases k with
  | exit => rfl
  | wakeup1 ret => cases ret <;> first | rfl | exact h.elim
  | sched k | swtch k => cases k <;> first | rfl | exact h.elim
  | resume k => rcases k with _ | ⟨⟨⟩⟩ <;> first | rfl | exact h.elim
  | _ => exact h.elim

theorem handed_exitNext {i : Slot} (h : (exitNext i).Handed q) : q ≤ i := by
  unfold exitNext at h
  split at h
  · rename_i j hj
    have hv := nextSlot_val hj
    have hq : q < j := h
    exact Fin.le_def.2 (by have := Fin.lt_def.1 hq; omega)
  · exact le_of_nextSlot_none ‹_› q

/-- The loop that hands children over passes only children that are handed over. -/
theorem Pc.Goes.handed {k k' : Pc} (h : k.Goes s p k') (hk : ¬ k.Handed q)
    (hq : k = .exit (.scan q) → s.parent q = some p) (hr : k ≠ .exit (.reparent q)) : ¬ k'.Handed q := by
  cases h with
  | base h => cases h <;> exact id
  | @wakeup1 r ch i k =>
    generalize (Xv6.wakeup1 s ch i k).2 = w
    cases w with
    | place => cases r <;> exact hk
    | panic => exact id
    | done =>
      cases r with
      | base => exact id
      | exitParent => exact fun h : q < 0 => absurd h (not_lt_of_ge (Fin.zero_le q))
      | exitChild j => exact fun h => hk (handed_exitNext h)
  | @exit k _ he =>
    subst he
    cases k with
    | cas => simp only [exitCode, cas_same]; exact id
    | parent => exact id
    | scan i =>
      simp only [exitCode]
      split
      · exact hk
      · rename_i hne
        intro h
        rcases lt_or_eq_of_le (handed_exitNext h) with h | rfl
        exacts [hk h, hne (hq rfl)]
    | reparent i =>
      intro h
      rcases lt_or_eq_of_le (show q ≤ i from h) with h | rfl
      exacts [hk h, hr rfl]
    | spin i => simp only [exitCode]; split <;> exact hk
    | zombie i =>
      simp only [exitCode]
      split
      · exact hk
      · exact fun h => hk (handed_exitNext h)
  | @wait k _ he =>
    subst he
    cases k <;> simp only [waitCode, waitNext, cas] <;> (repeat' split) <;> exact id
  | @sched k => cases k <;> exact hk
  | _ => exact id

section

variable [DecidableEq C]

namespace Family

theorem init_preserved (h : Family s) (hs : step s (c, a) = some s') : ¬ (s'.pc initproc).leaving := by
  intro hl
  rcases step_pc hs initproc with hpc | ⟨_, _, _, hpc⟩ | ⟨_, ⟨k, hk, hpc⟩ | hg⟩
  · exact h.init (hpc ▸ hl)
  · rw [hpc] at hl; cases hl
  · rw [hpc] at hl
    refine h.init ?_
    rw [hk]
    cases k <;> exact hl
  · exact (hg.leaving hl).elim h.init fun hne => hne rfl

theorem initAlive_preserved (h : Family s) (hs : step s (c, a) = some s') :
    (s'.state initproc).alive ∧ s'.state initproc ≠ .negZombie := by
  have ⟨hal, hnz⟩ := h.initAlive
  rcases step_state hs initproc with hst | hm
  · exact hst ▸ ⟨hal, hnz⟩
  generalize hv : s.state initproc = v at hm hal hnz
  generalize s'.state initproc = v' at hm
  cases hm with
  | exit _ hk => exact absurd (by rw [hk]; rfl) h.init
  | toZombie => exact absurd rfl hnz
  | undo _ hk => rw [← hv, h.embryo_of hk] at hal; cases hal
  | reap | free | alloc => cases hal
  | _ => exact ⟨rfl, by simp⟩

/-- A child that is not `init`'s was its parent's before a step, or is new. -/
theorem parent_back (hs : step s (c, a) = some s') (hq : s'.parent q = some p) :
    s.parent q = some p ∨ p = initproc ∨ (s.cpu c = .running p ∧ s.pc p = .base (.fork q .parent)) := by
  rcases step_parent hs q with hsame | hr
  · exact .inl (hsame.symm.trans hq)
  rw [hq] at hr
  generalize hv : some p = v at hr
  cases hr with
  | fork hc hk => cases hv; exact .inr (.inr ⟨hc, hk⟩)
  | exit => cases hv; exact .inr (.inl rfl)
  | wait => cases hv

/-- A process dies by giving up its stack in `exit`. -/
theorem alive_kept (h : Family s) (hl : ¬ s.Late c) (hs : step s (c, a) = some s') (hp : (s.state p).alive)
    (hk : s.pc p ≠ .resume (.cont .exit)) : (s'.state p).alive := by
  rcases step_state hs p with hst | hm
  · exact hst ▸ hp
  generalize hv : s.state p = v at hm hp
  generalize s'.state p = v' at hm
  cases hm with
  | toZombie hc =>
    obtain ⟨k, hk', hkv⟩ := h.free p fun d hd => hl ⟨p, d, hd, .inr ⟨hc, hv⟩⟩
    rw [hv] at hkv
    rcases k with _ | ⟨⟨⟩⟩ <;> simp_all [Ctx.states, Cont.states]
  | undo _ hk => rw [← hv, h.embryo_of hk] at hp; cases hp
  | reap | free | alloc => cases hp
  | _ => rfl

theorem handed_preserved (h : Family s) (hs : step s (c, a) = some s') (hq : s'.parent q = some p) :
    ¬ (s'.pc p).Handed q := by
  by_cases hi : p = initproc
  · exact fun hk => h.init_preserved hs (hi ▸ Pc.leaving_of_handed hk)
  have hn : ¬ (s.pc p).Handed q ∧ (s.pc p = .exit (.scan q) → s.parent q = some p) := by
    rcases parent_back hs hq with hq | rfl | ⟨_, hk⟩
    · exact ⟨h.handed p q hq, fun _ => hq⟩
    · exact absurd rfl hi
    · rw [hk]; exact ⟨id, fun h => by cases h⟩
  rcases step_pc hs p with hpc | ⟨_, _, _, hpc⟩ | ⟨hc, ⟨k, hk, hpc⟩ | hg⟩
  · rw [hpc]; exact hn.1
  · rw [hpc]; exact id
  · have := hn.1
    rw [hk] at this
    rw [hpc]
    cases k <;> exact this
  · refine hg.handed hn.1 hn.2 fun hk => ?_
    rw [step_exit hc hk hs] at hq
    simp only [exitCode, Kernel.setPc_parent, Kernel.store_parent, if_true] at hq
    exact hi (Option.some.inj hq).symm

end Family

/-! ## Lineages -/

omit [DecidableEq C] in
/-- The place in the loop of `exit` where a child has been found. -/
theorem Pc.Goes.exitChild {k k' : Pc} (h : k.Goes s p k')
    (hk : k' = .exit (.reparent q) ∨ k' = .exit (.spin q)) :
    (k = .exit (.scan q) ∧ s.parent q = some p) ∨ k = .exit (.reparent q) ∨ k = .exit (.spin q) := by
  cases h with
  | base h => cases h <;> simp at hk
  | wakeup1 =>
    rcases Wakeup.pc_cases _ _ _ with ⟨_, _, h⟩ | h | ⟨_, h⟩ | ⟨_, h⟩ | h <;> rw [h] at hk <;> simp at hk
  | @exit k _ he =>
    subst he
    cases k <;> simp only [exitCode, exitNext, cas_same] at hk <;> (repeat' split at hk) <;> simp_all
  | @wait k _ he =>
    subst he
    cases k <;> simp only [waitCode, waitNext, cas] at hk <;> (repeat' split at hk) <;> simp at hk
  | _ => simp at hk

namespace Lineage

variable {r : Slot → Nat}

theorem kept (h : Family s) (hr : Lineage s r) (hs : step s (c, a) = some s')
    (hf : ∀ p q, (s'.pc p).child = some q → r p < r q) : Lineage s' r where
  parent p q hq hi := by
    rcases Family.parent_back hs hq with hq | rfl | ⟨_, hk⟩
    · exact hr.parent p q hq hi
    · exact absurd rfl hi
    · exact hr.fork p q (by rw [hk]; rfl)
  exit p q hk := by
    rcases step_pc hs p with hpc | ⟨_, _, _, hpc⟩ | ⟨_, ⟨_, _, hpc⟩ | hg⟩
    · exact hr.exit p q (hpc ▸ hk)
    · simp [hpc] at hk
    · simp [hpc] at hk
    · rcases hg.exitChild hk with ⟨hk, hq⟩ | hk
      · refine hr.parent p q hq fun hi => h.init ?_
        rw [← hi, hk]
        rfl
      · exact hr.exit p q hk
  fork := hf

omit [DecidableEq C] in
/-- A slot that is `UNUSED` may be ordered after all others. -/
theorem fresh (h : Family s) (hr : Lineage s r) (hq : s.state q = .unused) :
    ∃ r', Lineage s r' ∧ ∀ p, p ≠ q → r' p < r' q := by
  obtain ⟨k, hk, hkv⟩ : ∃ k, s.pc q = .resume k ∧ s.state q ∈ k.states :=
    h.free q fun d hd => by have := h.owned_onCpu hd; rw [hq] at this; cases this
  obtain ⟨m, hm⟩ := Finite.exists_le r
  have last (p : Slot) (hp : p ≠ q) : Function.update r q (m + 1) p < Function.update r q (m + 1) q := by
    simpa [hp] using Nat.lt_succ_of_le (hm p)
  -- an edge that does not start at `q` stays or ends at `q`
  have edge {p i : Slot} (hp : p ≠ q) (hlt : r p < r i) :
      Function.update r q (m + 1) p < Function.update r q (m + 1) i := by
    by_cases hi : i = q
    · subst hi; exact last p hp
    · simpa [hp, hi] using hlt
  refine ⟨_, ⟨fun p i hi hne => edge ?_ (hr.parent p i hi hne), fun p i hi => edge ?_ (hr.exit p i hi),
    fun p i hi => edge ?_ (hr.fork p i hi)⟩, last⟩ <;> rintro rfl
  · have := h.alive p i hi
    rw [hq] at this
    cases this
  · simp [hk] at hi
  · rw [hk] at hi
    rw [hq] at hkv
    rcases k with _ | ⟨⟨⟩⟩ <;> simp_all [Ctx.states, Cont.states, Pc.child, Pc.home, Cont.home]

end Lineage

theorem Family.lineage_preserved (h : Family s) (hs : step s (c, a) = some s') : ∃ r, Lineage s' r := by
  obtain ⟨r, hr⟩ := h.lineage
  by_cases hn : ∀ p q, (s'.pc p).child = some q → (s.pc p).child = some q
  · exact ⟨r, hr.kept h hs fun p q hq => hr.fork p q (hn p q hq)⟩
  push Not at hn
  obtain ⟨p, q, hq, hq₀⟩ := hn
  obtain ⟨hc, hu, _⟩ := (Stacks.child_back hs hq).resolve_left hq₀
  obtain ⟨r', hr', hlast⟩ := hr.fresh h hu
  refine ⟨r', hr'.kept h hs fun p' i hi => ?_⟩
  rcases Stacks.child_back hs hi with hi | ⟨hc', hu', _⟩
  · exact hr'.fork p' i hi
  · obtain rfl : p = p' := by rw [hc] at hc'; cases hc'; rfl
    obtain rfl : q = i := Option.some.inj (hq.symm.trans hi)
    refine hlast p fun e => ?_
    have := h.onCpu (.inr (.inr hc))
    rw [e, hu] at this
    cases this

theorem Family.preserved (h : Family s) (hl : ¬ s.Late c) (hs : step s (c, a) = some s') : Family s' where
  toOwned := h.toOwned.preserved hl hs
  init := h.init_preserved hs
  initAlive := h.initAlive_preserved hs
  alive p q hq := by
    rcases Family.parent_back hs hq with hq | rfl | ⟨hc, hk⟩
    · exact h.alive_kept hl hs (h.alive p q hq) fun hk => h.handed p q hq (by rw [hk]; trivial)
    · exact (h.initAlive_preserved hs).1
    · refine h.alive_kept hl hs ?_ (by simp [hk])
      have hv := h.running c p hc
      rw [hk] at hv
      rw [List.mem_singleton.1 hv]
      rfl
  handed p q hq := h.handed_preserved hs hq
  lineage := h.lineage_preserved hs

/-! ## Cycles -/

omit [DecidableEq C] in
theorem Kernel.SpinsOn.cases (h : s.SpinsOn p q) :
    (s.state q = .negZombie ∧ (s.pc p = .wait (.spin q) ∨ s.pc p = .exit (.spin q))) ∨
    (s.state q = .negSleeping ∧
      ((∃ ret ch, s.pc p = .wakeup1 ret ch q .spin) ∨ ∃ pid sig, s.pc p = .kill pid sig q .spin)) := by
  unfold Kernel.SpinsOn at h
  split at h <;> first | exact h.elim | obtain ⟨rfl, hq⟩ := h
  · exact .inl ⟨hq, .inl ‹_›⟩
  · exact .inl ⟨hq, .inr ‹_›⟩
  · exact .inr ⟨hq, .inl ⟨_, _, ‹_›⟩⟩
  · exact .inr ⟨hq, .inr ⟨_, _, ‹_›⟩⟩

omit [DecidableEq C] in
/-- A process that spins and is spun on is in `wait`, or in `exit`. -/
theorem Stacks.spun_cases (h : Stacks s) (ho : s.SpinsOn o p) (hq : s.SpinsOn p q) :
    (s.state p = .negSleeping ∧ s.pc p = .wait (.spin q) ∧ s.state q = .negZombie) ∨
    (s.state p = .negZombie ∧ (s.pc p = .exit (.spin q) ∨ ((s.pc p).exitSpins q ∧ s.state q = .negSleeping))) := by
  have hp : s.state p = .negZombie ∨ s.state p = .negSleeping := ho.cases.imp And.left And.left
  have hv {k : Pc} (hk : s.pc p = k) (hne : ∀ x, k ≠ .resume x) : s.state p ∈ k.states := by
    obtain ⟨c, hc⟩ := h.runs_of_pc (p := p) (hk ▸ hne)
    exact hk ▸ h.running c p hc
  rcases hq.cases with ⟨hq, hk | hk⟩ | ⟨hq, ⟨ret, ch, hk⟩ | ⟨pid, sig, hk⟩⟩
  · exact .inl ⟨List.mem_singleton.1 (hv hk (by simp)), hk, hq⟩
  · exact .inr ⟨List.mem_singleton.1 (hv hk (by simp)), .inl hk⟩
  · have hst := List.mem_singleton.1 (hv hk (by simp))
    cases ret with
    | base => rw [hst] at hp; simp [Ret.state] at hp
    | _ => exact .inr ⟨hst, .inr ⟨exitSpins_iff.2 ⟨_, ch, rfl, hk⟩, hq⟩⟩
  · rw [List.mem_singleton.1 (hv hk (by simp))] at hp
    simp at hp

/-- In every run in which no scheduler is late and no step makes a chain, the
relation of spinning on another process has no cycle. -/
theorem spinsOn_acyclic (h : Run step (fun s l => ¬ s.Late l.1 ∧ ¬ s.Links l.1) (Kernel.init C) s) (p : Slot) :
    ¬ TransGen s.SpinsOn p p := by
  have hinv : Family s ∧ ∀ x w z, ¬ s.Chain x w z := by
    refine h.inv (fun s : Kernel C => Family s ∧ ∀ x w z, ¬ s.Chain x w z) ?_
      ⟨family_init, fun x w z hc => by have := hc.waits; simp [Kernel.init] at this⟩
    rintro t ⟨c, a⟩ t' ⟨hf, hn⟩ ⟨hl, hk⟩ hs
    exact ⟨hf.preserved hl hs, hf.chain_back hk hs hn⟩
  obtain ⟨hf, hn⟩ := hinv
  obtain ⟨r, hr⟩ := hf.lineage
  refine Cycles.acyclic_of_rank r (fun x w z y v hxw hwz hzy hyv => ?_) p
  rcases hf.spun_cases hwz hzy with ⟨hz, hk, hy⟩ | ⟨_, hk | ⟨hk, hy⟩⟩
  · -- `z` waits, so `w` spins on it in `exit`
    rcases hf.spun_cases hxw hwz with ⟨_, _, hz'⟩ | ⟨_, hw | ⟨hw, _⟩⟩
    · rw [hz] at hz'; cases hz'
    · rcases hwz.cases with ⟨hz', _⟩ | ⟨_, ⟨_, _, hw'⟩ | ⟨_, _, hw'⟩⟩
      · rw [hz] at hz'; cases hz'
      · rw [hw] at hw'; cases hw'
      · rw [hw] at hw'; cases hw'
    · exact absurd ⟨hw, hk, hy⟩ (hn w z y)
  · exact hr.exit z y (.inr hk)
  · rcases hf.spun_cases hzy hyv with ⟨_, hky, hv⟩ | ⟨hy', _⟩
    · exact absurd ⟨hk, hky, hv⟩ (hn z y v)
    · rw [hy] at hy'; cases hy'

/-- In every run without late schedulers parents are alive, `init` is, and from parent to parent
no process comes back to itself, short of `init`. -/
theorem process_tree (h : Run step (fun s l => ¬ s.Late l.1) (Kernel.init C) s) :
    (∀ p q, s.parent q = some p → (s.state p).alive) ∧ (s.state initproc).alive ∧
      ∀ p, ¬ TransGen (fun q p => s.parent q = some p ∧ p ≠ initproc) p p := by
  have hf : Family s := h.inv (fun s : Kernel C => Family s) (fun _ _ _ hi hl hs => hi.preserved hl hs) family_init
  obtain ⟨r, hr⟩ := hf.lineage
  refine ⟨hf.alive, hf.initAlive.1, fun p hp => ?_⟩
  have hlt := hp.lift (p := (· > ·)) r fun _ _ h => hr.parent _ _ h.1 h.2
  rw [transGen_eq_self] at hlt
  exact lt_irrefl _ hlt

end

theorem forked_tree : ∃ s : Kernel (Fin 2), s.parent 1 = some 0 ∧ (s.state 0).alive := by
  have h : (exec (checked step fun s l => s.calm l.1) (Kernel.init (Fin 2)) forked).map (·.parent 1) = some (some 0) := by
    decide +kernel
  obtain ⟨s, hs, hp⟩ := Option.map_eq_some_iff.1 h
  exact ⟨s, hp, (process_tree (run_of_checked (fun _ _ h => (Kernel.calm_spec h).1) hs)).1 0 1 hp⟩

/-- `init` is in `wait`, about to look at its child. The child exits and comes
to spin on `init`, which is `-SLEEPING`; `init` comes to spin on the child,
which is `-ZOMBIE`. -/
def deadlock : List (Fin 2 × Act) :=
  forked ++ [(0, .wait)] ++ cpuSteps 0 3 ++ [(1, .exit)] ++ cpuSteps 1 6 ++ cpuSteps 0 1

theorem deadlock_spins :
    ¬ ∀ ls s, exec step (Kernel.init (Fin 2)) ls = some s → ∀ p, ¬ TransGen s.SpinsOn p p := by
  intro h
  have hrun : (exec step (Kernel.init (Fin 2)) deadlock).map (fun s => (s.pc 0, s.state 0, s.pc 1, s.state 1)) =
    some (.wait (.spin 1), .negSleeping, .wakeup1 .exitParent (.proc 0) 0 .spin, .negZombie) := by decide +kernel
  obtain ⟨s, hs, he⟩ := Option.map_eq_some_iff.1 hrun
  simp only [Prod.mk.injEq] at he
  have h01 : s.SpinsOn 0 1 := by simp [Kernel.SpinsOn, he]
  have h10 : s.SpinsOn 1 0 := by simp [Kernel.SpinsOn, he]
  exact h deadlock s hs 0 (.tail (.single h01) h10)

/-- A check that the next access of CPU `c` does not make a chain. -/
def Kernel.unlinked (s : Kernel C) (c : C) : Bool :=
  match s.cpu c with
  | .running p => match s.pc p with
    | .wait (.scan i _) => s.state i ≠ .negZombie
    | .wakeup1 _ _ i .negSleeping => match s.pc i with | .wait (.spin _) => false | _ => true
    | .exit .cas => ∀ i, s.pc i ≠ .wait (.spin p)
    | _ => true
  | _ => true

theorem Kernel.unlinked_spec (h : s.unlinked c) : ¬ s.Links c := by
  rintro (⟨hc, hk, -, hz, -⟩ | ⟨hc, hk, -, hw, -⟩ | ⟨hc, hk, hw, -⟩)
  · simp [Kernel.unlinked, hc, hk, hz] at h
  · simp [Kernel.unlinked, hc, hk, hw] at h
  · simp only [Kernel.unlinked, hc, hk, decide_eq_true_eq] at h
    exact h _ hw

/-- The child exits once `init` has looked at it in `wait`: it spins on `init`
until `init` has called `sched`. -/
def keptSpin : List (Fin 2 × Act) :=
  forked ++ [(0, .wait)] ++ cpuSteps 0 6 ++ [(1, .exit)] ++ cpuSteps 1 6

theorem keptSpin_acyclic :
    ∃ s, exec step (Kernel.init (Fin 2)) keptSpin = some s ∧ s.SpinsOn 1 0 ∧ ∀ p, ¬ TransGen s.SpinsOn p p := by
  have hrun : (exec (checked step fun s l => s.calm l.1 && s.unlinked l.1) (Kernel.init (Fin 2)) keptSpin).map
    (fun s => (s.pc 1, s.state 0)) = some (.wakeup1 .exitParent (.proc 0) 0 .spin, .negSleeping) := by decide +kernel
  obtain ⟨s, hs, he⟩ := Option.map_eq_some_iff.1 hrun
  simp only [Prod.mk.injEq] at he
  have hG (s : Kernel (Fin 2)) (l : Fin 2 × Act) (h : s.calm l.1 && s.unlinked l.1) :
      ¬ s.Late l.1 ∧ ¬ s.Links l.1 :=
    ⟨(Kernel.calm_spec (Bool.and_elim_left h)).1, Kernel.unlinked_spec (Bool.and_elim_right h)⟩
  exact ⟨s, exec_of_checked hs, by simp [Kernel.SpinsOn, he], spinsOn_acyclic (run_of_checked hG hs)⟩

end Xv6
