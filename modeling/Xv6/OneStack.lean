import Xv6.Kernel.Moves
import Xv6.Lib.Runs
/-!
# One CPU on each kernel stack

A process on a CPU is in the state that its place in the code says (`Pc.states`):
each function moves it to a transitional state before it lets go of the stack,
and only the scheduler, back from `swtch`, is to end the transition.

The scheduler ends it with three `cas` that do not ask whose transition they
end. If the process has been dispatched again in between, one of them can free
it while it is still on a stack (`Overtaken`). Without such a step every state
reached has one CPU on each stack, and the first such step breaks it.
-/

namespace Xv6

open Runs

variable {C : Type} {s s' : Kernel C} {c d : C} {a : Act} {p q r : Slot}

/-! ## What a place in the code says -/

/-- The state a process gave itself before it called `sched` for `k`. -/
def Cont.state : Cont → PState
  | .yield _ => .negRunnable
  | .sleep _ _ _ | .wait => .negSleeping
  | .exit => .negZombie

def SleepPc.state : SleepPc → PState
  | .cas | .acquire => .running
  | .release | .chan => .negSleeping

def Ret.state : Ret → PState
  | .base _ => .running
  | .exitParent | .exitChild _ => .negZombie

def ExitPc.state : ExitPc → PState
  | .cas => .running
  | .parent | .scan _ | .reparent _ | .spin _ | .zombie _ => .negZombie

def WaitPc.state : WaitPc → PState
  | .cas | .free _ | .clear => .running
  | .chan | .scan _ _ | .spin _ | .reap _ | .pid _ | .parent _ | .killed _ | .run _ | .check _ | .fail =>
    .negSleeping

/-- The states a process can be in while a CPU runs it at a place. -/
def Pc.states : Pc → List PState
  | .base _ | .yield _ | .resume _ | .kill _ _ _ _ | .allocproc _ => [.running]
  | .sched k | .swtch k => [k.state]
  | .sleep _ _ _ k => [k.state]
  | .wakeup1 r _ _ _ => [r.state]
  | .exit k => [k.state]
  | .wait k => [k.state]
  | .panic => [.running, .negRunnable, .negSleeping, .negZombie]

def Cont.home : Cont → Option Base
  | .yield b | .sleep b _ _ => some b
  | .wait | .exit => none

def Ret.home : Ret → Option Base
  | .base b => some b
  | .exitParent | .exitChild _ => none

/-- The code a thread is in, or will return to, outside the functions on
processes. -/
def Pc.home : Pc → Option Base
  | .base b | .yield b | .sleep b _ _ _ => some b
  | .sched k | .swtch k | .resume (.cont k) => k.home
  | .wakeup1 r _ _ _ => r.home
  | .resume .forkret | .kill _ _ _ _ | .exit _ | .wait _ | .allocproc _ | .panic => none

/-- The slot a thread is filling in `fork`, also while it is interrupted there. -/
def Pc.child (k : Pc) : Option Slot := k.home.bind Base.child

/-- The states of a process that a CPU has claimed or runs. -/
def PState.onCpu : PState → Bool
  | .negRunning | .running | .negRunnable | .negSleeping | .negZombie => true
  | _ => false

theorem onCpu_of_mem {k : Pc} {v : PState} (h : v ∈ k.states) : v.onCpu := by
  cases k with
  | sched k | swtch k | sleep _ _ _ k | wakeup1 k | exit k | wait k =>
    cases k <;> simp only [Pc.states, List.mem_singleton] at h <;> subst h <;> rfl
  | _ => cases v <;> simp_all [Pc.states, PState.onCpu]

theorem Cont.state_mem_panic (k : Cont) : k.state ∈ Pc.panic.states := by
  cases k <;> simp [Cont.state, Pc.states]

/-! ## Steps of a process on its own stack -/

theorem cas_state {κ : Type} (r q : Slot) (old new : PState) (ok fail : κ) :
    (s.store (cas s r old new ok fail).1).state q = s.state q ∨
      (q = r ∧ s.state q = old ∧ (s.store (cas s r old new ok fail).1).state q = new) := by
  unfold cas
  split
  · rename_i h
    by_cases hq : q = r
    · subst hq; exact .inr ⟨rfl, h, by simp [Kernel.store_state]⟩
    · exact .inl (by simp [Kernel.store_state, hq])
  · exact .inl rfl

theorem wakeup1_state (ch : Chan) (i q : Slot) (k : WakeupPc) :
    (s.store (wakeup1 s ch i k).1).state q = s.state q ∨
      (q = i ∧ k = .cas ∧ s.state q = .sleeping ∧ (s.store (wakeup1 s ch i k).1).state q = .negRunnable) ∨
      (q = i ∧ k = .runnable ∧ s.state q = .negRunnable ∧
        (s.store (wakeup1 s ch i k).1).state q = .runnable) := by
  cases k
  case cas =>
    rcases cas_state i q _ _ _ _ with h | ⟨h1, h2, h3⟩
    · exact .inl h
    · exact .inr (.inl ⟨h1, rfl, h2, h3⟩)
  case runnable =>
    rcases cas_state i q _ _ _ _ with h | ⟨h1, h2, h3⟩
    · exact .inl h
    · exact .inr (.inr ⟨h1, rfl, h2, h3⟩)
  all_goals exact .inl (by simp [wakeup1, Kernel.store_state])

theorem cas_state_ne {κ : Type} {old new : PState} {ok fail : κ} (h : s.state q ≠ old) :
    (s.store (cas s r old new ok fail).1).state q = s.state q := by
  rcases cas_state r q old new ok fail with h' | ⟨_, h', _⟩
  · exact h'
  · exact absurd h' h

theorem Base.Goes.running {b : Base} {k : Pc} (h : b.Goes p k) : .running ∈ k.states := by
  cases h <;> simp [Pc.states, Ret.state, SleepPc.state, WaitPc.state, ExitPc.state]

theorem forkCode_states {np : Slot} {k : ForkPc} (fails : Bool) (hp : s.state p = .running) (hnp : p ≠ np) :
    (s.store (forkCode s p np fails k).1).state p ∈ (forkCode s p np fails k).2.states := by
  cases k <;> simp only [forkCode, cas] <;> (try split) <;>
    simp [Kernel.store_state, Pc.states, hp, hnp]

theorem Ret.state_mem_done (ret : Ret) : ret.state ∈ ret.done.states := by
  cases ret with
  | exitChild i =>
    simp only [Ret.done, exitNext]
    split <;> simp [Ret.state, Pc.states, ExitPc.state, Cont.state]
  | _ => simp [Ret.done, Ret.state, Pc.states, ExitPc.state]

theorem wakeup1_states {ret : Ret} {ch : Chan} {i : Slot} {k : WakeupPc} (hp : s.state p = ret.state) :
    (s.store (wakeup1 s ch i k).1).state p ∈ ((wakeup1 s ch i k).2.pc ret ch).states := by
  have hsame : (s.store (wakeup1 s ch i k).1).state p = ret.state := by
    rcases wakeup1_state ch i p k with h | ⟨_, _, h, _⟩ | ⟨_, _, h, _⟩
    · exact h.trans hp
    all_goals rw [hp] at h; cases ret <;> simp [Ret.state] at h
  rw [hsame]
  cases (wakeup1 s ch i k).2 with
  | place => exact List.mem_singleton.2 rfl
  | done => exact ret.state_mem_done
  | panic => cases ret <;> simp [Wakeup.pc, Ret.state, Pc.states]

/-- A process keeps to the states its place in the code allows. -/
theorem procCode_states {i : Store × Pc} (hcpu : s.cpu c = .running p) (hp : s.state p ∈ (s.pc p).states)
    (hc : (s.pc p).child ≠ some p) (h : procCode s p a (s.pc p) = some i) :
    (s.store i.1).state p ∈ i.2.states := by
  generalize hk : s.pc p = k at hp hc h
  cases k with
  | base b =>
    replace hp : s.state p = .running := List.mem_singleton.1 hp
    rcases baseCode_cases hcpu hk h with ⟨hl, hg⟩ | ⟨np, k, f, rfl, rfl⟩
    · rw [hl.state, hp]
      exact hg.running
    · exact forkCode_states f hp (fun e => hc (e ▸ rfl))
  | yield b =>
    replace hp : s.state p = .running := List.mem_singleton.1 hp
    obtain rfl := Option.some.inj h
    simp [cas, hp, Kernel.store_state, Pc.states, Cont.state]
  | sched k =>
    obtain rfl := Option.some.inj h
    replace hp : s.state p = k.state := List.mem_singleton.1 hp
    dsimp only
    split
    · exact hp ▸ k.state_mem_panic
    · exact hp ▸ List.mem_singleton.2 rfl
  | swtch | panic => cases h
  | resume k =>
    replace hp : s.state p = .running := List.mem_singleton.1 hp
    rcases k with _ | ⟨⟨⟩⟩ <;> obtain rfl := Option.some.inj h <;>
      simp [Kernel.store_state, Pc.states, hp, SleepPc.state, WaitPc.state]
  | sleep b ch l k =>
    obtain rfl := Option.some.inj h
    replace hp : s.state p = k.state := List.mem_singleton.1 hp
    cases k <;> simp only [SleepPc.state] at hp <;> simp only [sleepCode, cas] <;> (repeat' split) <;>
      simp_all [Kernel.store_state, Pc.states, SleepPc.state, Cont.state]
  | wakeup1 ret ch j k =>
    obtain rfl := Option.some.inj h
    exact wakeup1_states (List.mem_singleton.1 hp)
  | kill pid sig j k =>
    obtain rfl := Option.some.inj h
    replace hp : s.state p = .running := List.mem_singleton.1 hp
    have hs : (s.store (killCode s pid sig j k).1).state p = .running := by
      cases k with
      | cas => exact (cas_state_ne (by simp [hp])).trans hp
      | _ => simp [killCode, Kernel.store_state, hp]
    rw [hs]
    cases k <;> simp only [killCode, killCode.next, cas] <;> (repeat' split) <;> simp [Pc.states]
  | exit k =>
    obtain rfl := Option.some.inj h
    replace hp : s.state p = k.state := List.mem_singleton.1 hp
    cases k <;> simp only [ExitPc.state] at hp <;> simp only [exitCode, exitNext, cas] <;> (repeat' split) <;>
      simp_all [Kernel.store_state, Pc.states, ExitPc.state, Ret.state, Cont.state]
  | wait k =>
    obtain rfl := Option.some.inj h
    replace hp : s.state p = k.state := List.mem_singleton.1 hp
    cases k with
    | reap j =>
      have hs : (s.store (waitCode s p (.reap j)).1).state p = .negSleeping :=
        (cas_state_ne (by simp [hp, WaitPc.state])).trans hp
      rw [hs]
      simp only [waitCode, waitNext, cas]
      (repeat' split) <;> simp [Pc.states, WaitPc.state]
    | free j =>
      have hs : (s.store (waitCode s p (.free j)).1).state p = .running :=
        (cas_state_ne (by simp [hp, WaitPc.state])).trans hp
      rw [hs]
      simp only [waitCode, cas]
      split <;> simp [Pc.states]
    | _ =>
      simp only [WaitPc.state] at hp
      simp only [waitCode, waitNext, cas]
      (repeat' split) <;> simp_all [Kernel.store_state, Pc.states, WaitPc.state, Cont.state]
  | allocproc j =>
    obtain rfl := Option.some.inj h
    replace hp : s.state p = .running := List.mem_singleton.1 hp
    have hs : (s.store (allocCode s j).1).state p = .running := (cas_state_ne (by simp [hp])).trans hp
    rw [hs]
    simp only [allocCode, cas]
    (repeat' split) <;> simp [Pc.states]

theorem Ret.home_done (ret : Ret) : ret.done.home = ret.home := by
  cases ret with
  | exitChild i => simp only [Ret.done, exitNext]; split <;> rfl
  | _ => rfl

theorem Wakeup.home_pc {ret : Ret} {ch : Chan} {w : Wakeup} {b : Base} (h : (w.pc ret ch).home = some b) :
    ret.home = some b := by
  cases w with
  | place => exact h
  | done => exact ret.home_done ▸ h
  | panic => cases h

theorem Base.Goes.home {b b' : Base} {k : Pc} (h : b.Goes p k) (hk : k.home = some b')
    (hr : b'.child = some r) : b' = b := by
  cases h with
  | base h | yield h | wakeup h | sleep _ h =>
    cases hk
    rcases h.child with h | h
    · exact h
    · rw [h] at hr; cases hr
  | _ => cases hk

theorem forkCode_home {np : Slot} {k : ForkPc} {fails : Bool} {b : Base}
    (hb : (forkCode s p np fails k).2.home = some b) (hr : b.child = some r) : np = r := by
  cases k <;> simp only [forkCode, cas] at hb <;> (try split at hb) <;> cases hb <;> cases hr <;> rfl

/-- A thread that fills a slot has just allocated it, was at the same place of
`fork`, or was on its stack there. -/
theorem procCode_home {i : Store × Pc} {b : Base} (hcpu : s.cpu c = .running p)
    (h : procCode s p a (s.pc p) = some i) (hb : i.2.home = some b) (hr : b.child = some r) :
    (s.pc p).home = some b ∨ (∃ k fails, s.pc p = .base (.fork r k) ∧ i = forkCode s p r fails k) ∨
      (s.pc p = .allocproc r ∧ b = .fork r .nextpid ∧ s.state r = .unused ∧
        (s.store i.1).state r = .embryo) := by
  have hg := procCode_goes hcpu h
  generalize hk : s.pc p = k at h hg
  generalize hk' : i.2 = k' at hg hb
  cases hg with
  | base hg => exact .inl (hg.home hb hr ▸ rfl)
  | @fork np k b' f hf =>
    rcases baseCode_cases hcpu hk h with ⟨_, hg⟩ | ⟨np', k₀, f', he, rfl⟩
    · rw [hk'] at hg
      exact .inl (hg.home hb hr ▸ rfl)
    · cases he
      obtain rfl := forkCode_home (hk' ▸ hb) hr
      exact .inr (.inl ⟨k, f', rfl, rfl⟩)
  | alloced hu =>
    cases hb
    cases hr
    obtain rfl := Option.some.inj h
    exact .inr (.inr ⟨rfl, rfl, hu, by simp [allocCode, cas, hu, Kernel.store_state]⟩)
  | wakeup1 => exact .inl (Wakeup.home_pc hb)
  | killed he => cases hb; rcases he with rfl | rfl <;> cases hr
  | @exit k k' he => cases k <;> simp only [exitCode, exitNext, cas] at he <;> (repeat' split at he) <;> subst he <;> cases hb
  | @wait k k' he =>
    cases k <;> simp only [waitCode, waitNext, cas] at he <;> (repeat' split at he) <;> subst he <;>
      cases hb <;> cases hr
  | yield | sched | yielded | slept | release | chan | sleep | acquire | acquired => exact .inl hb
  | forkret | allocFail => cases hb; cases hr
  | waited | kill | alloc | panic => cases hb

/-! ## The invariant -/

/-- The CPU has claimed process `p` or is on its stack. -/
def Cpu.Holds (p : Slot) (k : Cpu) : Prop :=
  k = .sched (.begin p) ∨ k = .sched (.enter p) ∨ k = .running p

structure Stacks (s : Kernel C) : Prop where
  one : ∀ c d p, (s.cpu c).Holds p → (s.cpu d).Holds p → c = d
  begin : ∀ c p, s.cpu c = .sched (.begin p) → s.state p = .negRunning
  enter : ∀ c p, s.cpu c = .sched (.enter p) → s.state p = .running
  running : ∀ c p, s.cpu c = .running p → s.state p ∈ (s.pc p).states
  parked : ∀ p, (∀ c, s.cpu c ≠ .running p) → ∃ k, s.pc p = .resume k
  embryo : ∀ p q, (s.pc p).child = some q → s.state q = .embryo
  owner : ∀ p q r, (s.pc p).child = some r → (s.pc q).child = some r → p = q

/-- The next access of CPU `c` is a `cas` that makes process `p` free to be
dispatched, woken or reaped. -/
def Kernel.Frees (s : Kernel C) (c : C) (p : Slot) : Prop :=
  (s.cpu c = .sched (.runnable p) ∧ s.state p = .negRunnable) ∨
  (s.cpu c = .sched (.sleeping p) ∧ s.state p = .negSleeping) ∨
  (s.cpu c = .sched (.zombie p) ∧ s.state p = .negZombie) ∨
  ∃ ch, s.Waking c ch p .runnable ∧ s.state p = .negRunnable

/-- CPU `c` is about to free a process that a CPU runs. -/
def Kernel.Overtaken (s : Kernel C) (c : C) : Prop :=
  ∃ p d, s.Frees c p ∧ s.cpu d = .running p

/-- At most one CPU is on a process's stack, and the state of a process on a
CPU is none that would let another CPU dispatch, wake, reap or reuse it. -/
def OneStack (s : Kernel C) : Prop :=
  ∀ c p, s.cpu c = .running p → (∀ d, s.cpu d = .running p → d = c) ∧
    s.state p ∉ [.runnable, .sleeping, .zombie, .preUnused, .unused]

theorem stacks_init : Stacks (Kernel.init C) where
  one c d p h := by simp [Kernel.init, Cpu.Holds] at h
  begin c p h := by simp [Kernel.init] at h
  enter c p h := by simp [Kernel.init] at h
  running c p h := by simp [Kernel.init] at h
  parked p _ := ⟨_, rfl⟩
  embryo p q h := by cases h
  owner p q r h := by cases h

namespace Stacks

theorem onCpu (h : Stacks s) (hp : (s.cpu d).Holds p) : (s.state p).onCpu := by
  rcases hp with hp | hp | hp
  · rw [h.begin d p hp]; rfl
  · rw [h.enter d p hp]; rfl
  · exact onCpu_of_mem (h.running d p hp)

theorem runs_of_pc (h : Stacks s) (hp : ∀ k, s.pc p ≠ .resume k) : ∃ c, s.cpu c = .running p := by
  by_contra hno
  obtain ⟨k, hk⟩ := h.parked p fun c hc => hno ⟨c, hc⟩
  exact hp k hk

theorem resume_of_not_onCpu (h : Stacks s) (hp : ¬ (s.state p).onCpu) : ∃ k, s.pc p = .resume k :=
  h.parked p fun _ hc => hp (h.onCpu (.inr (.inr hc)))

theorem embryo_of {k : ForkPc} (h : Stacks s) (hk : s.pc r = .base (.fork q k)) : s.state q = .embryo :=
  h.embryo r q (by rw [hk]; rfl)

theorem oneStack (h : Stacks s) : OneStack s := by
  intro c p hc
  have hs := h.onCpu (.inr (.inr hc))
  refine ⟨fun d hd => h.one d c p (.inr (.inr hd)) (.inr (.inr hc)), fun hm => ?_⟩
  generalize s.state p = v at hs hm
  cases v <;> simp_all [PState.onCpu]

variable [DecidableEq C]

/-- No step of another CPU changes the state of a process that a CPU holds. -/
theorem state_kept (h : Stacks s) (hg : ¬ s.Overtaken c) (hs : step s (c, a) = some s') (hd : d ≠ c)
    (hp : (s.cpu d).Holds p) : s'.state p = s.state p := by
  have hon := h.onCpu hp
  have hother : ¬ (s.cpu c).Holds p := fun hc => hd (h.one d c p hp hc)
  have hrun (hv : s.state p ≠ .negRunning ∧ s.state p ≠ .running) : s.cpu d = .running p := by
    rcases hp with hp | hp | hp
    · exact absurd (h.begin d p hp) hv.1
    · exact absurd (h.enter d p hp) hv.2
    · exact hp
  rcases step_state hs p with hst | hm
  · exact hst
  exfalso
  generalize hv : s.state p = v at hm hon hrun
  generalize s'.state p = w at hm
  cases hm with
  | begin hc => exact hother (.inl hc)
  | yield hc _ | sleep hc _ | wait hc _ | exit hc _ | waitRun hc _ | waitFail hc _ => exact hother (.inr (.inr hc))
  | toRunnable hc => exact hg ⟨p, d, .inl ⟨hc, hv⟩, hrun (by simp)⟩
  | toSleeping hc => exact hg ⟨p, d, .inr (.inl ⟨hc, hv⟩), hrun (by simp)⟩
  | toZombie hc => exact hg ⟨p, d, .inr (.inr (.inl ⟨hc, hv⟩)), hrun (by simp)⟩
  | woken hw => exact hg ⟨p, d, .inr (.inr (.inr ⟨_, hw, hv⟩)), hrun (by simp)⟩
  | undo _ hk => rw [← hv, h.embryo_of hk] at hon; cases hon
  | claim | wake | kill | reap | free | alloc | publish => cases hon

theorem pc_kept (h : Stacks s) (hs : step s (c, a) = some s') (hc : s.cpu c ≠ .running p)
    (hp : s.cpu d = .running p) : s'.pc p = s.pc p := by
  rcases step_pc_ne hs hc with h' | ⟨r, _, hk, _⟩
  · exact h'
  · have hon := h.onCpu (.inr (.inr hp))
    rw [h.embryo_of hk] at hon
    cases hon

/-- What a step leaves a CPU holding, it held or has just claimed. -/
theorem holds_back (hs : step s (c, a) = some s') (hp : (s'.cpu d).Holds p) :
    (s.cpu d).Holds p ∨ (d = c ∧ s.cpu c = .sched (.claim p) ∧ s.state p = .runnable) := by
  by_cases hd : d = c
  · subst hd
    have hf := step_cpu hs
    rcases hp with hp | hp | hp <;> rw [hp] at hf
    · exact .inr ⟨rfl, hf.1, hf.2.1⟩
    · exact .inl (.inl hf.1)
    · rcases hf with hf | hf
      · exact .inl (.inr (.inr hf))
      · exact .inl (.inr (.inl hf))
  · rw [step_cpu_ne hs hd] at hp
    exact .inl hp

/-- A step of the process that CPU `c` runs. -/
theorem own_step (h : Stacks s) (hs : step s (c, a) = some s') (hc : s.cpu c = .running p)
    (hc' : s'.cpu c = .running p) : s'.state p ∈ (s'.pc p).states := by
  rcases step_running hc hs with ⟨k, _, rfl⟩ | ⟨i, hi, rfl⟩
  · simp at hc'
  · have hrun := h.running c p hc
    simp only [Kernel.setPc_state, Kernel.setPc_self]
    refine procCode_states hc hrun (fun hch => ?_) hi
    have hon := onCpu_of_mem hrun
    rw [h.embryo p p hch] at hon
    cases hon

/-- An `EMBRYO` slot changes only when the thread that fills it is done. -/
theorem embryo_kept (hs : step s (c, a) = some s') (hq : s.state q = .embryo)
    (hq' : s'.state q ≠ .embryo) :
    ∃ r, s.cpu c = .running r ∧ (s.pc r = .base (.fork q .undo) ∨ s.pc r = .base (.fork q .publish)) := by
  rcases step_state hs q with hst | hm
  · exact absurd (hst.trans hq) hq'
  rw [hq] at hm
  generalize s'.state q = w at hm
  cases hm with
  | undo hc hk => exact ⟨_, hc, .inl hk⟩
  | publish hc hk => exact ⟨_, hc, .inr hk⟩

/-- Before a step that leaves a thread in `fork`, it was at the same place of it,
on its stack there, or about to allocate the slot. -/
theorem home_back {b : Base} (hs : step s (c, a) = some s') (hb : (s'.pc p).home = some b)
    (hr : b.child = some r) :
    (s.pc p).home = some b ∨
      (∃ k fails, s.cpu c = .running p ∧ s.pc p = .base (.fork r k) ∧
        s' = (s.store (forkCode s p r fails k).1).setPc p (forkCode s p r fails k).2) ∨
      (s.cpu c = .running p ∧ s.pc p = .allocproc r ∧ b = .fork r .nextpid ∧ s.state r = .unused ∧
        s'.state r = .embryo) := by
  by_cases hc : s.cpu c = .running p
  · rcases step_running hc hs with ⟨k, hk, rfl⟩ | ⟨i, hi, rfl⟩
    · simp only [Kernel.setCpu_pc, Kernel.setPc_self] at hb
      exact .inl (hk ▸ hb)
    · simp only [Kernel.setPc_self] at hb
      rcases procCode_home hc hi hb hr with h | ⟨k, f, h, rfl⟩ | h
      · exact .inl h
      · exact .inr (.inl ⟨k, f, hc, h, rfl⟩)
      · exact .inr (.inr ⟨hc, h⟩)
  · rcases step_pc_ne hs hc with h | ⟨_, _, _, h⟩ <;> rw [h] at hb
    · exact .inl hb
    · cases hb

theorem child_back (hs : step s (c, a) = some s') (hr : (s'.pc p).child = some r) :
    (s.pc p).child = some r ∨ (s.cpu c = .running p ∧ s.state r = .unused ∧ s'.state r = .embryo) := by
  obtain ⟨b, hb, hr⟩ := Option.bind_eq_some_iff.1 hr
  rcases home_back hs hb hr with h | ⟨k, f, _, h, _⟩ | ⟨hc, _, _, h⟩
  · exact .inl (Option.bind_eq_some_iff.2 ⟨b, h, hr⟩)
  · exact .inl (by rw [h]; rfl)
  · exact .inr ⟨hc, h⟩

/-- Once `fork` has undone or published a slot it no longer fills it. -/
theorem child_done (hs : step s (c, a) = some s') (hc : s.cpu c = .running p)
    (hk : s.pc p = .base (.fork q .undo) ∨ s.pc p = .base (.fork q .publish)) (hq : s'.state q ≠ s.state q) :
    (s'.pc p).child = none := by
  rcases hk with hk | hk <;> obtain ⟨i, rfl, ⟨hl, _⟩ | ⟨np, k, f, he, rfl⟩⟩ := step_base hc hk hs <;>
    simp only [Kernel.setPc_self, Kernel.setPc_state] at hq ⊢
  · exact absurd (hl.state q) hq
  · cases he; rfl
  · exact absurd (hl.state q) hq
  · cases he
    simp only [forkCode, cas]
    split <;> rfl

theorem embryo_next (he : ∀ p q, (s.pc p).child = some q → s.state q = .embryo)
    (ho : ∀ p q r, (s.pc p).child = some r → (s.pc q).child = some r → p = q) (hs : step s (c, a) = some s')
    (hq : (s'.pc p).child = some q) : s'.state q = .embryo := by
  rcases child_back hs hq with hq' | ⟨_, _, he⟩
  · have he := he p q hq'
    by_contra hne
    obtain ⟨r, hc, hk⟩ := embryo_kept hs he hne
    obtain rfl : r = p := ho r p q (by rcases hk with hk | hk <;> rw [hk] <;> rfl) hq'
    rw [child_done hs hc hk (by rw [he]; exact hne)] at hq
    cases hq
  · exact he

theorem owner_next (he : ∀ p q, (s.pc p).child = some q → s.state q = .embryo)
    (ho : ∀ p q r, (s.pc p).child = some r → (s.pc q).child = some r → p = q) (hs : step s (c, a) = some s')
    (hp : (s'.pc p).child = some r) (hq : (s'.pc q).child = some r) : p = q := by
  rcases child_back hs hp with hp | ⟨hcp, hu, _⟩ <;> rcases child_back hs hq with hq | ⟨hcq, hu', _⟩
  · exact ho p q r hp hq
  · rw [he p r hp] at hu'; cases hu'
  · rw [he q r hq] at hu; cases hu
  · rw [hcp] at hcq; cases hcq; rfl

/-- A step that overtakes no CPU keeps the invariant. -/
theorem preserved (h : Stacks s) (hg : ¬ s.Overtaken c) (hs : step s (c, a) = some s') : Stacks s' where
  one := by
    -- a claim finds the process `RUNNABLE`, so no CPU held it
    have fresh {d e p} (hd : (s.cpu d).Holds p) (he : s.state p = .runnable) : e = d := by
      have hon := h.onCpu hd
      rw [he] at hon
      cases hon
    intro d e p hd he
    rcases holds_back hs hd with hd | ⟨rfl, _, hd⟩ <;> rcases holds_back hs he with he | ⟨rfl, _, he⟩
    · exact h.one d e p hd he
    · exact (fresh hd he).symm
    · exact fresh he hd
    · rfl
  begin := by
    intro d p hd
    by_cases hdc : d = c
    · subst hdc
      have hf := step_cpu hs
      rw [hd] at hf
      exact hf.2.2
    · rw [step_cpu_ne hs hdc] at hd
      exact (h.state_kept hg hs hdc (.inl hd)).trans (h.begin d p hd)
  enter := by
    intro d p hd
    by_cases hdc : d = c
    · subst hdc
      have hf := step_cpu hs
      rw [hd] at hf
      exact hf.2 (h.begin d p hf.1)
    · rw [step_cpu_ne hs hdc] at hd
      exact (h.state_kept hg hs hdc (.inr (.inl hd))).trans (h.enter d p hd)
  running := by
    intro d p hd
    by_cases hdc : d = c
    · subst hdc
      have hf := step_cpu hs
      rw [hd] at hf
      rcases hf with hf | hf
      · exact h.own_step hs hf hd
      · -- the first step on the stack finds the thread where it was switched out
        have hnone (e : C) : s.cpu e ≠ .running p := by
          intro he
          obtain rfl := h.one d e p (.inr (.inl hf)) (.inr (.inr he))
          rw [hf] at he
          cases he
        obtain ⟨k, hk⟩ := h.parked p hnone
        obtain ⟨i, hi, rfl⟩ := step_sched hf hs
        cases hi
        simp only [Kernel.store, Kernel.setCpu_state, Kernel.setCpu_pc, hk, h.enter d p hf]
        exact List.mem_singleton.2 rfl
    · rw [step_cpu_ne hs hdc] at hd
      have hc : s.cpu c ≠ .running p := fun hc => hdc (h.one d c p (.inr (.inr hd)) (.inr (.inr hc)))
      rw [h.state_kept hg hs hdc (.inr (.inr hd)), h.pc_kept hs hc hd]
      exact h.running d p hd
  parked := by
    intro p hp
    by_cases hc : s.cpu c = .running p
    · rcases step_running hc hs with ⟨k, _, rfl⟩ | ⟨i, _, rfl⟩
      · exact ⟨.cont k, by simp⟩
      · exact absurd (by simpa using hc) (hp c)
    · have hnone (d : C) : s.cpu d ≠ .running p := by
        by_cases hd : d = c
        · exact hd ▸ hc
        · exact step_cpu_ne hs hd ▸ hp d
      rcases step_pc_ne hs hc with h' | ⟨_, _, _, h'⟩
      · exact h' ▸ h.parked p hnone
      · exact ⟨_, h'⟩
  embryo _ _ := embryo_next h.embryo h.owner hs
  owner _ _ _ := owner_next h.embryo h.owner hs

end Stacks

/-! ## Overtaking -/

section

variable [DecidableEq C]

theorem Kernel.Frees.state (hf : s.Frees c p) (hs : step s (c, a) = some s') :
    s'.state p ∈ [.runnable, .sleeping, .zombie] := by
  rcases hf with ⟨hc, hv⟩ | ⟨hc, hv⟩ | ⟨hc, hv⟩ | ⟨ch, hc | ⟨r, ret, hc, hk⟩, hv⟩
  case inr.inr.inr.inr =>
    rcases step_running hc hs with ⟨k, hk', _⟩ | ⟨i, hi, rfl⟩
    · rw [hk] at hk'; cases hk'
    · rw [hk] at hi
      obtain rfl := Option.some.inj hi
      simp [wakeup1, cas, hv, Kernel.store_state]
  all_goals
    obtain ⟨i, hi, rfl⟩ := step_sched hc hs
    obtain rfl := Option.some.inj hi
    simp [wakeup1, cas, hv, Kernel.store_state]

theorem Kernel.Frees.cpu (hf : s.Frees c p) (hs : step s (c, a) = some s') (hd : s.cpu d = .running q) :
    s'.cpu d = .running q := by
  by_cases hdc : d = c
  · subst hdc
    rcases hf with ⟨hc, _⟩ | ⟨hc, _⟩ | ⟨hc, _⟩ | ⟨ch, hc | ⟨r, ret, hc, hk⟩, _⟩
    case inr.inr.inr.inr =>
      rcases step_running hc hs with ⟨k, hk', _⟩ | ⟨i, _, rfl⟩
      · rw [hk] at hk'; cases hk'
      · simpa using hd
    all_goals rw [hd] at hc; cases hc
  · rw [step_cpu_ne hs hdc]
    exact hd

theorem Kernel.Overtaken.not_oneStack (h : s.Overtaken c) (hs : step s (c, a) = some s') : ¬ OneStack s' := by
  obtain ⟨p, d, hf, hd⟩ := h
  intro ho
  have hm := hf.state hs
  refine (ho d p (hf.cpu hs hd)).2 ?_
  simp only [List.mem_cons, List.not_mem_nil, or_false] at hm ⊢
  rcases hm with hm | hm | hm <;> simp [hm]

/-- Every state of an interleaving has one CPU on each stack exactly when no
step of it frees a process that a CPU runs. -/
theorem oneStack_iff_not_overtaken (ls : List (C × Act)) :
    Along step (Kernel.init C) ls OneStack ↔
      Steps step (Kernel.init C) ls fun s l => ¬ s.Overtaken l.1 :=
  along_iff_steps Stacks OneStack (fun _ h => h.oneStack) (fun _ _ _ h hg hs => h.preserved hg hs)
    (fun _ _ _ hs hg => (not_not.1 hg).not_oneStack hs) ls stacks_init

end

/-- `n` steps of CPU `c`. -/
def cpuSteps {C : Type} (c : C) (n : Nat) : List (C × Act) := List.replicate n (c, .step)

/-- CPU 0 dispatches `init`, a timer tick makes it yield, and CPU 0 sets it
`RUNNABLE`. Before CPU 0 makes its second `cas`, CPU 1 dispatches `init`, which
calls `sleep`. CPU 0's second `cas` then ends that transition. -/
def overtaking : List (Fin 2 × Act) :=
  cpuSteps 0 9 ++ [(0, .trap)] ++ cpuSteps 0 2 ++ [(0, .yield)] ++ cpuSteps 0 4 ++
  cpuSteps 1 9 ++ [(1, .syscall), (1, .step), (1, .acquire 1), (1, .sleep (.addr 7) 1), (1, .step), (0, .step)]

theorem overtaking_frees_running :
    ¬ ∀ ls s, exec step (Kernel.init (Fin 2)) ls = some s → OneStack s := by
  intro h
  have hrun : (exec step (Kernel.init (Fin 2)) overtaking).map (fun s => (s.cpu 1, s.state 0)) =
    some (.running 0, .sleeping) := by decide
  obtain ⟨s, hs, he⟩ := Option.map_eq_some_iff.1 hrun
  obtain ⟨hc, hv⟩ := Prod.mk.inj he
  exact (h overtaking s hs 1 0 hc).2 (by simp [hv])

end Xv6
