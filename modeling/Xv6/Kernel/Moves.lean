import Xv6.Kernel.Code
/-!
# What one step changes

A step makes at most one store. `Effect` lists the stores there are, each with
where the CPU that makes it stands, and `step_effect` says there are no others;
`Cpu.From` and `step_pc_ne` say the same of where CPUs and threads go. The
invariants are case analyses over these and do not look at the code again.
-/

namespace Xv6

variable {C : Type} {s s' : Kernel C} {c : C} {a : Act} {p q : Slot}

namespace Kernel

@[simp] theorem setPc_cpu (s : Kernel C) (q : Slot) (k : Pc) : (s.setPc q k).cpu = s.cpu := rfl
@[simp] theorem setPc_proc (s : Kernel C) (q : Slot) (k : Pc) : (s.setPc q k).proc = s.proc := rfl
@[simp] theorem setCpu_pc [DecidableEq C] (s : Kernel C) (c : C) (k : Cpu) : (s.setCpu c k).pc = s.pc := rfl

@[simp] theorem setPc_state (s : Kernel C) (q r : Slot) (k : Pc) : (s.setPc q k).state r = s.state r := rfl
@[simp] theorem setPc_chan (s : Kernel C) (q r : Slot) (k : Pc) : (s.setPc q k).chan r = s.chan r := rfl
@[simp] theorem setPc_parent (s : Kernel C) (q r : Slot) (k : Pc) : (s.setPc q k).parent r = s.parent r := rfl
@[simp] theorem setPc_sig (s : Kernel C) (q r : Slot) (k : Pc) : (s.setPc q k).sig r = s.sig r := rfl
@[simp] theorem setCpu_state [DecidableEq C] (s : Kernel C) (c : C) (k : Cpu) (r : Slot) :
    (s.setCpu c k).state r = s.state r := rfl
@[simp] theorem setCpu_sig [DecidableEq C] (s : Kernel C) (c : C) (k : Cpu) (r : Slot) :
    (s.setCpu c k).sig r = s.sig r := rfl

@[simp] theorem setPc_self (s : Kernel C) (q : Slot) (k : Pc) : (s.setPc q k).pc q = k := by
  simp [setPc]

@[simp] theorem setPc_ne (s : Kernel C) {q r : Slot} (k : Pc) (h : r ≠ q) : (s.setPc q k).pc r = s.pc r := by
  simp [setPc, h]

@[simp] theorem setCpu_self [DecidableEq C] (s : Kernel C) (c : C) (k : Cpu) : (s.setCpu c k).cpu c = k := by
  simp [setCpu]

@[simp] theorem setCpu_ne [DecidableEq C] (s : Kernel C) {c d : C} (k : Cpu) (h : d ≠ c) : (s.setCpu c k).cpu d = s.cpu d := by
  simp [setCpu, h]

@[simp] theorem store_cpu (s : Kernel C) (st : Store) : (s.store st).cpu = s.cpu := by
  cases st <;> rfl

theorem store_pc (s : Kernel C) (st : Store) (q : Slot) :
    (s.store st).pc q = match st with
      | .context r => if q = r then .resume .forkret else s.pc q
      | _ => s.pc q := by
  cases st <;> try rfl
  simp only [store, setPc, Function.update_apply]

/-- Only a store to `state` changes it. -/
theorem store_state (s : Kernel C) (st : Store) (q : Slot) :
    (s.store st).state q = match st with
      | .state r v => if q = r then v else s.state q
      | _ => s.state q := by
  cases st <;> simp only [store, state, setProc, setPc, Function.update_apply] <;> split <;> simp_all

theorem store_chan (s : Kernel C) (st : Store) (q : Slot) :
    (s.store st).chan q = match st with
      | .chan r v => if q = r then v else s.chan q
      | _ => s.chan q := by
  cases st <;> simp only [store, chan, setProc, setPc, Function.update_apply] <;> split <;> simp_all

theorem store_parent (s : Kernel C) (st : Store) (q : Slot) :
    (s.store st).parent q = match st with
      | .parent r v => if q = r then v else s.parent q
      | _ => s.parent q := by
  cases st <;> simp only [store, parent, setProc, setPc, Function.update_apply] <;> split <;> simp_all

theorem store_sig (s : Kernel C) (st : Store) (q : Slot) :
    (s.store st).sig q = match st with
      | .sig r f => if q = r then f (s.sig q) else s.sig q
      | _ => s.sig q := by
  cases st <;> simp only [store, sig, setProc, setPc, Function.update_apply] <;> split <;> simp_all

theorem store_pid (s : Kernel C) (st : Store) (q : Slot) :
    ((s.store st).proc q).pid = match st with
      | .pid r v => if q = r then v else (s.proc q).pid
      | _ => (s.proc q).pid := by
  cases st <;> simp only [store, setProc, setPc, Function.update_apply] <;> split <;> simp_all

/-- CPU `c` is in `wakeup1(ch)` at entry `i`. -/
def Waking (s : Kernel C) (c : C) (ch : Chan) (i : Slot) (k : WakeupPc) : Prop :=
  s.cpu c = .sched (.intr ch i k) ∨ ∃ p r, s.cpu c = .running p ∧ s.pc p = .wakeup1 r ch i k

end Kernel

/-! ## Stores -/

/-- The ways a step of CPU `c` changes the state of process `q`. -/
inductive Move (s : Kernel C) (c : C) (q : Slot) : PState → PState → Prop
  -- the scheduler
  | claim : s.cpu c = .sched (.claim q) → Move s c q .runnable .negRunning
  | begin : s.cpu c = .sched (.begin q) → Move s c q .negRunning .running
  | toRunnable : s.cpu c = .sched (.runnable q) → Move s c q .negRunnable .runnable
  | toSleeping : s.cpu c = .sched (.sleeping q) → Move s c q .negSleeping .sleeping
  | toZombie : s.cpu c = .sched (.zombie q) → Move s c q .negZombie .zombie
  -- the process itself
  | yield {b} : s.cpu c = .running q → s.pc q = .yield b → Move s c q .running .negRunnable
  | sleep {b ch l} : s.cpu c = .running q → s.pc q = .sleep b ch l .cas → Move s c q .running .negSleeping
  | wait : s.cpu c = .running q → s.pc q = .wait .cas → Move s c q .running .negSleeping
  | exit : s.cpu c = .running q → s.pc q = .exit .cas → Move s c q .running .negZombie
  | waitRun {i} : s.cpu c = .running q → s.pc q = .wait (.run i) → Move s c q .negSleeping .running
  | waitFail : s.cpu c = .running q → s.pc q = .wait .fail → Move s c q .negSleeping .running
  -- others
  | wake {ch} : s.Waking c ch q .cas → Move s c q .sleeping .negRunnable
  | woken {ch} : s.Waking c ch q .runnable → Move s c q .negRunnable .runnable
  | kill {r pid sig} : s.cpu c = .running r → s.pc r = .kill pid sig q .cas → Move s c q .sleeping .runnable
  | reap {r} : s.cpu c = .running r → s.pc r = .wait (.reap q) → Move s c q .zombie .preUnused
  | free {r} : s.cpu c = .running r → s.pc r = .wait (.free q) → Move s c q .preUnused .unused
  | alloc {r} : s.cpu c = .running r → s.pc r = .allocproc q → Move s c q .unused .embryo
  | undo {r v} : s.cpu c = .running r → s.pc r = .base (.fork q .undo) → Move s c q v .unused
  | publish {r} : s.cpu c = .running r → s.pc r = .base (.fork q .publish) → Move s c q .embryo .runnable

/-- The ways a step of CPU `c` stores to the channel of process `q`. -/
inductive Rechan (s : Kernel C) (c : C) (q : Slot) : Chan → Prop
  | sleep {b ch l} : s.cpu c = .running q → s.pc q = .sleep b ch l .chan → Rechan s c q ch
  | awake {b ch l} : s.cpu c = .running q → s.pc q = .resume (.cont (.sleep b ch l)) → Rechan s c q .null
  | wait : s.cpu c = .running q → s.pc q = .wait .chan → Rechan s c q (.proc q)
  | waitClear : s.cpu c = .running q → s.pc q = .wait .clear → Rechan s c q .null
  | clear {ch} : s.Waking c ch q .clear → Rechan s c q .null

/-- The ways a step of CPU `c` stores to the parent of process `q`. -/
inductive Reparent (s : Kernel C) (c : C) (q : Slot) : Option Slot → Prop
  | fork {r} : s.cpu c = .running r → s.pc r = .base (.fork q .parent) → Reparent s c q (some r)
  | exit {r} : s.cpu c = .running r → s.pc r = .exit (.reparent q) → Reparent s c q (some initproc)
  | wait {r} : s.cpu c = .running r → s.pc r = .wait (.parent q) → Reparent s c q none

/-- The ways a step of CPU `c` stores to the signal fields of process `q`. -/
inductive Resig (s : Kernel C) (c : C) (q : Slot) : (Sigs → Sigs) → Prop
  -- the process itself
  | signals {k f} : s.cpu c = .running q → s.pc q = .base (.signals k) → (signalsCode s q k).1 = .sig q f →
      Resig s c q f
  | sigprocmask {m} : s.cpu c = .running q → s.pc q = .base .sys → Resig s c q (Sigs.sigprocmask m)
  | sigaction {i h m} : s.cpu c = .running q → s.pc q = .base .sys → ¬ (i = SIGKILL ∨ i = SIGSTOP) →
      Resig s c q (Sigs.sigaction i h m)
  | sigret : s.cpu c = .running q → s.pc q = .base .sys → Resig s c q Sigs.sigret
  | exec : s.cpu c = .running q → s.pc q = .base .sys → Resig s c q Sigs.exec
  | fault : s.cpu c = .running q → s.pc q = .base .trap → Resig s c q fun g => { g with killed := true }
  -- others
  | kill {r pid sig v} : s.cpu c = .running r → s.pc r = .kill pid sig q (.store v) →
      Resig s c q fun g => { g with pendingSignals := v ||| bit sig }
  | cont {j v} : s.cpu c = .sched (.cont q j (.store v)) →
      Resig s c q fun g => { g with pendingSignals := v ^^^ bit j }
  | unfreeze : s.cpu c = .sched (.unfreeze q) → Resig s c q fun g => { g with frozen := false }
  | wait {r} : s.cpu c = .running r → s.pc r = .wait (.killed q) → Resig s c q fun g => { g with killed := false }
  | fork {r k f} (fails : Bool) : s.cpu c = .running r → s.pc r = .base (.fork q k) →
      (forkCode s r q fails k).1 = .sig q f → Resig s c q f

/-- The ways a step of CPU `c` stores to the pid of process `q`. -/
inductive Repid (s : Kernel C) (c : C) (q : Slot) : Int → Prop
  | fork {r v} : s.cpu c = .running r → s.pc r = .base (.fork q (.pid v)) → Repid s c q v
  | wait {r} : s.cpu c = .running r → s.pc r = .wait (.pid q) → Repid s c q 0

/-- A store that no other process's thread or scheduler looks at. -/
def Store.Quiet : Store → Prop
  | .skip | .acquire _ _ | .release _ _ => True
  | _ => False

/-- The stores a step of CPU `c` may make. -/
inductive Effect (s : Kernel C) (c : C) : Store → Prop
  | quiet {st} : st.Quiet → Effect s c st
  | state {q v} : Move s c q (s.state q) v → Effect s c (.state q v)
  | chan {q v} : Rechan s c q v → Effect s c (.chan q v)
  | parent {q v} : Reparent s c q v → Effect s c (.parent q v)
  | sig {q f} : Resig s c q f → Effect s c (.sig q f)
  | pid {q v} : Repid s c q v → Effect s c (.pid q v)
  | nextpid {r q} : s.cpu c = .running r → s.pc r = .base (.fork q (.casPid s.nextpid)) →
      Effect s c (.nextpid (s.nextpid + 1))
  | context {r q} : s.cpu c = .running r → s.pc r = .base (.fork q .context) → Effect s c (.context q)

namespace Effect

variable {st : Store}

theorem state_cases (h : Effect s c st) (q : Slot) :
    (s.store st).state q = s.state q ∨ Move s c q (s.state q) ((s.store st).state q) := by
  cases h with
  | @state r v h =>
    by_cases hq : q = r
    · subst hq; exact .inr (by simpa [Kernel.store_state] using h)
    · exact .inl (by simp [Kernel.store_state, hq])
  | @quiet st h => cases st <;> first | exact h.elim | exact .inl (by simp [Kernel.store_state])
  | _ => exact .inl (by simp [Kernel.store_state])

theorem chan_cases (h : Effect s c st) (q : Slot) :
    (s.store st).chan q = s.chan q ∨ Rechan s c q ((s.store st).chan q) := by
  cases h with
  | @chan r v h =>
    by_cases hq : q = r
    · subst hq; exact .inr (by simpa [Kernel.store_chan] using h)
    · exact .inl (by simp [Kernel.store_chan, hq])
  | @quiet st h => cases st <;> first | exact h.elim | exact .inl (by simp [Kernel.store_chan])
  | _ => exact .inl (by simp [Kernel.store_chan])

theorem parent_cases (h : Effect s c st) (q : Slot) :
    (s.store st).parent q = s.parent q ∨ Reparent s c q ((s.store st).parent q) := by
  cases h with
  | @parent r v h =>
    by_cases hq : q = r
    · subst hq; exact .inr (by simpa [Kernel.store_parent] using h)
    · exact .inl (by simp [Kernel.store_parent, hq])
  | @quiet st h => cases st <;> first | exact h.elim | exact .inl (by simp [Kernel.store_parent])
  | _ => exact .inl (by simp [Kernel.store_parent])

theorem sig_cases (h : Effect s c st) (q : Slot) :
    (s.store st).sig q = s.sig q ∨ ∃ f, Resig s c q f ∧ (s.store st).sig q = f (s.sig q) := by
  cases h with
  | @sig r f h =>
    by_cases hq : q = r
    · subst hq; exact .inr ⟨f, h, by simp [Kernel.store_sig]⟩
    · exact .inl (by simp [Kernel.store_sig, hq])
  | @quiet st h => cases st <;> first | exact h.elim | exact .inl (by simp [Kernel.store_sig])
  | _ => exact .inl (by simp [Kernel.store_sig])

theorem pid_cases (h : Effect s c st) (q : Slot) :
    ((s.store st).proc q).pid = (s.proc q).pid ∨ Repid s c q ((s.store st).proc q).pid := by
  cases h with
  | @pid r v h =>
    by_cases hq : q = r
    · subst hq; exact .inr (by simpa [Kernel.store_pid] using h)
    · exact .inl (by simp [Kernel.store_pid, hq])
  | @quiet st h => cases st <;> first | exact h.elim | exact .inl (by simp [Kernel.store_pid])
  | _ => exact .inl (by simp [Kernel.store_pid])

theorem nextpid_cases (h : Effect s c st) :
    (s.store st).nextpid = s.nextpid ∨ ((s.store st).nextpid = s.nextpid + 1 ∧
      ∃ r q, s.cpu c = .running r ∧ s.pc r = .base (.fork q (.casPid s.nextpid))) := by
  cases h with
  | nextpid hc hk => exact .inr ⟨rfl, _, _, hc, hk⟩
  | @quiet st h => cases st <;> first | exact h.elim | exact .inl rfl
  | _ => exact .inl rfl

theorem pc_cases (h : Effect s c st) (q : Slot) :
    (s.store st).pc q = s.pc q ∨
      ∃ r, s.cpu c = .running r ∧ s.pc r = .base (.fork q .context) ∧ (s.store st).pc q = .resume .forkret := by
  cases h with
  | @context r q' hc hk =>
    by_cases hq : q = q'
    · subst hq; exact .inr ⟨r, hc, hk, by simp [Kernel.store_pc]⟩
    · exact .inl (by simp [Kernel.store_pc, hq])
  | @quiet st h => cases st <;> first | exact h.elim | exact .inl (by simp [Kernel.store_pc])
  | _ => exact .inl (by simp [Kernel.store_pc])

end Effect

/-! ## Effects of the code -/

@[simp] theorem cas_same {κ : Type} (s : Kernel C) (q : Slot) (old new : PState) (k : κ) :
    (cas s q old new k k).2 = k := by
  unfold cas
  split <;> rfl

theorem cas_effect {κ : Type} {r : Slot} {old new : PState} {ok fail : κ} (hm : Move s c r old new) :
    Effect s c (cas s r old new ok fail).1 := by
  unfold cas
  split
  · rename_i h
    exact .state (h ▸ hm)
  · exact .quiet trivial

theorem wakeup1_effect {ch : Chan} {i : Slot} {k : WakeupPc} (hw : s.Waking c ch i k) :
    Effect s c (wakeup1 s ch i k).1 := by
  cases k with
  | cas => exact cas_effect (.wake hw)
  | clear => exact .chan (.clear hw)
  | runnable => exact cas_effect (.woken hw)
  | _ => exact .quiet trivial

theorem schedCode_effect {k : SchedPc} {i : Store × Cpu} (hc : s.cpu c = .sched k)
    (h : schedCode s a k = some i) : Effect s c i.1 := by
  cases k with
  | top => cases a <;> cases h <;> exact .quiet trivial
  | intr => obtain rfl := Option.some.inj h; exact wakeup1_effect (.inl hc)
  | frozen | enter => obtain rfl := Option.some.inj h; exact .quiet trivial
  | cont i j k =>
    obtain rfl := Option.some.inj h
    cases k with
    | store v => exact .sig (.cont hc)
    | _ => exact .quiet trivial
  | unfreeze => obtain rfl := Option.some.inj h; exact .sig (.unfreeze hc)
  | claim => obtain rfl := Option.some.inj h; exact cas_effect (.claim hc)
  | begin => obtain rfl := Option.some.inj h; exact cas_effect (.begin hc)
  | runnable => obtain rfl := Option.some.inj h; exact cas_effect (.toRunnable hc)
  | sleeping => obtain rfl := Option.some.inj h; exact cas_effect (.toSleeping hc)
  | zombie => obtain rfl := Option.some.inj h; exact cas_effect (.toZombie hc)

theorem forkCode_effect {np : Slot} {k : ForkPc} (fails : Bool) (hc : s.cpu c = .running p)
    (hp : s.pc p = .base (.fork np k)) : Effect s c (forkCode s p np fails k).1 := by
  cases k with
  | undo => exact .state (.undo hc hp)
  | publish => exact cas_effect (.publish hc hp)
  | parent => exact .parent (.fork hc hp)
  | context => exact .context hc hp
  | handlers0 | pending0 | mask0 | mask | pending | handlers => exact .sig (.fork fails hc hp rfl)
  | casPid v =>
    simp only [forkCode]
    split
    · rename_i h
      subst h
      exact .nextpid hc hp
    · exact .quiet trivial
  | pid v => exact .pid (.fork hc hp)
  | _ => exact .quiet trivial

/-! ## Code outside the functions on processes -/

/-- A store to the process's own signal fields, or a quiet one. -/
def Store.Local (s : Kernel C) (c : C) (p : Slot) (st : Store) : Prop :=
  st.Quiet ∨ ∃ f, st = .sig p f ∧ Resig s c p f

namespace Store.Local

variable {st : Store}

theorem effect (h : st.Local s c p) : Effect s c st := by
  rcases h with h | ⟨f, rfl, h⟩
  · exact .quiet h
  · exact .sig h

theorem state (h : st.Local s c p) (q : Slot) : (s.store st).state q = s.state q := by
  rcases h with h | ⟨f, rfl, _⟩
  · cases st <;> simp_all [Store.Quiet, Kernel.store_state]
  · simp [Kernel.store_state]

theorem parent (h : st.Local s c p) (q : Slot) : (s.store st).parent q = s.parent q := by
  rcases h with h | ⟨f, rfl, _⟩
  · cases st <;> simp_all [Store.Quiet, Kernel.store_parent]
  · simp [Kernel.store_parent]

end Store.Local

/-- The slot `fork` is filling. -/
def Base.child : Base → Option Slot
  | .fork np _ => some np
  | _ => none

/-- Code that was at `b` may go on at `b'` without a call in between. -/
structure Base.Next (p : Slot) (b b' : Base) : Prop where
  child : b' = b ∨ b'.child = none
  exiting : b' = .exiting → b = .exiting ∨ p ≠ initproc

/-- Where a thread of process `p` goes on from `b`, the steps of `fork` apart. -/
inductive Base.Goes (p : Slot) (b : Base) : Pc → Prop
  | base {b'} : b.Next p b' → b.Goes p (.base b')
  | yield {b'} : b.Next p b' → b.Goes p (.yield b')
  | wakeup {b' ch} : b.Next p b' → b.Goes p (.wakeup1 (.base b') ch 0 .chan)
  | sleep {b' ch l} : b.child = none → b.Next p b' → b.Goes p (.sleep b' ch l .cas)
  | wait : b = .sys → b.Goes p (.wait .cas)
  | exit : b = .exiting → b.Goes p (.exit .cas)
  | kill {pid sig} : b = .sys → b.Goes p (.kill pid sig 0 .pid)
  | alloc : b = .sys → b.Goes p (.allocproc 0)
  | panic : b.Goes p .panic

theorem Base.Next.refl (b : Base) : b.Next p b := ⟨.inl rfl, .inl⟩

theorem Base.Next.plain {b b' : Base} (hc : b'.child = none) (he : b' ≠ .exiting) : b.Next p b' :=
  ⟨.inr hc, fun h => absurd h he⟩

theorem exitEntry_goes (b : Base) : b.Goes p (exitEntry p) := by
  unfold exitEntry
  split
  · exact .panic
  · exact .base ⟨.inr rfl, fun _ => .inr ‹_›⟩

theorem kernelCode_cases {b : Base} {i : Store × Pc} (h : kernelCode s p b a = some i) :
    i.1.Quiet ∧ b.Goes p i.2 := by
  cases a <;> simp only [kernelCode] at h <;> (repeat' split at h) <;> cases h <;>
    refine ⟨trivial, ?_⟩ <;> (try dsimp only) <;>
    first | exact .panic | exact .base (.refl b) | exact .wakeup (.refl b) | exact .yield (.refl b)

theorem sysCode_cases {i : Store × Pc} (hc : s.cpu c = .running p) (hp : s.pc p = .base .sys)
    (h : sysCode s p a = some i) : i.1.Local s c p ∧ Base.sys.Goes p i.2 := by
  have next : Base.sys.Next p .sys := .refl _
  cases a with
  | acquire | release | wakeup | yield | env | syscall | trap | fault | fail =>
    simp only [sysCode] at h
    exact (kernelCode_cases h).imp_left .inl
  | sleep ch l | loop L ch l =>
    simp only [sysCode] at h
    split at h <;> cases h
    first | exact ⟨.inl trivial, .sleep rfl next⟩ | exact ⟨.inl trivial, .base (.plain rfl (by simp))⟩
  | wait | exit | fork | kill | step =>
    simp only [sysCode, unlocked] at h
    split at h <;> cases h
    refine ⟨.inl trivial, ?_⟩
    first
    | exact .wait rfl
    | exact exitEntry_goes _
    | exact .alloc rfl
    | exact .base (.plain rfl (by simp))
    | (dsimp only [killEntry]; split; exacts [.kill rfl, .base (.plain rfl (by simp))])
  | sigprocmask => cases h; exact ⟨.inr ⟨_, rfl, .sigprocmask hc hp⟩, .base next⟩
  | sigret => cases h; exact ⟨.inr ⟨_, rfl, .sigret hc hp⟩, .base next⟩
  | exec => cases h; exact ⟨.inr ⟨_, rfl, .exec hc hp⟩, .base next⟩
  | sigaction =>
    simp only [sysCode] at h
    split at h <;> cases h
    · exact ⟨.inl trivial, .base (.plain rfl (by simp))⟩
    · exact ⟨.inr ⟨_, rfl, .sigaction hc hp ‹_›⟩, .base next⟩

theorem signalsNext_next (b : Base) (i : Sig) : b.Next p (signalsNext i) := by
  unfold signalsNext
  split <;> exact .plain rfl (by simp)

theorem signalsCode_goes (b : Base) (k : SignalsPc) : b.Goes p (signalsCode s p k).2 := by
  have user : b.Next p .user := .plain rfl (by simp)
  have signals (k : SignalsPc) : b.Next p (.signals k) := .plain rfl (by simp)
  have next (i : Sig) := signalsNext_next (p := p) b i
  cases k <;> simp only [signalsCode] <;> (repeat' split) <;>
    first | exact .base user | exact .base (signals _) | exact .base (next _) | exact .yield (next _)

theorem signalsCode_local {k : SignalsPc} (hc : s.cpu c = .running p) (hp : s.pc p = .base (.signals k)) :
    (signalsCode s p k).1.Local s c p := by
  cases k with
  | store i v => exact .inr ⟨_, rfl, .signals hc hp rfl⟩
  | act i =>
    have h : ∃ f, (signalsCode s p (.act i)).1 = .sig p f := by
      simp only [signalsCode]
      split <;> exact ⟨_, rfl⟩
    obtain ⟨f, hf⟩ := h
    exact .inr ⟨f, hf, .signals hc hp hf⟩
  | _ => exact .inl trivial

theorem loopCode_cases (L : Loop) (ch : Chan) (l : Lock) (e : LoopEnv) :
    (loopCode s p L ch l e).1.Quiet ∧ (Base.loop L ch l).Goes p (loopCode s p L ch l e).2 := by
  unfold loopCode
  (repeat' split) <;> refine ⟨trivial, ?_⟩ <;>
    first
    | exact .panic
    | exact .wakeup (.plain rfl (by simp))
    | exact .base (.plain rfl (by simp))

/-- What the code at `b` does in one step. -/
theorem baseCode_cases {b : Base} {i : Store × Pc} (hc : s.cpu c = .running p) (hp : s.pc p = .base b)
    (h : baseCode s p a b = some i) :
    (i.1.Local s c p ∧ b.Goes p i.2) ∨ ∃ np k fails, b = .fork np k ∧ i = forkCode s p np fails k := by
  cases b with
  | sys => exact .inl (sysCode_cases hc hp h)
  | fork np k =>
    simp only [baseCode, unlocked] at h
    split at h
    · split at h <;> cases h
      exact .inr ⟨np, k, false, rfl, rfl⟩
    · split at h <;> cases h
      exact .inr ⟨np, k, true, rfl, rfl⟩
    · exact .inl ((kernelCode_cases h).imp_left .inl)
  | signals k =>
    simp only [baseCode, unlocked] at h
    split at h
    · split at h <;> cases h
      exact .inl ⟨signalsCode_local hc hp, signalsCode_goes _ k⟩
    · exact .inl ((kernelCode_cases h).imp_left .inl)
  | loop L ch l =>
    simp only [baseCode] at h
    split at h <;> cases h
    exact .inl ((loopCode_cases L ch l _).imp_left .inl)
  | loopSleep L ch l => cases h; exact .inl ⟨.inl trivial, .sleep rfl (.plain rfl (by simp))⟩
  | exiting | forkret =>
    simp only [baseCode, unlocked] at h
    split at h
    · split at h <;> cases h
      exact .inl ⟨.inl trivial, .sleep rfl (.refl _)⟩
    · split at h <;> cases h
      first
      | exact .inl ⟨.inl trivial, .exit rfl⟩
      | exact .inl ⟨.inl trivial, .base (.plain rfl (by simp))⟩
    · exact .inl ((kernelCode_cases h).imp_left .inl)
  | trap =>
    simp only [baseCode, unlocked] at h
    split at h
    · cases h; exact .inl ⟨.inr ⟨_, rfl, .fault hc hp⟩, .base (.refl _)⟩
    · split at h <;> cases h
      exact .inl ⟨.inl trivial, .base (.plain rfl (by simp))⟩
    · cases h
    · exact .inl ((kernelCode_cases h).imp_left .inl)
  | user | timer =>
    simp only [baseCode] at h
    split at h <;> cases h <;> refine .inl ⟨.inl trivial, ?_⟩ <;> (try split) <;>
      first | exact .yield (.plain rfl (by simp)) | exact .base (.plain rfl (by simp))
  | syscall | error | sysret | killed1 | killed2 =>
    simp only [baseCode, Option.some.injEq] at h
    subst h
    refine .inl ⟨.inl trivial, ?_⟩
    (try split) <;> first | exact exitEntry_goes _ | exact .base (.plain rfl (by simp))

theorem procCode_effect {i : Store × Pc} (hc : s.cpu c = .running p)
    (h : procCode s p a (s.pc p) = some i) : Effect s c i.1 := by
  generalize hp : s.pc p = k at h
  cases k with
  | base b =>
    rcases baseCode_cases hc hp h with ⟨hl, _⟩ | ⟨np, k, f, rfl, rfl⟩
    · exact hl.effect
    · exact forkCode_effect f hc hp
  | yield => obtain rfl := Option.some.inj h; exact cas_effect (.yield hc hp)
  | allocproc => obtain rfl := Option.some.inj h; exact cas_effect (.alloc hc hp)
  | wakeup1 r => obtain rfl := Option.some.inj h; exact wakeup1_effect (.inr ⟨p, r, hc, hp⟩)
  | sched => obtain rfl := Option.some.inj h; exact .quiet trivial
  | swtch | panic => cases h
  | resume k =>
    rcases k with _ | k
    · obtain rfl := Option.some.inj h; exact .quiet trivial
    · cases k with
      | sleep => obtain rfl := Option.some.inj h; exact .chan (.awake hc hp)
      | _ => obtain rfl := Option.some.inj h; exact .quiet trivial
  | sleep b ch l k =>
    obtain rfl := Option.some.inj h
    cases k with
    | cas => exact cas_effect (.sleep hc hp)
    | chan => exact .chan (.sleep hc hp)
    | release | acquire => simp only [sleepCode]; split <;> exact .quiet trivial
  | kill pid sig j k =>
    obtain rfl := Option.some.inj h
    cases k with
    | cas => exact cas_effect (.kill hc hp)
    | store => exact .sig (.kill hc hp)
    | _ => exact .quiet trivial
  | exit k =>
    obtain rfl := Option.some.inj h
    cases k with
    | cas => exact cas_effect (.exit hc hp)
    | reparent => exact .parent (.exit hc hp)
    | _ => exact .quiet trivial
  | wait k =>
    obtain rfl := Option.some.inj h
    cases k with
    | cas => exact cas_effect (.wait hc hp)
    | chan => exact .chan (.wait hc hp)
    | pid => exact .pid (.wait hc hp)
    | reap => exact cas_effect (.reap hc hp)
    | parent => exact .parent (.wait hc hp)
    | killed => exact .sig (.wait hc hp)
    | run => exact cas_effect (.waitRun hc hp)
    | free => exact cas_effect (.free hc hp)
    | fail => exact cas_effect (.waitFail hc hp)
    | clear => exact .chan (.waitClear hc hp)
    | _ => exact .quiet trivial

/-- Where a step of process `p` at `k` takes its thread. -/
inductive Pc.Goes (s : Kernel C) (p : Slot) : Pc → Pc → Prop
  | base {b k} : b.Goes p k → Goes s p (.base b) k
  | fork {np k b} (fails : Bool) : (forkCode s p np fails k).2 = .base b → Goes s p (.base (.fork np k)) (.base b)
  | yield {b} : Goes s p (.yield b) (.sched (.yield b))
  | sched {k} : Goes s p (.sched k) (.swtch k)
  -- back from `sched`
  | forkret : Goes s p (.resume .forkret) (.base .forkret)
  | yielded {b} : Goes s p (.resume (.cont (.yield b))) (.base b)
  | slept {b ch l} : Goes s p (.resume (.cont (.sleep b ch l))) (.sleep b ch l .acquire)
  | waited : Goes s p (.resume (.cont .wait)) (.wait .cas)
  -- `sleep`
  | release {b ch l} : Goes s p (.sleep b ch l .cas) (.sleep b ch l .release)
  | chan {b ch l} : Goes s p (.sleep b ch l .release) (.sleep b ch l .chan)
  | sleep {b ch l} : Goes s p (.sleep b ch l .chan) (.sched (.sleep b ch l))
  | acquire {b ch l} : Goes s p (.sleep b ch l .acquire) (.sleep b ch l .acquire)
  | acquired {b ch l} : Goes s p (.sleep b ch l .acquire) (.base b)
  -- `wakeup1`, `exit` and `wait`
  | wakeup1 {r ch i k} : Goes s p (.wakeup1 r ch i k) ((Xv6.wakeup1 s ch i k).2.pc r ch)
  | exit {k k'} : (exitCode s p k).2 = k' → Goes s p (.exit k) k'
  | wait {k k'} : (waitCode s p k).2 = k' → Goes s p (.wait k) k'
  -- `kill` and `allocproc`
  | kill {pid sig i k j k'} : Goes s p (.kill pid sig i k) (.kill pid sig j k')
  | killed {pid sig i k b} : b = .sys ∨ b = .error → Goes s p (.kill pid sig i k) (.base b)
  | alloc {i j} : Goes s p (.allocproc i) (.allocproc j)
  | alloced {i} : s.state i = .unused → Goes s p (.allocproc i) (.base (.fork i .nextpid))
  | allocFail {i} : Goes s p (.allocproc i) (.base .error)
  | panic {k} : Goes s p k .panic

/-- Where a step of `wakeup1` leads. -/
theorem Wakeup.pc_cases (w : Wakeup) (r : Ret) (ch : Chan) :
    (∃ i k, w.pc r ch = .wakeup1 r ch i k) ∨ w.pc r ch = .panic ∨ (∃ b, w.pc r ch = .base b) ∨
      (∃ i, w.pc r ch = .exit (.scan i)) ∨ w.pc r ch = .sched .exit := by
  cases w with
  | place i k => exact .inl ⟨i, k, rfl⟩
  | panic => exact .inr (.inl rfl)
  | done =>
    cases r with
    | base b => exact .inr (.inr (.inl ⟨b, rfl⟩))
    | exitParent => exact .inr (.inr (.inr (.inl ⟨0, rfl⟩)))
    | exitChild i =>
      simp only [Wakeup.pc, Ret.done, exitNext]
      split
      · exact .inr (.inr (.inr (.inl ⟨_, rfl⟩)))
      · exact .inr (.inr (.inr (.inr rfl)))

theorem forkCode_goes {np : Slot} {k : ForkPc} (fails : Bool) :
    Pc.Goes s p (.base (.fork np k)) (forkCode s p np fails k).2 := by
  cases k with
  | publish =>
    simp only [forkCode, cas]
    split
    · rename_i h
      exact .fork fails (by simp [forkCode, cas, h])
    · exact .panic
  | casPid v =>
    simp only [forkCode]
    split
    · rename_i h
      exact .fork fails (by simp [forkCode, h])
    · rename_i h
      exact .fork fails (by simp [forkCode, h])
  | _ => exact .fork fails rfl

theorem killCode_goes {pid : Int} {sig : Sig} {j : Slot} {k : KillPc} :
    Pc.Goes s p (.kill pid sig j k) (killCode s pid sig j k).2 := by
  cases k <;> simp only [killCode, killCode.next, cas] <;> (repeat' split) <;>
    first | exact .kill | exact .killed (.inl rfl) | exact .killed (.inr rfl)

theorem procCode_goes {i : Store × Pc} (hc : s.cpu c = .running p) (h : procCode s p a (s.pc p) = some i) :
    (s.pc p).Goes s p i.2 := by
  generalize hp : s.pc p = k at h
  cases k with
  | base b =>
    rcases baseCode_cases hc hp h with ⟨_, hg⟩ | ⟨np, k, f, rfl, rfl⟩
    · exact .base hg
    · exact forkCode_goes f
  | yield => obtain rfl := Option.some.inj h; simp only [cas]; split; exacts [.yield, .panic]
  | sched => obtain rfl := Option.some.inj h; dsimp only; split; exacts [.panic, .sched]
  | swtch | panic => cases h
  | resume k =>
    rcases k with _ | ⟨⟨⟩⟩ <;> obtain rfl := Option.some.inj h
    exacts [.forkret, .yielded, .slept, .waited, .panic]
  | sleep b ch l k =>
    obtain rfl := Option.some.inj h
    cases k <;> simp only [sleepCode, cas] <;> (repeat' split) <;>
      first | exact .panic | exact .release | exact .chan | exact .sleep | exact .acquired | exact .acquire
  | wakeup1 => obtain rfl := Option.some.inj h; exact .wakeup1
  | exit => obtain rfl := Option.some.inj h; exact .exit rfl
  | wait => obtain rfl := Option.some.inj h; exact .wait rfl
  | kill pid sig j k => obtain rfl := Option.some.inj h; exact killCode_goes
  | allocproc j =>
    obtain rfl := Option.some.inj h
    simp only [allocCode, cas]
    (repeat' split) <;> first | exact .alloc | exact .allocFail | exact .alloced ‹_›

section

variable [DecidableEq C]

/-! ## Steps -/

theorem step_sched {k : SchedPc} (hc : s.cpu c = .sched k) (h : step s (c, a) = some s') :
    ∃ i, schedCode s a k = some i ∧ s' = (s.store i.1).setCpu c i.2 := by
  simp only [step, hc] at h
  obtain ⟨i, hi, rfl⟩ := Option.map_eq_some_iff.1 h
  exact ⟨i, hi, rfl⟩

theorem step_running (hc : s.cpu c = .running p) (h : step s (c, a) = some s') :
    (∃ k, s.pc p = .swtch k ∧
      s' = (s.setPc p (.resume (.cont k))).setCpu c (.sched (.runnable p))) ∨
    ∃ i, procCode s p a (s.pc p) = some i ∧ s' = (s.store i.1).setPc p i.2 := by
  simp only [step, hc] at h
  split at h
  · rename_i k hk
    exact .inl ⟨k, hk, (Option.some.inj h).symm⟩
  · obtain ⟨i, hi, rfl⟩ := Option.map_eq_some_iff.1 h
    exact .inr ⟨i, hi, rfl⟩

theorem step_panic (hc : s.cpu c = .panic) : step s (c, a) = none := by
  simp [step, hc]

theorem step_base {b : Base} (hc : s.cpu c = .running p) (hk : s.pc p = .base b) (h : step s (c, a) = some s') :
    ∃ i, s' = (s.store i.1).setPc p i.2 ∧
      ((i.1.Local s c p ∧ b.Goes p i.2) ∨ ∃ np k fails, b = .fork np k ∧ i = forkCode s p np fails k) := by
  rcases step_running hc h with ⟨k, hk', _⟩ | ⟨i, hi, rfl⟩
  · rw [hk] at hk'; cases hk'
  · rw [hk] at hi
    exact ⟨i, rfl, baseCode_cases hc hk (by simpa only [procCode] using hi)⟩

/-- A step in `fork` is one of its code, or an interrupt. -/
theorem step_fork {np : Slot} {k : ForkPc} (hc : s.cpu c = .running p) (hk : s.pc p = .base (.fork np k))
    (h : step s (c, a) = some s') :
    ((a = .step ∨ a = .fail) ∧ ∃ fails, s' = (s.store (forkCode s p np fails k).1).setPc p (forkCode s p np fails k).2) ∨
      (¬ (a = .step ∨ a = .fail) ∧ ∃ i, kernelCode s p (.fork np k) a = some i ∧ s' = (s.store i.1).setPc p i.2) := by
  rcases step_running hc h with ⟨k', hk', _⟩ | ⟨i, hi, rfl⟩
  · rw [hk] at hk'; cases hk'
  rw [hk] at hi
  simp only [procCode, baseCode, unlocked] at hi
  split at hi
  · split at hi <;> cases hi
    exact .inl ⟨.inl rfl, false, rfl⟩
  · split at hi <;> cases hi
    exact .inl ⟨.inr rfl, true, rfl⟩
  · rename_i hs hf
    exact .inr ⟨not_or.2 ⟨hs, hf⟩, i, hi, rfl⟩

/-- A step makes one of the stores listed and moves one CPU or its thread. -/
theorem step_effect (h : step s (c, a) = some s') :
    ∃ st, Effect s c st ∧ s'.proc = (s.store st).proc ∧
      (∀ q, s.cpu c ≠ .running q → s'.pc q = (s.store st).pc q) ∧ s'.nextpid = (s.store st).nextpid := by
  cases hc : s.cpu c with
  | panic => simp [step_panic hc] at h
  | sched k =>
    obtain ⟨i, hi, rfl⟩ := step_sched hc h
    exact ⟨i.1, schedCode_effect hc hi, rfl, fun _ _ => rfl, rfl⟩
  | running p =>
    rcases step_running hc h with ⟨k, _, rfl⟩ | ⟨i, hi, rfl⟩
    · exact ⟨.skip, .quiet trivial, rfl, fun q hq => Kernel.setPc_ne _ _ fun e => hq (e ▸ rfl), rfl⟩
    · exact ⟨i.1, procCode_effect hc hi, rfl, fun q hq => Kernel.setPc_ne _ _ fun e => hq (e ▸ rfl), rfl⟩

/-- Every change of a process's state is one of the moves. -/
theorem step_state (h : step s (c, a) = some s') (q : Slot) :
    s'.state q = s.state q ∨ Move s c q (s.state q) (s'.state q) := by
  obtain ⟨st, he, hp, _⟩ := step_effect h
  simp only [Kernel.state, hp]
  exact he.state_cases q

theorem step_chan (h : step s (c, a) = some s') (q : Slot) : s'.chan q = s.chan q ∨ Rechan s c q (s'.chan q) := by
  obtain ⟨st, he, hp, _⟩ := step_effect h
  simp only [Kernel.chan, hp]
  exact he.chan_cases q

theorem step_parent (h : step s (c, a) = some s') (q : Slot) :
    s'.parent q = s.parent q ∨ Reparent s c q (s'.parent q) := by
  obtain ⟨st, he, hp, _⟩ := step_effect h
  simp only [Kernel.parent, hp]
  exact he.parent_cases q

theorem step_sig (h : step s (c, a) = some s') (q : Slot) :
    s'.sig q = s.sig q ∨ ∃ f, Resig s c q f ∧ s'.sig q = f (s.sig q) := by
  obtain ⟨st, he, hp, _⟩ := step_effect h
  simp only [Kernel.sig, hp]
  exact he.sig_cases q

theorem step_pid (h : step s (c, a) = some s') (q : Slot) :
    (s'.proc q).pid = (s.proc q).pid ∨ Repid s c q (s'.proc q).pid := by
  obtain ⟨st, he, hp, _⟩ := step_effect h
  simp only [hp]
  exact he.pid_cases q

theorem step_nextpid (h : step s (c, a) = some s') :
    s'.nextpid = s.nextpid ∨ (s'.nextpid = s.nextpid + 1 ∧
      ∃ r q, s.cpu c = .running r ∧ s.pc r = .base (.fork q (.casPid s.nextpid))) := by
  obtain ⟨st, he, _, _, hn⟩ := step_effect h
  rw [hn]
  exact he.nextpid_cases

/-- A thread is moved by its own steps, and set up by `fork`. -/
theorem step_pc_ne (h : step s (c, a) = some s') (hq : s.cpu c ≠ .running q) :
    s'.pc q = s.pc q ∨
      ∃ r, s.cpu c = .running r ∧ s.pc r = .base (.fork q .context) ∧ s'.pc q = .resume .forkret := by
  obtain ⟨st, he, _, hpc, _⟩ := step_effect h
  rw [hpc q hq]
  exact he.pc_cases q

/-- Where a step leaves the thread of process `q`. -/
theorem step_pc (h : step s (c, a) = some s') (q : Slot) :
    s'.pc q = s.pc q ∨
      (∃ r, s.cpu c = .running r ∧ s.pc r = .base (.fork q .context) ∧ s'.pc q = .resume .forkret) ∨
      (s.cpu c = .running q ∧
        ((∃ k, s.pc q = .swtch k ∧ s'.pc q = .resume (.cont k)) ∨ (s.pc q).Goes s q (s'.pc q))) := by
  by_cases hc : s.cpu c = .running q
  · refine .inr (.inr ⟨hc, ?_⟩)
    rcases step_running hc h with ⟨k, hk, rfl⟩ | ⟨i, hi, rfl⟩
    · exact .inl ⟨k, hk, by simp⟩
    · exact .inr (by simpa using procCode_goes hc hi)
  · exact (step_pc_ne h hc).imp_right .inl

/-! ## Where a step leaves a CPU -/

theorem step_cpu_ne {d : C} (h : step s (c, a) = some s') (hd : d ≠ c) : s'.cpu d = s.cpu d := by
  cases hc : s.cpu c with
  | sched k =>
    obtain ⟨i, _, rfl⟩ := step_sched hc h
    simp [hd]
  | running p =>
    rcases step_running hc h with ⟨k, _, rfl⟩ | ⟨i, _, rfl⟩ <;> simp [hd]
  | panic => simp [step_panic hc] at h

/-- How CPU `c` came to stand where a step from `s` leaves it, as far as the
process it deals with is concerned. -/
def Cpu.From (s s' : Kernel C) (c : C) : Cpu → Prop
  | .sched (.begin p) => s.cpu c = .sched (.claim p) ∧ s.state p = .runnable ∧ s'.state p = .negRunning
  | .sched (.enter p) => s.cpu c = .sched (.begin p) ∧ (s.state p = .negRunning → s'.state p = .running)
  | .running p => s.cpu c = .running p ∨ s.cpu c = .sched (.enter p)
  | .sched (.runnable p) => s.cpu c = .running p ∧ ∃ k, s.pc p = .swtch k ∧ s'.pc p = .resume (.cont k)
  | .sched (.sleeping p) => s.cpu c = .sched (.runnable p) ∧ s'.state p ≠ .negRunnable
  | .sched (.zombie p) => s.cpu c = .sched (.sleeping p) ∧ s'.state p ≠ .negSleeping
  | _ => True

omit [DecidableEq C] in
theorem from_schedNext (i : Slot) : (schedNext i).From s s' c := by
  unfold schedNext
  split <;> trivial

theorem step_cpu (h : step s (c, a) = some s') : (s'.cpu c).From s s' c := by
  cases hc : s.cpu c with
  | panic => simp [step_panic hc] at h
  | running p =>
    rcases step_running hc h with ⟨k, hk, rfl⟩ | ⟨i, _, rfl⟩
    · simp [Cpu.From, hc, hk]
    · simp [Cpu.From, hc]
  | sched k =>
    obtain ⟨o, hi, rfl⟩ := step_sched hc h
    rw [Kernel.setCpu_self]
    cases k with
    | top => cases a <;> cases hi <;> trivial
    | intr ch i k =>
      obtain rfl := Option.some.inj hi
      generalize (wakeup1 s ch i k).2 = w
      cases w <;> trivial
    | cont i j k =>
      obtain rfl := Option.some.inj hi
      cases k <;> simp only [contCode, contCode.next] <;> (repeat' split) <;>
        first | trivial | exact from_schedNext i
    | frozen i => obtain rfl := Option.some.inj hi; split <;> trivial
    | unfreeze i => obtain rfl := Option.some.inj hi; trivial
    | enter i => obtain rfl := Option.some.inj hi; exact .inr hc
    | claim i =>
      obtain rfl := Option.some.inj hi
      unfold cas
      split
      · rename_i hr
        exact ⟨hc, hr, by simp [Kernel.store_state]⟩
      · exact from_schedNext i
    | begin i =>
      obtain rfl := Option.some.inj hi
      unfold cas
      split
      · exact ⟨hc, fun _ => by simp [Kernel.store_state]⟩
      · exact ⟨hc, fun hn => absurd hn ‹_›⟩
    | runnable i | sleeping i =>
      obtain rfl := Option.some.inj hi
      unfold cas
      split
      · exact ⟨hc, by simp [Kernel.store_state]⟩
      · exact ⟨hc, ‹_›⟩
    | zombie i =>
      obtain rfl := Option.some.inj hi
      unfold cas
      split <;> exact from_schedNext i

/-! ## Steps at a known place -/

/-- A step of a thread at a place where the code leaves no choice. -/
theorem step_at {k : Pc} {i : Store × Pc} (hc : s.cpu c = .running p) (hp : s.pc p = k)
    (hk : procCode s p a k = some i) (h : step s (c, a) = some s') : s' = (s.store i.1).setPc p i.2 := by
  rcases step_running hc h with ⟨k', hk', _⟩ | ⟨i', hi, rfl⟩
  · rw [hp] at hk'
    rw [hk'] at hk
    cases hk
  · rw [hp, hk] at hi
    rw [Option.some.inj hi]

theorem step_wakeup1 {r : Ret} {ch : Chan} {i : Slot} {k : WakeupPc} (hc : s.cpu c = .running p)
    (hp : s.pc p = .wakeup1 r ch i k) (h : step s (c, a) = some s') :
    s' = (s.store (wakeup1 s ch i k).1).setPc p ((wakeup1 s ch i k).2.pc r ch) :=
  step_at hc hp rfl h

theorem step_exit {k : ExitPc} (hc : s.cpu c = .running p) (hp : s.pc p = .exit k)
    (h : step s (c, a) = some s') : s' = (s.store (exitCode s p k).1).setPc p (exitCode s p k).2 :=
  step_at hc hp rfl h

theorem step_wait {k : WaitPc} (hc : s.cpu c = .running p) (hp : s.pc p = .wait k)
    (h : step s (c, a) = some s') : s' = (s.store (waitCode s p k).1).setPc p (waitCode s p k).2 :=
  step_at hc hp rfl h

/-- A process that takes a timer tick, a lock or calls `wakeup` stores to no
signal fields. -/
theorem step_kernelCode {b : Base} (hc : s.cpu c = .running p) (hk : s.pc p = .base b)
    (hb : baseCode s p a b = kernelCode s p b a) (hs : step s (c, a) = some s') : s'.sig q = s.sig q := by
  rcases step_running hc hs with ⟨k, hk', _⟩ | ⟨i, hi, rfl⟩
  · rw [hk] at hk'; cases hk'
  · rw [hk, procCode, hb] at hi
    have hq := (kernelCode_cases hi).1
    generalize i.1 = st at hq ⊢
    cases st <;> first | exact hq.elim | simp [Kernel.store_sig]

end

end Xv6
