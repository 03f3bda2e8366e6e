import Xv6.Slots
/-!
# The killed flag

`trap` tests `killed` before and after a system call and after an interrupt. A
process sets it for itself only: in `trap` for a fault, and in `handle_signals`,
which runs after the last test.

`Base.To` is the control flow between the places of a thread that are not inside
a function on processes, with the tests of `killed` it depends on; a called
function counts as the place it was called from (`Pc.within`).
-/

namespace Xv6

open Runs

variable {C : Type} {s s' : Kernel C} {c d : C} {a : Act} {p q r : Slot}

/-! ## Control flow -/

def Cont.within : Cont → Base
  | .yield b | .sleep b _ _ => b
  | .wait => .sys
  | .exit => .exiting

def Ret.within : Ret → Base
  | .base b => b
  | .exitParent | .exitChild _ => .exiting

/-- The place a thread is at, or that it called the function it is in from. -/
def Pc.within : Pc → Option Base
  | .base b | .yield b | .sleep b _ _ _ => some b
  | .sched k | .swtch k | .resume (.cont k) => some k.within
  | .resume .forkret => some .forkret
  | .wakeup1 r _ _ _ => some r.within
  | .kill _ _ _ _ | .wait _ | .allocproc _ => some .sys
  | .exit _ => some .exiting
  | .panic => none

/-- A thread of process `p` may go from `b` to `b'` in state `s` with choice `a`. -/
inductive Base.To (s : Kernel C) (p : Slot) (a : Act) : Base → Base → Prop
  | same {b} : To s p a b b
  | syscall : To s p a .user .syscall
  | trap : To s p a .user .trap
  | sys : (s.sig p).killed = false → To s p a .syscall .sys
  | error : To s p a .sys .error
  | done : To s p a .sys .sysret
  | failed : To s p a .error .sysret
  | sysret : (s.sig p).killed = false → To s p a .sysret (.signals .killed)
  | killed1 : To s p a .trap .killed1
  | timer : (s.sig p).killed = false → To s p a .killed1 .timer
  | killed2 : To s p a .timer .killed2
  | trapped : (s.sig p).killed = false → To s p a .killed2 (.signals .killed)
  | exit {b} : (s.sig p).killed = true ∨ b = .sys → To s p a b .exiting
  | forkret : To s p a .forkret (.signals .killed)
  | signals {k k'} : a = .step → s.pc p = .base (.signals k) → (signalsCode s p k).2.within = some (.signals k') →
      To s p a (.signals k) (.signals k')
  | user {k} : To s p a (.signals k) .user
  | alloc {i} : To s p a .sys (.fork i .nextpid)
  | fork {i k k'} : To s p a (.fork i k) (.fork i k')
  | forked {i k b} : b = .sys ∨ b = .error → To s p a (.fork i k) b
  | loop {L ch l} : To s p a .sys (.loop L ch l)
  | loopSleep {L ch l} : To s p a (.loop L ch l) (.loopSleep L ch l)
  | slept {L ch l} : To s p a (.loopSleep L ch l) (.loop L ch l)
  | looped {L ch l b} : b = .sys ∨ b = .error → To s p a (.loop L ch l) b

/-- An interrupt comes back to where it was taken. -/
theorem kernelCode_within {b : Base} {i : Store × Pc} (h : kernelCode s p b a = some i) :
    i.2 = .panic ∨ i.2.within = some b := by
  cases a <;> simp only [kernelCode] at h <;> (repeat' split at h) <;> cases h <;> (try dsimp only) <;>
    first | exact .inl rfl | exact .inr rfl

theorem kernelCode_to {b b' : Base} {i : Store × Pc} (h : kernelCode s p b a = some i)
    (hb : i.2.within = some b') : b.To s p a b' := by
  rcases kernelCode_within h with h | h
  · rw [h] at hb; cases hb
  · obtain rfl := Option.some.inj (h.symm.trans hb)
    exact .same

theorem exitEntry_to {b b' : Base} (h : (s.sig p).killed = true ∨ b = .sys) (hb : (exitEntry p).within = some b') :
    b.To s p a b' := by
  unfold exitEntry at hb
  split at hb <;> cases hb
  exact .exit h

theorem sysCode_to {b' : Base} {i : Store × Pc} (h : sysCode s p a = some i) (hb : i.2.within = some b') :
    Base.sys.To s p a b' := by
  cases a with
  | acquire | release | wakeup | yield | env | syscall | trap | fault | fail =>
    simp only [sysCode] at h
    exact kernelCode_to h hb
  | sleep ch l => simp only [sysCode] at h; split at h <;> cases h; cases hb; exact .same
  | loop L ch l => simp only [sysCode] at h; split at h <;> cases h; cases hb; exact .loop
  | wait | fork => simp only [sysCode, unlocked] at h; split at h <;> cases h; cases hb; exact .same
  | exit => simp only [sysCode, unlocked] at h; split at h <;> cases h; exact exitEntry_to (.inr rfl) hb
  | step => simp only [sysCode, unlocked] at h; split at h <;> cases h; cases hb; exact .done
  | kill =>
    simp only [sysCode, unlocked, killEntry] at h
    split at h <;> cases h
    dsimp only at hb
    split at hb <;> cases hb
    exacts [.same, .error]
  | sigprocmask | sigret | exec => cases h; cases hb; exact .same
  | sigaction =>
    simp only [sysCode] at h
    split at h <;> cases h <;> cases hb
    exacts [.error, .same]

/-- `handle_signals` goes on in its loop or returns to user mode. -/
theorem signalsCode_within (k : SignalsPc) :
    (signalsCode s p k).2.within = some .user ∨ ∃ k', (signalsCode s p k).2.within = some (.signals k') := by
  have next (i : Sig) : some (signalsNext i) = some Base.user ∨ ∃ k', some (signalsNext i) = some (.signals k') := by
    unfold signalsNext
    split
    exacts [.inr ⟨_, rfl⟩, .inl rfl]
  cases k <;> simp only [signalsCode] <;> (repeat' split) <;>
    first | exact .inl rfl | exact .inr ⟨_, rfl⟩ | exact next _

theorem signalsCode_to {b' : Base} {k : SignalsPc} (hp : s.pc p = .base (.signals k))
    (hb : (signalsCode s p k).2.within = some b') : (Base.signals k).To s p .step b' := by
  rcases signalsCode_within (s := s) (p := p) k with h | ⟨k', h⟩
  · obtain rfl := Option.some.inj (hb.symm.trans h)
    exact .user
  · obtain rfl := Option.some.inj (hb.symm.trans h)
    exact .signals rfl hp h

theorem loopCode_to {L : Loop} {ch : Chan} {l : Lock} {e : LoopEnv} {b' : Base}
    (hb : (loopCode s p L ch l e).2.within = some b') : (Base.loop L ch l).To s p a b' := by
  unfold loopCode at hb
  (repeat' split at hb) <;> cases hb <;> first | exact .looped (.inl rfl) | exact .looped (.inr rfl) | exact .loopSleep

theorem forkCode_to {np : Slot} {k : ForkPc} {fails : Bool} {b' : Base}
    (hb : (forkCode s p np fails k).2.within = some b') : (Base.fork np k).To s p a b' := by
  cases k <;> simp only [forkCode, cas] at hb <;> (try split at hb) <;> cases hb <;>
    first | exact .fork | exact .forked (.inl rfl) | exact .forked (.inr rfl)

theorem baseCode_to {b b' : Base} {i : Store × Pc} (hp : s.pc p = .base b) (h : baseCode s p a b = some i) (hb : i.2.within = some b') :
    b.To s p a b' := by
  have tested {b₁ b₂ : Base} (ok : (s.sig p).killed = false → b₁.To s p a b₂)
      (hb : (if (s.sig p).killed then exitEntry p else .base b₂).within = some b') : b₁.To s p a b' := by
    split at hb
    · exact exitEntry_to (.inl ‹_›) hb
    · rename_i hn
      cases hb
      exact ok (by simpa using hn)
  cases b with
  | sys => exact sysCode_to h hb
  | user =>
    simp only [baseCode] at h
    split at h <;> cases h <;> cases hb
    exacts [.syscall, .trap]
  | syscall => obtain rfl := Option.some.inj h; exact tested .sys hb
  | sysret => obtain rfl := Option.some.inj h; exact tested .sysret hb
  | killed1 => obtain rfl := Option.some.inj h; exact tested .timer hb
  | killed2 => obtain rfl := Option.some.inj h; exact tested .trapped hb
  | error => cases h; cases hb; exact .failed
  | timer =>
    simp only [baseCode] at h
    split at h <;> cases h <;> (try split at hb) <;> cases hb <;> exact .killed2
  | trap =>
    simp only [baseCode, unlocked] at h
    split at h
    · cases h; cases hb; exact .same
    · split at h <;> cases h; cases hb; exact .killed1
    · cases h
    · exact kernelCode_to h hb
  | exiting | forkret =>
    simp only [baseCode, unlocked] at h
    split at h
    · split at h <;> cases h; cases hb; exact .same
    · split at h <;> cases h; cases hb; first | exact .same | exact .forkret
    · exact kernelCode_to h hb
  | fork np k =>
    simp only [baseCode, unlocked] at h
    split at h
    · split at h <;> cases h; exact forkCode_to hb
    · split at h <;> cases h; exact forkCode_to hb
    · exact kernelCode_to h hb
  | signals k =>
    simp only [baseCode, unlocked] at h
    split at h
    · split at h <;> cases h; exact signalsCode_to hp hb
    · exact kernelCode_to h hb
  | loop L ch l =>
    simp only [baseCode] at h
    split at h <;> cases h
    exact loopCode_to hb
  | loopSleep L ch l => cases h; cases hb; exact .slept

theorem Ret.within_done (ret : Ret) : ret.done.within = some ret.within := by
  cases ret with
  | exitChild i => simp only [Ret.done, exitNext]; split <;> rfl
  | _ => rfl

theorem procCode_to {i : Store × Pc} {b' : Base} (h : procCode s p a (s.pc p) = some i)
    (hb : i.2.within = some b') : ∃ b, (s.pc p).within = some b ∧ b.To s p a b' := by
  generalize hk : s.pc p = k at h
  cases k with
  | base b => exact ⟨b, rfl, baseCode_to hk h hb⟩
  | yield b => obtain rfl := Option.some.inj h; simp only [cas] at hb; split at hb <;> cases hb; exact ⟨b, rfl, .same⟩
  | sched k => obtain rfl := Option.some.inj h; dsimp only at hb; split at hb <;> cases hb; exact ⟨_, rfl, .same⟩
  | swtch | panic => cases h
  | resume k =>
    rcases k with _ | ⟨⟨⟩⟩ <;> obtain rfl := Option.some.inj h <;> cases hb <;> exact ⟨_, rfl, .same⟩
  | sleep b ch l k =>
    obtain rfl := Option.some.inj h
    refine ⟨b, rfl, ?_⟩
    cases k <;> simp only [sleepCode, cas] at hb <;> (repeat' split at hb) <;> cases hb <;> exact .same
  | wakeup1 r ch j k =>
    obtain rfl := Option.some.inj h
    refine ⟨r.within, rfl, ?_⟩
    dsimp only at hb
    generalize (wakeup1 s ch j k).2 = w at hb
    cases w with
    | place => cases hb; exact .same
    | done => rw [Wakeup.pc, r.within_done] at hb; cases hb; exact .same
    | panic => cases hb
  | kill pid sig j k =>
    obtain rfl := Option.some.inj h
    refine ⟨.sys, rfl, ?_⟩
    cases k <;> simp only [killCode, killCode.next, cas] at hb <;> (repeat' split at hb) <;> cases hb <;>
      first | exact .same | exact .error
  | exit k =>
    obtain rfl := Option.some.inj h
    refine ⟨.exiting, rfl, ?_⟩
    cases k <;> simp only [exitCode, exitNext, cas_same] at hb <;> (repeat' split at hb) <;> cases hb <;> exact .same
  | wait k =>
    obtain rfl := Option.some.inj h
    refine ⟨.sys, rfl, ?_⟩
    cases k <;> simp only [waitCode, waitNext, cas] at hb <;> (repeat' split at hb) <;> cases hb <;>
      first | exact .same | exact .error
  | allocproc j =>
    obtain rfl := Option.some.inj h
    refine ⟨.sys, rfl, ?_⟩
    simp only [allocCode, cas] at hb
    (repeat' split at hb) <;> cases hb <;> first | exact .same | exact .alloc | exact .error

section

variable [DecidableEq C]

/-- Where a thread is after a step it was before, unless `fork` has set it up or
it went there itself. -/
theorem step_within {b' : Base} (hs : step s (c, a) = some s') (hb : (s'.pc p).within = some b') :
    (s.pc p).within = some b' ∨
      (∃ r, s.cpu c = .running r ∧ s.pc r = .base (.fork p .context) ∧ b' = .forkret) ∨
      (s.cpu c = .running p ∧ ∃ b, (s.pc p).within = some b ∧ b.To s p a b') := by
  by_cases hc : s.cpu c = .running p
  · rcases step_running hc hs with ⟨k, hk, rfl⟩ | ⟨i, hi, rfl⟩
    · simp only [Kernel.setCpu_pc, Kernel.setPc_self] at hb
      exact .inl (hk ▸ hb)
    · rw [Kernel.setPc_self] at hb
      exact .inr (.inr ⟨hc, procCode_to hi hb⟩)
  · rcases step_pc_ne hs hc with hpc | ⟨r, hr, hk, hpc⟩
    · exact .inl (hpc ▸ hb)
    · rw [hpc] at hb
      cases hb
      exact .inr (.inl ⟨r, hr, hk, rfl⟩)

/-! ## Who sets the flag -/

/-- In step `l` process `p` acts on a signal of its own, doing `x`. -/
def Kernel.ActsOn (s : Kernel C) (l : C × Act) (p : Slot) (x : SigAct) : Prop :=
  s.cpu l.1 = .running p ∧ l.2 = .step ∧
    ∃ i, s.pc p = .base (.signals (.act i)) ∧ sigAct ((s.sig p).signalHandler i) i = x

omit [DecidableEq C] in
theorem Kernel.ActsOn.within {x : SigAct} {l : C × Act} (h : s.ActsOn l p x) :
    ∃ i, (s.pc p).within = some (.signals (.act i)) ∧ sigAct ((s.sig p).signalHandler i) i = x := by
  obtain ⟨_, _, i, hk, hx⟩ := h
  exact ⟨i, by rw [hk]; rfl, hx⟩

/-- What `handle_signals` stores when it acts on a signal. -/
theorem signals_cases {k : SignalsPc} {f : Sigs → Sigs} (hc : s.cpu c = .running p) (hk : s.pc p = .base (.signals k))
    (hst : (signalsCode s p k).1 = .sig p f) (hs : step s (c, a) = some s') (hf : s'.sig p = f (s.sig p)) :
    s'.sig p = s.sig p ∨ (∃ v, s'.sig p = { s.sig p with pendingSignals := v }) ∨
      (s.ActsOn (c, a) p .stop ∧ s'.sig p = { s.sig p with frozen := true }) ∨
      (s.ActsOn (c, a) p .cont ∧ s'.sig p = { s.sig p with frozen := false }) ∨
      (s.ActsOn (c, a) p .kill ∧ s'.sig p = { s.sig p with killed := true }) ∨
      (s.ActsOn (c, a) p .user ∧ ∃ m m', s'.sig p = { s.sig p with signalMaskBU := m, signalMask := m' }) := by
  by_cases ha : a = .step
  · subst ha
    cases k with
    | store i v => cases hst; exact .inr (.inl ⟨_, hf⟩)
    | act i =>
      simp only [signalsCode] at hst
      split at hst <;> cases hst <;> rename_i hx
      · exact .inr (.inr (.inl ⟨⟨hc, rfl, i, hk, hx⟩, hf⟩))
      · exact .inr (.inr (.inr (.inl ⟨⟨hc, rfl, i, hk, hx⟩, hf⟩)))
      · exact .inr (.inr (.inr (.inr (.inl ⟨⟨hc, rfl, i, hk, hx⟩, hf⟩))))
      · exact .inr (.inr (.inr (.inr (.inr ⟨⟨hc, rfl, i, hk, hx⟩, _, _, hf⟩))))
    | _ => cases hst
  · have hb : baseCode s p a (.signals k) = kernelCode s p (.signals k) a := by
      cases a <;> first | rfl | exact absurd rfl ha
    exact .inl (step_kernelCode hc hk hb hs)

/-- A process is killed by a fault, or by a signal whose action is to kill. -/
theorem step_killed (hs : step s (c, a) = some s') (hk : (s'.sig p).killed = true) :
    (s.sig p).killed = true ∨ (s.cpu c = .running p ∧ s.pc p = .base .trap) ∨ s.ActsOn (c, a) p .kill := by
  rcases step_sig hs p with h | ⟨f, hr, hf⟩
  · exact .inl (h ▸ hk)
  cases hr with
  | signals hc hp hst =>
    rcases signals_cases hc hp hst hs hf with h | ⟨v, h⟩ | ⟨_, h⟩ | ⟨_, h⟩ | ⟨hx, _⟩ | ⟨_, m, m', h⟩
    case inr.inr.inr.inr.inl => exact .inr (.inr hx)
    all_goals rw [h] at hk; exact .inl hk
  | fault hc hp => exact .inr (.inl ⟨hc, hp⟩)
  | wait => rw [hf] at hk; cases hk
  | @fork r k f fails hc hp hst =>
    rw [hf] at hk
    cases k with
    | casPid => simp only [forkCode] at hst; split at hst <;> cases hst
    | publish => simp only [forkCode, cas] at hst; split at hst <;> cases hst
    | _ => cases hst <;> exact .inl hk
  | _ => rw [hf] at hk; exact .inl hk

/-! ## System calls -/

/-- Inside a system call, between the two tests of `killed` in `trap`. -/
def Base.inCall : Base → Bool
  | .sys | .fork _ _ | .loop _ _ _ | .loopSleep _ _ _ => true
  | _ => false

/-- A process inside a system call is not killed, in any run: it was tested at
the entry, and no one else sets the flag. -/
theorem not_killed_inCall {G : Kernel C → C × Act → Prop} (h : Run step G (Kernel.init C) s) {b : Base}
    (hp : (s.pc p).within = some b) (hb : b.inCall) : (s.sig p).killed = false := by
  refine h.inv (fun s : Kernel C => ∀ p b, (s.pc p).within = some b → b.inCall → (s.sig p).killed = false) ?_
    (fun _ _ _ _ => rfl) p b hp hb
  rintro s ⟨c, a⟩ s' hi _ hs p b' hp hb'
  have from_ {b : Base} (hw : (s.pc p).within = some b) (hb : b.inCall ∨ b = .syscall)
      (hk : (s.sig p).killed = false) : (s'.sig p).killed = false := by
    by_contra hk'
    rcases step_killed hs (by simpa using hk') with h | ⟨_, h⟩ | h
    · rw [hk] at h; cases h
    · rw [h] at hw; cases hw; simp [Base.inCall] at hb
    · obtain ⟨i, h, _⟩ := h.within
      rw [hw] at h; cases h; simp [Base.inCall] at hb
  rcases step_within hs hp with hw | ⟨_, _, _, rfl⟩ | ⟨_, b, hw, ht⟩
  · exact from_ hw (.inl hb') (hi p b' hw hb')
  · cases hb'
  · cases ht with
    | sys hk => exact from_ hw (.inr rfl) hk
    | same => exact from_ hw (.inl hb') (hi p _ hw hb')
    | alloc | loop | fork | loopSleep | slept => exact from_ hw (.inl rfl) (hi p _ hw rfl)
    | forked h | looped h => exact from_ hw (.inl rfl) (hi p _ hw rfl)
    | _ => cases hb'

/-! ## Free slots -/

/-- `killed` is not set in a slot no process has, nor in one that `wait` has cleared. -/
structure Cleared (s : Kernel C) : Prop where
  empty : ∀ p, s.state p = .unused ∨ s.state p = .embryo → (s.sig p).killed = false
  freed : ∀ r p, s.pc r = .wait (.run p) ∨ s.pc r = .wait (.free p) → (s.sig p).killed = false

omit [DecidableEq C] in
theorem cleared_init : Cleared (Kernel.init C) := ⟨fun _ _ => rfl, fun _ _ _ => rfl⟩

namespace Cleared

/-- A process sets its flag while it runs only. -/
theorem kept (hst : Stacks s) (hs : step s (c, a) = some s') (hk : (s.sig p).killed = false)
    (hp : s.state p ≠ .running) : (s'.sig p).killed = false := by
  have running {b : Base} (hc : s.cpu c = .running p) (hb : s.pc p = .base b) : s.state p = .running := by
    have := hst.running c p hc
    rw [hb] at this
    exact List.mem_singleton.1 this
  by_contra hk'
  rcases step_killed hs (by simpa using hk') with h | ⟨hc, h⟩ | ⟨hc, _, i, h, _⟩
  · rw [hk] at h; cases h
  · exact hp (running hc h)
  · exact hp (running hc h)

theorem empty_next (h : Cleared s) (hst : Stacks s) (hsl : Slots s) (hs : step s (c, a) = some s')
    (hp : s'.state p = .unused ∨ s'.state p = .embryo) : (s'.sig p).killed = false := by
  rcases step_state hs p with hsame | hm
  · rw [hsame] at hp
    exact kept hst hs (h.empty p hp) (by rcases hp with hp | hp <;> simp [hp])
  generalize hv : s.state p = v at hm
  generalize s'.state p = v' at hm hp
  cases hm with
  | @free r hc hk => exact kept hst hs (h.freed r p (.inr hk)) (by simp [hv])
  | @undo r _ hc hk =>
    have he : s.state p = .embryo := hsl.embryo r p (by rw [hk]; rfl)
    exact kept hst hs (h.empty p (.inr he)) (by simp [he])
  | alloc => exact kept hst hs (h.empty p (.inl hv)) (by simp [hv])
  | _ => simp at hp

theorem freed_next (h : Cleared s) (hst : Stacks s) (hsl : Slots s) (hs : step s (c, a) = some s')
    (hk : s'.pc r = .wait (.run p) ∨ s'.pc r = .wait (.free p)) : (s'.sig p).killed = false := by
  have still {w : WaitPc} (hk : s.pc r = .wait w) (hw : w = .run p ∨ w = .free p) : (s'.sig p).killed = false := by
    have hp : s.state p = .preUnused := hsl.reaped r p (by rw [hk]; rcases hw with rfl | rfl <;> rfl)
    have hk' : (s.sig p).killed = false := h.freed r p (by rcases hw with rfl | rfl <;> simp [hk])
    exact kept hst hs hk' (by simp [hp])
  obtain ⟨w, hk, hw⟩ : ∃ w, s'.pc r = .wait w ∧ (w = .run p ∨ w = .free p) := by
    rcases hk with hk | hk
    exacts [⟨_, hk, .inl rfl⟩, ⟨_, hk, .inr rfl⟩]
  rcases wait_back hs hk with hk₀ | rfl | ⟨k, _, hk₀, hw', hs'⟩
  · exact still hk₀ hw
  · simp at hw
  · cases k with
    | killed i =>
      cases hw'
      obtain rfl : i = p := by simpa using hw
      rw [hs']
      simp [waitCode, Kernel.store_sig]
    | run i =>
      simp only [waitCode, cas] at hw'
      split at hw' <;> cases hw'
      obtain rfl : i = p := by simpa using hw
      exact still hk₀ (.inl rfl)
    | _ => simp only [waitCode, waitNext, cas] at hw'; (repeat' split at hw') <;> cases hw' <;> simp at hw

theorem preserved (h : Cleared s) (hst : Stacks s) (hsl : Slots s) (hs : step s (c, a) = some s') : Cleared s' where
  empty _ := h.empty_next hst hsl hs
  freed _ _ := h.freed_next hst hsl hs

end Cleared

/-! ## Returning to user mode -/

/-- The places between the fault of a process and the test of `killed` that
follows it, and those of `exit`. -/
def Base.mayBeKilled : Base → Bool
  | .trap | .killed1 | .exiting => true
  | _ => false

/-- `killed` is not set outside those places. -/
def Unkilled (s : Kernel C) : Prop :=
  ∀ p b, (s.pc p).within = some b → b.mayBeKilled = false → (s.sig p).killed = false

theorem Unkilled.preserved (h : Unkilled s) (hcl : Cleared s) (hsl : Slots s) (hs : step s (c, a) = some s')
    (hx : ∀ q, ¬ s.ActsOn (c, a) q .kill) : Unkilled s' := by
  intro p b' hp hb'
  have stays {b : Base} (hw : (s.pc p).within = some b) (hb : b ≠ .trap) (hk : (s.sig p).killed = false) :
      (s'.sig p).killed = false := by
    by_contra hk'
    rcases step_killed hs (by simpa using hk') with h | ⟨_, ht⟩ | h
    · rw [hk] at h; cases h
    · rw [ht] at hw
      exact hb (Option.some.inj hw).symm
    · exact hx p h
  have clean {b : Base} (hb : b.mayBeKilled = false) : b ≠ .trap := by rintro rfl; cases hb
  rcases step_within hs hp with hw | ⟨r, hc, hk, rfl⟩ | ⟨_, b, hw, ht⟩
  · exact stays hw (clean hb') (h p b' hw hb')
  · -- the slot of a new process, which is not the one that makes the step
    have he : s.state p = .embryo := hsl.embryo r p (by rw [hk]; rfl)
    by_contra hk'
    rcases step_killed hs (by simpa using hk') with h | ⟨hc', ht⟩ | h
    · rw [hcl.empty p (.inr he)] at h; cases h
    · rw [hc] at hc'; cases hc'
      rw [hk] at ht; cases ht
    · exact hx p h
  · -- the tests of `killed` guard every way out of the places where it may be set
    cases ht with
    | same => exact stays hw (clean hb') (h p _ hw hb')
    | timer hk => exact stays hw (by simp) hk
    | trap | killed1 | exit => cases hb'
    | _ => exact stays hw (by simp) (h p _ hw rfl)

/-- No process is in user mode with `killed` set, in any run in which
`handle_signals` never takes its kill branch and no CPU frees a process that is
still on a stack. -/
theorem not_killed_user (h : Run step (fun s l => ¬ s.Overtaken l.1 ∧ ∀ p, ¬ s.ActsOn l p .kill) (Kernel.init C) s)
    (hp : s.pc p = .base .user) : (s.sig p).killed = false := by
  have hi : Stacks s ∧ Slots s ∧ Cleared s ∧ Unkilled s := by
    refine h.inv (fun s : Kernel C => Stacks s ∧ Slots s ∧ Cleared s ∧ Unkilled s) ?_
      ⟨stacks_init, slots_init, cleared_init, fun _ _ _ _ => rfl⟩
    rintro s ⟨c, a⟩ s' ⟨hst, hsl, hcl, hu⟩ ⟨ho, hx⟩ hs
    exact ⟨hst.preserved ho hs, hsl.preserved hs, hcl.preserved hst hsl hs, hu.preserved hcl hsl hs hx⟩
  exact hi.2.2.2 p .user (by rw [hp]; rfl) rfl

end

/-- `init` calls `kill(2, signum)`, and CPU 0 makes `n` more steps. -/
def selfKill (signum : Int) (n : Nat) : List (Fin 1 × Act) :=
  cpuSteps 0 9 ++ [(0, .syscall), (0, .step), (0, .kill 2 signum)] ++ cpuSteps 0 n

/-- `init` sends itself `SIGKILL`: the system call returns to user mode. -/
theorem selfKill_returns :
    ¬ ∀ (ls : List (Fin 1 × Act)) s p, exec step (Kernel.init (Fin 1)) ls = some s →
      s.pc p = .base .user → (s.sig p).killed = false := by
  intro h
  have hrun : (exec step (Kernel.init (Fin 1)) (selfKill 9 36)).map (fun s => (s.pc 0, (s.sig 0).killed)) =
    some (.base .user, true) := by decide +kernel
  obtain ⟨s, hs, he⟩ := Option.map_eq_some_iff.1 hrun
  obtain ⟨hp, hk⟩ := Prod.mk.inj he
  rw [h _ s 0 hs hp] at hk
  cases hk

/-- On one CPU, a check that no step is one of `wakeup1` or kills a process. -/
def Kernel.harmless (s : Kernel (Fin 1)) (l : Fin 1 × Act) : Bool :=
  match s.cpu l.1 with
  | .running p => match s.pc p with
    | .base (.signals (.act i)) => sigAct ((s.sig p).signalHandler i) i ≠ .kill
    | .wakeup1 _ _ _ _ => false
    | _ => true
  | .sched (.intr _ _ _) => false
  | _ => true

theorem Kernel.harmless_spec {s : Kernel (Fin 1)} {l : Fin 1 × Act} (h : s.harmless l) :
    ¬ s.Overtaken l.1 ∧ ∀ p, ¬ s.ActsOn l p .kill := by
  constructor
  · rintro ⟨p, d, hf, hd⟩
    obtain rfl : d = l.1 := Subsingleton.elim _ _
    rcases hf with ⟨hc, _⟩ | ⟨hc, _⟩ | ⟨hc, _⟩ | ⟨ch, hw, _⟩
    · rw [hc] at hd; cases hd
    · rw [hc] at hd; cases hd
    · rw [hc] at hd; cases hd
    · rcases hw with hc | ⟨r, ret, hc, hk⟩
      · simp [Kernel.harmless, hc] at h
      · simp [Kernel.harmless, hc, hk] at h
  · rintro p ⟨hc, _, i, hk, hx⟩
    simp [Kernel.harmless, hc, hk, hx] at h

/-- `init` sends itself `SIGCONT` and is back in user mode, not killed. -/
theorem selfKill_unkilled :
    ∃ s : Kernel (Fin 1), exec step (Kernel.init (Fin 1)) (selfKill 19 56) = some s ∧ s.pc 0 = .base .user ∧
      (s.sig 0).killed = false := by
  have hrun : (exec (checked step Kernel.harmless) (Kernel.init (Fin 1)) (selfKill 19 56)).map (fun s => s.pc 0) =
    some (.base .user) := by decide +kernel
  obtain ⟨s, hs, hp⟩ := Option.map_eq_some_iff.1 hrun
  exact ⟨s, exec_of_checked hs, hp, not_killed_user (run_of_checked (fun _ _ h => Kernel.harmless_spec h) hs) hp⟩

end Xv6
