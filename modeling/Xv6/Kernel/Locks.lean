import Xv6.Kernel.Moves
import Xv6.Lib.Runs
/-!
# The lock of a wait loop

A lock is taken when it is free and released by the process that holds it, so a
process keeps its locks while others run. A thread in a killable wait loop has
the loop's lock, except inside `sleep`.
-/

namespace Xv6

open Runs

variable {C : Type} {s s' : Kernel C} {c : C} {a : Act} {p q r : Slot} {l : Lock}

/-- The lock that a wait loop is run with. -/
def Base.lock : Base → Option Lock
  | .loop _ _ l | .loopSleep _ _ l => some l
  | _ => none

/-- A thread of process `p` in a wait loop holds the loop's lock, except where
`sleep` has released it to acquire it again. -/
def Pc.Locked (s : Kernel C) (p : Slot) : Pc → Prop
  | .base b | .yield b | .wakeup1 (.base b) _ _ _ | .sched (.yield b) | .swtch (.yield b)
  | .resume (.cont (.yield b)) => ∀ l, b.lock = some l → s.lock l = some p
  | .sleep b _ l k => ∀ l', b.lock = some l' → l' = l ∧ (k = .cas ∨ k = .release → s.lock l = some p)
  | .sched (.sleep b _ l) | .swtch (.sleep b _ l) | .resume (.cont (.sleep b _ l)) => ∀ l', b.lock = some l' → l' = l
  | _ => True

theorem store_lock (s : Kernel C) (st : Store) (l : Lock) :
    (s.store st).lock l = match st with
      | .acquire p l' => if l = l' then some p else s.lock l
      | .release _ l' => if l = l' then none else s.lock l
      | _ => s.lock l := by
  cases st <;> simp only [Kernel.store, Kernel.setProc, Kernel.setPc, Function.update_apply]

/-- A store by process `p` that takes a lock only when it is free and releases
only its own. -/
def Store.Fair (s : Kernel C) (p : Slot) : Store → Prop
  | .acquire r l => r = p ∧ s.lock l = none
  | .release r l => r = p ∧ s.lock l = some p
  | _ => True

theorem Store.Fair.lock {st : Store} (h : st.Fair s r) (hp : s.lock l = some p) (hr : r ≠ p) :
    (s.store st).lock l = some p := by
  rw [store_lock]
  cases st with
  | acquire q l' =>
    have hne : l ≠ l' := by rintro rfl; rw [h.2] at hp; cases hp
    simpa [hne] using hp
  | release q l' =>
    have hne : l ≠ l' := by rintro rfl; rw [h.2] at hp; exact hr (Option.some.inj hp)
    simpa [hne] using hp
  | _ => exact hp

theorem kernelCode_fair {b : Base} {i : Store × Pc} (h : kernelCode s p b a = some i) : i.1.Fair s p := by
  cases a with
  | acquire l =>
    simp only [kernelCode] at h
    split at h <;> cases h
    · exact ⟨rfl, ‹_›⟩
    · trivial
  | release l =>
    simp only [kernelCode] at h
    split at h <;> cases h
    · exact ⟨rfl, ‹_›⟩
    · trivial
  | wakeup => cases h; trivial
  | yield => simp only [kernelCode] at h; split at h <;> cases h; trivial
  | _ => cases h

theorem sleepCode_fair (b : Base) (ch : Chan) (l : Lock) (k : SleepPc) : (sleepCode s p b ch l k).1.Fair s p := by
  cases k with
  | cas => simp only [sleepCode, cas]; split <;> trivial
  | release =>
    simp only [sleepCode]
    split
    · exact ⟨rfl, ‹_›⟩
    · trivial
  | chan => trivial
  | acquire =>
    simp only [sleepCode]
    split
    · exact ⟨rfl, ‹_›⟩
    · trivial

theorem loopCode_fair (L : Loop) (ch : Chan) (l : Lock) (e : LoopEnv) : (loopCode s p L ch l e).1.Fair s p := by
  unfold loopCode
  split
  · split
    · split
      · exact ⟨rfl, ‹_›⟩
      · trivial
    · trivial
  · trivial

theorem cas_fair {κ : Type} (q : Slot) (old new : PState) (ok fail : κ) : (cas s q old new ok fail).1.Fair s p := by
  unfold cas
  split <;> trivial

theorem wakeup1_fair (ch : Chan) (i : Slot) (k : WakeupPc) : (wakeup1 s ch i k).1.Fair s p := by
  cases k <;> first | trivial | exact cas_fair ..

theorem sysCode_fair {i : Store × Pc} (h : sysCode s p a = some i) : i.1.Fair s p := by
  cases a with
  | acquire | release | wakeup | yield | env | syscall | trap | fault | fail =>
    simp only [sysCode] at h
    exact kernelCode_fair h
  | sleep | loop => simp only [sysCode] at h; split at h <;> cases h; trivial
  | wait | exit | fork | kill | step => simp only [sysCode, unlocked] at h; split at h <;> cases h; trivial
  | sigprocmask | sigret | exec => cases h; trivial
  | sigaction => simp only [sysCode] at h; split at h <;> cases h <;> trivial

theorem baseCode_fair {b : Base} {i : Store × Pc} (h : baseCode s p a b = some i) : i.1.Fair s p := by
  cases b with
  | sys => exact sysCode_fair h
  | user | timer => simp only [baseCode] at h; split at h <;> cases h <;> trivial
  | syscall | error | sysret | killed1 | killed2 | loopSleep => cases h; trivial
  | trap =>
    simp only [baseCode, unlocked] at h
    split at h
    · cases h; trivial
    · split at h <;> cases h; trivial
    · cases h
    · exact kernelCode_fair h
  | exiting | forkret =>
    simp only [baseCode, unlocked] at h
    split at h
    · split at h <;> cases h; trivial
    · split at h <;> cases h; trivial
    · exact kernelCode_fair h
  | fork np k =>
    have fair (fails : Bool) : (forkCode s p np fails k).1.Fair s p := by
      cases k with
      | casPid => simp only [forkCode]; split <;> trivial
      | publish => exact cas_fair ..
      | _ => trivial
    simp only [baseCode, unlocked] at h
    split at h
    · split at h <;> cases h; exact fair false
    · split at h <;> cases h; exact fair true
    · exact kernelCode_fair h
  | signals k =>
    simp only [baseCode, unlocked] at h
    split at h
    · split at h <;> cases h
      cases k with
      | act => simp only [signalsCode]; split <;> trivial
      | _ => trivial
    · exact kernelCode_fair h
  | loop L ch l =>
    simp only [baseCode] at h
    split at h <;> cases h
    exact loopCode_fair ..

theorem procCode_fair {k : Pc} {i : Store × Pc} (h : procCode s p a k = some i) : i.1.Fair s p := by
  cases k with
  | base b => exact baseCode_fair h
  | yield | allocproc => obtain rfl := Option.some.inj h; exact cas_fair ..
  | sched => obtain rfl := Option.some.inj h; trivial
  | swtch | panic => cases h
  | resume k => rcases k with _ | ⟨⟨⟩⟩ <;> obtain rfl := Option.some.inj h <;> trivial
  | sleep => obtain rfl := Option.some.inj h; exact sleepCode_fair ..
  | wakeup1 => obtain rfl := Option.some.inj h; exact wakeup1_fair ..
  | kill _ _ _ k | exit k | wait k =>
    obtain rfl := Option.some.inj h
    cases k <;> first | trivial | exact cas_fair ..

theorem schedCode_fair {k : SchedPc} {i : Store × Cpu} (h : schedCode s a k = some i) : i.1.Fair s p := by
  cases k with
  | top => cases a <;> cases h <;> trivial
  | intr => obtain rfl := Option.some.inj h; exact wakeup1_fair ..
  | cont _ _ k => obtain rfl := Option.some.inj h; cases k <;> trivial
  | frozen | unfreeze | enter => obtain rfl := Option.some.inj h; trivial
  | claim | begin | runnable | sleeping | zombie => obtain rfl := Option.some.inj h; exact cas_fair ..

theorem kernelCode_locked {b : Base} {i : Store × Pc} (h : kernelCode s p b a = some i) (hb : b.lock = none) :
    i.2.Locked s' p := by
  have none_ (l : Lock) (h : b.lock = some l) : s'.lock l = some p := by rw [hb] at h; cases h
  cases a <;> simp only [kernelCode] at h <;> (repeat' split at h) <;> cases h <;> first | exact none_ | trivial

theorem sysCode_locked {i : Store × Pc} (h : sysCode s p a = some i) : i.2.Locked (s.store i.1) p := by
  cases a with
  | acquire | release | wakeup | yield | env | syscall | trap | fault | fail =>
    simp only [sysCode] at h
    exact kernelCode_locked h rfl
  | loop L ch l =>
    simp only [sysCode] at h
    split at h <;> cases h
    rintro l' ⟨⟩
    assumption
  | sleep => simp only [sysCode] at h; split at h <;> cases h; rintro l ⟨⟩
  | wait | fork => simp only [sysCode, unlocked] at h; split at h <;> cases h; trivial
  | step => simp only [sysCode, unlocked] at h; split at h <;> cases h; rintro l ⟨⟩
  | exit | kill =>
    simp only [sysCode, unlocked, exitEntry, killEntry] at h
    split at h <;> cases h
    dsimp only
    split <;> first | trivial | rintro l ⟨⟩
  | sigprocmask | sigret | exec => cases h; rintro l ⟨⟩
  | sigaction => simp only [sysCode] at h; split at h <;> cases h <;> rintro l ⟨⟩

theorem loopCode_locked {L : Loop} {ch : Chan} {e : LoopEnv} (hl : s.lock l = some p) :
    (loopCode s p L ch l e).2.Locked (s.store (loopCode s p L ch l e).1) p := by
  unfold loopCode
  split
  · split
    · rintro l ⟨⟩
    · cases L <;> (rintro l ⟨⟩; exact hl)
  · rintro l ⟨⟩

theorem baseCode_locked {b : Base} {i : Store × Pc} (h : baseCode s p a b = some i) (hb : (Pc.base b).Locked s p) :
    i.2.Locked (s.store i.1) p := by
  have out {b : Base} (hb : b.lock = none) {s' : Kernel C} : (Pc.base b).Locked s' p := by
    intro l hl
    rw [hb] at hl
    cases hl
  have tested {b : Base} (hb : b.lock = none) {s' : Kernel C} :
      (if (s.sig p).killed then exitEntry p else .base b).Locked s' p := by
    unfold exitEntry
    (repeat' split) <;> first | trivial | exact out rfl | exact out hb
  cases b with
  | sys => exact sysCode_locked h
  | user => simp only [baseCode] at h; split at h <;> cases h <;> exact out rfl
  | timer =>
    simp only [baseCode] at h
    split at h <;> cases h
    · dsimp only
      split <;> rintro l ⟨⟩
    · exact out rfl
  | syscall | sysret | killed1 | killed2 => obtain rfl := Option.some.inj h; exact tested rfl
  | error => cases h; exact out rfl
  | trap =>
    simp only [baseCode, unlocked] at h
    split at h
    · cases h; exact out rfl
    · split at h <;> cases h; exact out rfl
    · cases h
    · exact kernelCode_locked h rfl
  | exiting | forkret =>
    simp only [baseCode, unlocked] at h
    split at h
    · split at h <;> cases h; rintro l ⟨⟩
    · split at h <;> cases h; trivial
    · exact kernelCode_locked h rfl
  | fork np k =>
    have forks (fails : Bool) {s' : Kernel C} : (forkCode s p np fails k).2.Locked s' p := by
      cases k <;> simp only [forkCode, cas] <;> (try split) <;> first | trivial | exact out rfl
    simp only [baseCode, unlocked] at h
    split at h
    · split at h <;> cases h; exact forks false
    · split at h <;> cases h; exact forks true
    · exact kernelCode_locked h rfl
  | signals k =>
    simp only [baseCode, unlocked] at h
    split at h
    · split at h <;> cases h
      cases k <;> simp only [signalsCode, signalsNext] <;> (repeat' split) <;> rintro l ⟨⟩
    · exact kernelCode_locked h rfl
  | loop L ch l =>
    simp only [baseCode] at h
    split at h <;> cases h
    exact loopCode_locked (hb l rfl)
  | loopSleep L ch l =>
    cases h
    rintro l' ⟨⟩
    exact ⟨rfl, fun _ => hb l rfl⟩

theorem procCode_locked {k : Pc} {i : Store × Pc} (h : procCode s p a k = some i) (hk : k.Locked s p) :
    i.2.Locked (s.store i.1) p := by
  cases k with
  | base b => exact baseCode_locked h hk
  | yield b => obtain rfl := Option.some.inj h; simp only [cas]; split; exacts [hk, trivial]
  | sched k => obtain rfl := Option.some.inj h; dsimp only; split; exacts [trivial, by cases k <;> exact hk]
  | swtch | panic => cases h
  | resume k =>
    rcases k with _ | ⟨⟨b⟩ | ⟨b, ch, l⟩ | _ | _⟩ <;> obtain rfl := Option.some.inj h
    · rintro l ⟨⟩
    · exact hk
    · exact fun l' hl' => ⟨hk l' hl', by simp⟩
    · trivial
    · trivial
  | sleep b ch l k =>
    obtain rfl := Option.some.inj h
    cases k with
    | cas =>
      simp only [sleepCode, cas]
      split
      · exact fun l' hl' => ⟨(hk l' hl').1, fun _ => (hk l' hl').2 (.inl rfl)⟩
      · trivial
    | release =>
      simp only [sleepCode]
      split
      · exact fun l' hl' => ⟨(hk l' hl').1, by simp⟩
      · trivial
    | chan => exact fun l' hl' => (hk l' hl').1
    | acquire =>
      simp only [sleepCode]
      split
      · intro l' hl'
        rw [(hk l' hl').1, store_lock]
        simp
      · split
        · trivial
        · exact fun l' hl' => ⟨(hk l' hl').1, by simp⟩
  | wakeup1 ret ch j k =>
    obtain rfl := Option.some.inj h
    have hl : (s.store (wakeup1 s ch j k).1).lock = s.lock := by
      cases k <;> simp only [wakeup1, cas] <;> (try split) <;> rfl
    generalize (wakeup1 s ch j k).2 = w
    cases ret with
    | base b => cases w <;> simp only [Wakeup.pc, Ret.done, Pc.Locked, hl] <;> exact hk
    | exitParent => cases w <;> trivial
    | exitChild i =>
      cases w with
      | done => simp only [Wakeup.pc, Ret.done, exitNext]; split <;> trivial
      | _ => trivial
  | kill _ _ _ k =>
    obtain rfl := Option.some.inj h
    cases k <;> simp only [killCode, killCode.next, cas] <;> (repeat' split) <;> first | trivial | rintro l ⟨⟩
  | exit k =>
    obtain rfl := Option.some.inj h
    cases k <;> simp only [exitCode, exitNext, cas_same] <;> (repeat' split) <;> trivial
  | wait k =>
    obtain rfl := Option.some.inj h
    cases k <;> simp only [waitCode, waitNext, cas] <;> (repeat' split) <;> first | trivial | rintro l ⟨⟩
  | allocproc =>
    obtain rfl := Option.some.inj h
    simp only [allocCode, cas]
    (repeat' split) <;> first | trivial | rintro l ⟨⟩

section

variable [DecidableEq C]

/-- Other processes leave a process's locks alone. -/
theorem lock_kept (hs : step s (c, a) = some s') (hl : s.lock l = some p) (hc : s.cpu c ≠ .running p) :
    s'.lock l = some p := by
  cases hk : s.cpu c with
  | panic => simp [step_panic hk] at hs
  | sched k =>
    obtain ⟨i, hi, rfl⟩ := step_sched hk hs
    have hf : i.1.Fair s (p + 1) := schedCode_fair hi
    exact hf.lock hl (by simp [NPROC])
  | running r =>
    rcases step_running hk hs with ⟨k, _, rfl⟩ | ⟨i, hi, rfl⟩
    · exact hl
    · exact (procCode_fair hi).lock hl (by rintro rfl; exact hc hk)

omit [DecidableEq C] in
theorem Pc.Locked.congr {k : Pc} (h : k.Locked s p) (hl : ∀ l, s.lock l = some p → s'.lock l = some p) :
    k.Locked s' p := by
  cases k with
  | base b | yield b => exact fun l hb => hl l (h l hb)
  | wakeup1 ret => cases ret <;> first | exact fun l hb => hl l (h l hb) | trivial
  | sched k | swtch k => cases k <;> first | exact fun l hb => hl l (h l hb) | exact h
  | resume k => rcases k with _ | ⟨⟨⟩⟩ <;> first | exact fun l hb => hl l (h l hb) | exact h
  | sleep b ch l k => exact fun l' hb => ⟨(h l' hb).1, fun hk => hl l ((h l' hb).2 hk)⟩
  | _ => trivial

theorem locked_step (hs : step s (c, a) = some s') (h : (s.pc p).Locked s p) : (s'.pc p).Locked s' p := by
  by_cases hc : s.cpu c = .running p
  · rcases step_running hc hs with ⟨k, hk, rfl⟩ | ⟨i, hi, rfl⟩
    · rw [hk] at h
      simp only [Kernel.setCpu_pc, Kernel.setPc_self]
      cases k <;> exact h
    · rw [Kernel.setPc_self]
      exact (procCode_locked hi h).congr fun _ => id
  · rcases step_pc_ne hs hc with hpc | ⟨_, _, _, hpc⟩
    · rw [hpc]
      exact h.congr fun l hl => lock_kept hs hl hc
    · rw [hpc]
      trivial

theorem locked_of_run {G : Kernel C → C × Act → Prop} (h : Run step G (Kernel.init C) s) (p : Slot) :
    (s.pc p).Locked s p :=
  h.inv (fun s : Kernel C => (s.pc p).Locked s p) (fun _ _ _ hi _ hs => locked_step hs hi) trivial

end

end Xv6
