import Xv6.Kernel.Locks
import Xv6.Killed
/-!
# Killing a process that waits

`piperead`, `pipewrite`, `sys_sleep`, `consoleread` and `wait` sleep in a loop
that gives up with -1 when `killed` is set. `kill` does not set it: it makes the
signal pending and the sleeper `RUNNABLE`, and only `handle_signals` sets
`killed`, on the way back to user mode. So the loop finds `killed` clear, and
what it does is decided by the rest of its test.
-/

namespace Xv6

open Runs

variable {C : Type} {s s' : Kernel C} {c : C} {a : Act} {p q : Slot} {l : Lock}

/-! ## Children of a process in `wait` -/

/-- A process that sleeps in `wait`, or has found a child there, has one. If it
has slept in this call (`b`), it finds a child again each time it looks. -/
def Pc.Finds (s : Kernel C) (p : Slot) (b : Prop) : Pc → Prop
  | .sched .wait | .swtch .wait | .resume (.cont .wait) => ∃ q, s.parent q = some p
  | .wait .cas | .wait .chan => b → ∃ q, s.parent q = some p
  | .wait (.scan i h) => h = true ∨ b → ∃ q, s.parent q = some p ∧ (h = true ∨ i ≤ q)
  | .wait (.check h) => (b → h = true) ∧ (h = true → ∃ q, s.parent q = some p)
  | .wait .fail | .wait .clear => ¬ b
  | _ => True

theorem Pc.Goes.inWait {k k' : Pc} (h : k.Goes s p k') (hk : k'.inWait) : k.inWait ∨ k' = .wait .cas := by
  cases h with
  | base h => cases h <;> first | exact .inr rfl | cases hk
  | wakeup1 =>
    rcases Wakeup.pc_cases _ _ _ with ⟨_, _, h⟩ | h | ⟨_, h⟩ | ⟨_, h⟩ | h <;> rw [h] at hk <;> cases hk
  | @exit k _ he =>
    subst he
    cases k <;> simp only [exitCode, exitNext, cas_same] at hk <;> (repeat' split at hk) <;> cases hk
  | @sched k => cases k <;> first | exact .inl rfl | cases hk
  | wait | waited => exact .inl rfl
  | _ => cases hk

theorem finds_next {b : Prop} {i : Slot} {h : Bool} (hf : h = true ∨ b → ∃ q, s.parent q = some p ∧ (h = true ∨ i < q)) :
    (waitNext i h).Finds s p b := by
  unfold waitNext
  split
  · rename_i j hj
    intro hb
    obtain ⟨q, hq, hi⟩ := hf hb
    exact ⟨q, hq, hi.imp_right (le_of_nextSlot hj)⟩
  · rename_i hn
    refine ⟨fun hb => ?_, fun hh => ?_⟩
    · obtain ⟨q, _, hi | hi⟩ := hf (.inr hb)
      · exact hi
      · exact absurd (le_of_nextSlot_none hn q) (not_le_of_gt hi)
    · obtain ⟨q, hq, _⟩ := hf (.inl hh)
      exact ⟨q, hq⟩

theorem waitCode_finds {b : Prop} {k : WaitPc} (hsl : Slots s) (hn : (s.sig p).killed = false) (hk : s.pc p = .wait k)
    (h : (s.pc p).Finds s p b) : (waitCode s p k).2.Finds s p b := by
  rw [hk] at h
  cases k with
  | cas => simp only [waitCode, cas_same]; exact h
  | chan => exact fun hb => (h (hb.resolve_left (by simp))).imp fun q hq => ⟨hq, .inr (Fin.zero_le q)⟩
  | scan i hv =>
    simp only [waitCode]
    split
    · trivial
    · rename_i hi
      refine finds_next fun hb => ?_
      obtain ⟨q, hq, hv | hle⟩ := h hb
      · exact ⟨q, hq, .inl hv⟩
      · refine ⟨q, hq, .inr (lt_of_le_of_ne hle ?_)⟩
        rintro rfl
        exact hi hq
  | spin i => simp only [waitCode]; split <;> trivial
  | reap i =>
    have hi : s.parent i = some p := hsl.minded p i (by rw [hk]; rfl)
    simp only [waitCode, cas]
    split
    · trivial
    · exact finds_next fun _ => ⟨i, hi, .inl rfl⟩
  | check hv =>
    simp only [waitCode]
    split
    · rename_i hf
      intro hb
      rw [h.1 hb, hn] at hf
      simp at hf
    · rename_i hf
      exact h.2 (by simpa using (not_or.1 hf).1)
  | fail => simp only [waitCode, cas]; split; exacts [h, trivial]
  | clear => trivial
  | pid | parent | killed => trivial
  | run | free => simp only [waitCode, cas]; split <;> trivial

theorem Pc.Finds.congr {b : Prop} {k : Pc} (h : k.Finds s p b)
    (hp : ∀ q, s.parent q = some p → s'.parent q = some p) : k.Finds s' p b := by
  have kept : (∃ q, s.parent q = some p) → ∃ q, s'.parent q = some p := fun ⟨q, hq⟩ => ⟨q, hp q hq⟩
  cases k with
  | sched k | swtch k => cases k <;> first | exact kept h | trivial
  | resume k => rcases k with _ | ⟨⟨⟩⟩ <;> first | exact kept h | trivial
  | wait k =>
    cases k with
    | cas | chan => exact fun hb => kept (h hb)
    | scan i hv => exact fun hb => (h hb).imp fun q hq => ⟨hp q hq.1, hq.2⟩
    | check hv => exact ⟨h.1, fun hh => kept (h.2 hh)⟩
    | fail | clear => exact h
    | _ => trivial
  | _ => trivial

theorem Pc.finds_of_not_inWait {b : Prop} {k : Pc} (h : ¬ k.inWait) : k.Finds s p b := by
  cases k with
  | wait => exact absurd rfl h
  | sched k | swtch k => cases k <;> first | exact absurd rfl h | trivial
  | resume k => rcases k with _ | ⟨⟨⟩⟩ <;> first | exact absurd rfl h | trivial
  | _ => trivial

section

variable [DecidableEq C]

theorem finds_step {b : Prop} (hsl : Slots s) (hn : (s.pc p).inWait → (s.sig p).killed = false)
    (hb : b → (s.pc p).inWait) (h : (s.pc p).Finds s p b) (hs : step s (c, a) = some s') :
    (s'.pc p).Finds s' p b := by
  -- what the place says, with the children of the state before
  have before : (s'.pc p).Finds s p b := by
    rcases step_pc hs p with hpc | ⟨_, _, _, hpc⟩ | ⟨hc, ⟨k, hk, hpc⟩ | hg⟩
    · rwa [hpc]
    · rw [hpc]; trivial
    · rw [hk] at h
      rw [hpc]
      cases k <;> exact h
    by_cases hin : (s.pc p).inWait
    · cases hk : s.pc p with
      | wait k =>
        rw [step_wait hc hk hs, Kernel.setPc_self]
        exact waitCode_finds hsl (hn hin) hk h
      | sched k | swtch k =>
        rw [hk] at h hin hg
        generalize s'.pc p = k' at hg
        cases k <;> cases hg <;> first | exact h | trivial
      | resume k =>
        rw [hk] at h hin hg
        generalize s'.pc p = k' at hg
        rcases k with _ | ⟨⟨⟩⟩ <;> cases hg <;> first | exact fun _ => h | trivial
      | _ => rw [hk] at hin; cases hin
    · by_cases hin' : (s'.pc p).inWait
      · rw [(hg.inWait hin').resolve_left hin]
        exact fun hb' => absurd (hb hb') hin
      · exact Pc.finds_of_not_inWait hin'
  by_cases hk : ∃ q, s.pc p = .exit (.reparent q) ∨ s.pc p = .wait (.parent q)
  · -- it gives a child away, and is not about to look for one
    obtain ⟨q, hk⟩ := hk
    rcases step_pc hs p with hpc | ⟨_, _, _, hpc⟩ | ⟨hc, ⟨k, _, hpc⟩ | _⟩
    · rw [hpc]; rcases hk with hk | hk <;> rw [hk] <;> trivial
    · rw [hpc]; trivial
    · rcases hk with hk | hk <;> simp_all
    · rcases hk with hk | hk
      · rw [step_exit hc hk hs, Kernel.setPc_self]; trivial
      · rw [step_wait hc hk hs, Kernel.setPc_self]; trivial
  · push Not at hk
    exact before.congr fun q hq => hsl.parent_kept hs hq (hk q)

/-! ## Killable calls -/

/-- The calls that test `killed` in a loop: `piperead`, `pipewrite`, `sys_sleep`
or `consoleread` sleeping on `ch` with lock `l`, and `wait`. -/
inductive Call where
  | loop (L : Loop) (ch : Chan) (l : Lock)
  | wait

/-- What the call asks of `sched` when it blocks. -/
def Call.cont : Call → Cont
  | .loop L ch l => .sleep (.loop L ch l) ch l
  | .wait => .wait

/-- A thread has not left the call. -/
def Call.Inside : Call → Pc → Prop
  | .loop L ch l, k => k.within = some (.loop L ch l) ∨ k.within = some (.loopSleep L ch l)
  | .wait, k => k.inWait

instance (call : Call) (k : Pc) : Decidable (call.Inside k) :=
  match call with
  | .loop _ _ _ => inferInstanceAs (Decidable (_ ∨ _))
  | .wait => inferInstanceAs (Decidable (_ = true))

/-- A thread makes the test that decides whether the call gives up, finding what
`a` says. -/
def Call.Tests : Call → Pc → Act → Prop
  | .loop L ch l, k, a => k = .base (.loop L ch l) ∧ ∃ e, a = .env e
  | .wait, k, _ => ∃ h, k = .wait (.check h)

/-- Where the call goes on to return -1. -/
def Call.fails : Call → Pc
  | .loop _ _ _ => .base .error
  | .wait => .wait .fail

/-- The pipe is full and has no reader, in `pipewrite`. -/
def Call.hopeless : Call → Act → Bool
  | .loop L _ _, .env e => L.blocked e && L.hopeless e
  | _, _ => false

omit [DecidableEq C] in
theorem loopCode_error_iff {L : Loop} {ch : Chan} {e : LoopEnv} (hl : s.lock l = some p)
    (hn : (s.sig p).killed = false) :
    (loopCode s p L ch l e).2 = .base .error ↔ L.blocked e ∧ L.hopeless e := by
  unfold loopCode
  by_cases hb : L.blocked e
  · by_cases hh : L.hopeless e
    · simp [hb, hh, hl]
    · cases L <;> simp [hb, hh, hn]
  · simp [hb]

/-- A process that is blocked in a killable call, with whatever signals pending,
leaves the call with -1 at its next test exactly when it writes to a full pipe
that nobody reads. -/
theorem blocked_fails_iff (call : Call) {s₀ : Kernel C} (h₀ : Run step (fun _ _ => True) (Kernel.init C) s₀)
    (hp : s₀.pc p = .resume (.cont call.cont)) (h : Run step (fun s _ => call.Inside (s.pc p)) s₀ s)
    (hc : s.cpu c = .running p) (ht : call.Tests (s.pc p) a) (hs : step s (c, a) = some s') :
    s'.pc p = call.fails ↔ call.hopeless a := by
  have hr : Run step (fun _ _ => True) (Kernel.init C) s := h₀.trans (h.mono fun _ _ _ => trivial)
  cases call with
  | loop L ch l =>
    obtain ⟨hk, e, rfl⟩ := ht
    have hl : s.lock l = some p := by
      have := locked_of_run hr p
      rw [hk] at this
      exact this l rfl
    have hn : (s.sig p).killed = false := not_killed_inCall hr (by rw [hk]; rfl) rfl
    rw [step_at hc hk rfl hs, Kernel.setPc_self]
    simpa [Call.hopeless, Call.fails] using loopCode_error_iff hl hn
  | wait =>
    obtain ⟨hv, hk⟩ := ht
    have not_killed {t : Kernel C} (ht : Run step (fun _ _ => True) (Kernel.init C) t) (hw : (t.pc p).inWait) :
        (t.sig p).killed = false := by
      have hw' : (t.pc p).within = some .sys := by
        generalize t.pc p = k at hw
        unfold Pc.inWait at hw
        split at hw <;> first | rfl | cases hw
      exact not_killed_inCall ht hw' rfl
    have hkids : (s₀.pc p).Finds s₀ p False := by
      refine (h₀.inv (fun t : Kernel C => Run step (fun _ _ => True) (Kernel.init C) t ∧ (t.pc p).Finds t p False) ?_
        ⟨.refl _, trivial⟩).2
      rintro t ⟨c, a⟩ t' ⟨ht, hi⟩ _ hs
      exact ⟨ht.tail trivial hs, finds_step (slots_of_run ht) (not_killed ht) False.elim hi hs⟩
    have hfinds : (s.pc p).Finds s p True := by
      refine (h.inv (fun t : Kernel C => Run step (fun _ _ => True) (Kernel.init C) t ∧ (t.pc p).Finds t p True) ?_
        ⟨h₀, by rw [hp] at hkids ⊢; exact hkids⟩).2
      rintro t ⟨c, a⟩ t' ⟨ht, hi⟩ hin hs
      exact ⟨ht.tail trivial hs, finds_step (slots_of_run ht) (not_killed ht) (fun _ => hin) hi hs⟩
    rw [hk] at hfinds
    rw [step_wait hc hk hs, Kernel.setPc_self]
    simp [waitCode, Call.fails, Call.hopeless, hfinds.1 trivial, not_killed hr (by rw [hk]; rfl)]

end

/-- The child blocks in a wait loop that finds `e` in its first test, and `init`
kills it with `SIGKILL`. It takes `n` steps to block. -/
def killing (L : Loop) (e : LoopEnv) (n : Nat) : List (Fin 2 × Act) :=
  forked ++ [(1, .acquire 5), (1, .loop L (.addr 7) 5), (1, .env e)] ++ cpuSteps 1 n ++ [(0, .kill 3 9)] ++ cpuSteps 0 10

/-- The other CPU comes round to the child, which returns from `sleep`. -/
def comeRound : List (Fin 2 × Act) := cpuSteps 1 133

/-- A reader of an empty pipe that `kill` has made `RUNNABLE` goes back to sleep. -/
theorem killing_reader_sleeps :
    ¬ ∀ (call : Call) (ls : List (Fin 2 × Act)) (s₀ s s' : Kernel (Fin 2)) p c a,
      exec step (Kernel.init (Fin 2)) ls = some s₀ → s₀.pc p = .resume (.cont call.cont) →
      (s₀.sig p).pending SIGKILL → Run step (fun s _ => call.Inside (s.pc p)) s₀ s → s.cpu c = .running p →
      call.Tests (s.pc p) a → step s (c, a) = some s' → s'.pc p = call.fails := by
  intro h
  have hrun : ((exec step (Kernel.init (Fin 2)) (killing .piperead (.pipe 0 0 true true) 9)).bind fun s₀ =>
      (exec (checked step fun s _ => decide ((Call.loop .piperead (.addr 7) 5).Inside (s.pc 1))) s₀ comeRound).bind
        fun s => (step s (1, .env (.pipe 0 0 true true))).map fun s' =>
        decide (s₀.pc 1 = .resume (.cont (.sleep (.loop .piperead (.addr 7) 5) (.addr 7) 5)) ∧
          (s₀.sig 1).pending SIGKILL ∧ s.cpu 1 = .running 1 ∧ s.pc 1 = .base (.loop .piperead (.addr 7) 5) ∧
          s'.pc 1 = .base (.loopSleep .piperead (.addr 7) 5))) = some true := by decide +kernel
  obtain ⟨s₀, h₀, hrun⟩ := Option.bind_eq_some_iff.1 hrun
  obtain ⟨s, h₁, hrun⟩ := Option.bind_eq_some_iff.1 hrun
  obtain ⟨s', h₂, hrun⟩ := Option.map_eq_some_iff.1 hrun
  obtain ⟨hb, hp, hc, hk, hk'⟩ := of_decide_eq_true hrun
  have hf := h (.loop .piperead (.addr 7) 5) _ s₀ s s' 1 1 _ h₀ hb hp
    (run_of_checked (fun _ _ h => of_decide_eq_true h) h₁) hc ⟨hk, _, rfl⟩ h₂
  rw [hk'] at hf
  cases hf

theorem killing_writer_fails :
    ∃ s₀ s s' : Kernel (Fin 2),
      exec step (Kernel.init (Fin 2)) (killing (.pipewrite (.addr 6)) (.pipe 0 512 true true) 73) = some s₀ ∧
      exec step s₀ comeRound = some s ∧ step s (1, .env (.pipe 0 512 false true)) = some s' ∧
      s'.pc 1 = .base .error := by
  have hrun : ((exec (checked step fun _ _ => true) (Kernel.init (Fin 2))
      (killing (.pipewrite (.addr 6)) (.pipe 0 512 true true) 73)).bind fun s₀ =>
      (exec (checked step fun s _ => decide ((Call.loop (.pipewrite (.addr 6)) (.addr 7) 5).Inside (s.pc 1))) s₀
        comeRound).bind fun s => (step s (1, .env (.pipe 0 512 false true))).map fun _ =>
        decide (s₀.pc 1 = .resume (.cont (.sleep (.loop (.pipewrite (.addr 6)) (.addr 7) 5) (.addr 7) 5)) ∧
          s.cpu 1 = .running 1 ∧ s.pc 1 = .base (.loop (.pipewrite (.addr 6)) (.addr 7) 5))) = some true := by
    decide +kernel
  obtain ⟨s₀, h₀, hrun⟩ := Option.bind_eq_some_iff.1 hrun
  obtain ⟨s, h₁, hrun⟩ := Option.bind_eq_some_iff.1 hrun
  obtain ⟨s', h₂, hrun⟩ := Option.map_eq_some_iff.1 hrun
  obtain ⟨hb, hc, hk⟩ := of_decide_eq_true hrun
  exact ⟨s₀, s, s', exec_of_checked h₀, exec_of_checked h₁, h₂,
    (blocked_fails_iff (.loop (.pipewrite (.addr 6)) (.addr 7) 5) (run_of_checked (fun _ _ _ => trivial) h₀) hb
      (run_of_checked (fun _ _ h => of_decide_eq_true h) h₁) hc ⟨hk, _, rfl⟩ h₂).2 rfl⟩

end Xv6
