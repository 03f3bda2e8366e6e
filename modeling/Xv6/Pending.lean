import Xv6.Lib.Flags
import Xv6.SleepWakeup
/-!
# Pending signals

`kill`, `handle_signals` and `check_cont_sig` each change one bit of
`pendingSignals` with a load and a store that no lock or `cas` joins. As a set of
signals, the word is to change by `insert` when a signal is sent, by removal when
it is consumed, and in no other way. A step does that whenever its store is
`Fresh`: the word it loaded still has the bits that are in memory.
-/

namespace Xv6

open Runs Flags

variable {C : Type} {s s' : Kernel C} {c : C} {a : Act} {p q : Slot} {i : Sig} {l : C × Act}

/-! ## Updates of the word -/

/-- A store to `pendingSignals` that ends a read-modify-write. -/
structure Update where
  slot : Slot
  sig : Sig
  /-- The word that was loaded. -/
  word : BitVec 32
  op : Op

/-- The update that step `l` makes: `|=` in `kill`, `&= ~` in `handle_signals`
and `^` in `check_cont_sig`. -/
def Kernel.update (s : Kernel C) (l : C × Act) : Option Update :=
  match s.cpu l.1 with
  | .running r => match s.pc r with
    | .kill _ i q (.store v) => some ⟨q, i, v, .set⟩
    | .base (.signals (.store i v)) => match l.2 with
      | .step => some ⟨r, i, v, .clear⟩
      | _ => none
    | _ => none
  | .sched (.cont q i (.store v)) => some ⟨q, i, v, .flip⟩
  | _ => none

/-- The slot in which step `l`, made by `fork`, zeroes `pendingSignals`. -/
def Kernel.zeroes (s : Kernel C) (l : C × Act) : Option Slot :=
  match s.cpu l.1 with
  | .running r => match s.pc r, l.2 with
    | .base (.fork q .pending0), .step | .base (.fork q .pending0), .fail
    | .base (.fork q .pending), .step | .base (.fork q .pending), .fail => some q
    | _, _ => none
  | _ => none

/-- `kill` makes signal `i` pending for `p`. From here on it returns 0. -/
def Kernel.Sends (s : Kernel C) (l : C × Act) (p : Slot) (i : Sig) : Prop :=
  ∃ u ∈ s.update l, u.slot = p ∧ u.sig = i ∧ u.op = .set

/-- `handle_signals` of `p`, or `check_cont_sig` on it, consumes signal `i`. -/
def Kernel.Consumes (s : Kernel C) (l : C × Act) (p : Slot) (i : Sig) : Prop :=
  ∃ u ∈ s.update l, u.slot = p ∧ u.sig = i ∧ u.op ≠ .set

/-- The word that step `l` changes one bit of and stores has the bits that are in
memory, that bit apart. `check_cont_sig` flips the bit, and has loaded it as set. -/
def Kernel.Fresh (s : Kernel C) (l : C × Act) : Prop :=
  ∀ u ∈ s.update l, Agree u.sig u.word (s.sig u.slot).pendingSignals ∧ (u.op = .flip → u.sig ∈ flags u.word)

instance : Decidable (s.Sends l p i) := inferInstanceAs (Decidable (∃ u ∈ s.update l, _))
instance : Decidable (s.Consumes l p i) := inferInstanceAs (Decidable (∃ u ∈ s.update l, _))
instance : Decidable (s.Fresh l) := inferInstanceAs (Decidable (∀ u ∈ s.update l, _))

/-! ## The set of pending signals -/

def Sigs.waiting (g : Sigs) : Set Sig := flags g.pendingSignals

theorem Sigs.mem_waiting {g : Sigs} : i ∈ g.waiting ↔ g.pending i := and_one_ne_zero.symm

section

variable [DecidableEq C]

/-- A step leaves the word of `q` alone, updates it, or zeroes it in `fork`. -/
theorem step_pendingSignals (hs : step s (c, a) = some s') (q : Slot) :
    (s'.sig q).pendingSignals = (s.sig q).pendingSignals ∨
      (∃ u ∈ s.update (c, a), u.slot = q ∧ (s'.sig q).pendingSignals = u.op.apply u.sig u.word) ∨
      (s.zeroes (c, a) = some q ∧ (s'.sig q).pendingSignals = 0) := by
  rcases step_sig hs q with h | ⟨f, hr, hf⟩
  · exact .inl (by rw [h])
  · cases hr with
    | @signals k f hc hk hst =>
      by_cases ha : a = .step
      · subst ha
        cases k with
        | store i v =>
          cases hst
          exact .inr (.inl ⟨⟨q, i, v, .clear⟩, by simp [Kernel.update, hc, hk], rfl, by rw [hf]; rfl⟩)
        | act i =>
          simp only [signalsCode] at hst
          split at hst <;> cases hst <;> exact .inl (by rw [hf])
        | _ => cases hst
      · have hb : baseCode s q a (.signals k) = kernelCode s q (.signals k) a := by
          cases a <;> first | rfl | exact absurd rfl ha
        exact .inl (by rw [step_kernelCode hc hk hb hs])
    | @kill r pid i v hc hk =>
      exact .inr (.inl ⟨⟨q, i, v, .set⟩, by simp [Kernel.update, hc, hk], rfl, by rw [hf]; rfl⟩)
    | @cont j v hc => exact .inr (.inl ⟨⟨q, j, v, .flip⟩, by simp [Kernel.update, hc], rfl, by rw [hf]; rfl⟩)
    | @fork r k f fails hc hk hst =>
      by_cases ha : baseCode s r a (.fork q k) = kernelCode s r (.fork q k) a
      · exact .inl (by rw [step_kernelCode hc hk ha hs])
      · cases k with
        | pending0 | pending =>
          cases hst
          refine .inr (.inr ⟨?_, by rw [hf]⟩)
          cases a <;> first | exact absurd rfl ha | simp [Kernel.zeroes, hc, hk]
        | casPid => simp only [forkCode] at hst; split at hst <;> cases hst
        | publish => simp only [forkCode, cas] at hst; split at hst <;> cases hst
        | _ => cases hst <;> exact .inl (by rw [hf])
    | _ => rw [hf]; exact .inl rfl

/-- An update is what the word holds after the step. -/
theorem step_update {u : Update} (hu : u ∈ s.update l) (hs : step s l = some s') :
    (s'.sig u.slot).pendingSignals = u.op.apply u.sig u.word := by
  obtain ⟨c, a⟩ := l
  unfold Kernel.update at hu
  split at hu
  · rename_i r hc
    split at hu
    · rename_i hk
      cases hu
      rw [step_at hc hk rfl hs]
      simp [killCode, Kernel.store_sig, Op.apply, bit]
    · rename_i i v hk
      split at hu <;> cases hu
      obtain rfl : a = .step := ‹_›
      rcases step_running hc hs with ⟨k, hk', _⟩ | ⟨o, ho, rfl⟩
      · rw [hk] at hk'; cases hk'
      · rw [hk, procCode, baseCode, unlocked] at ho
        split at ho <;> cases ho
        simp [signalsCode, Kernel.store_sig, Op.apply, bit]
    · cases hu
  · rename_i q j v hc
    cases hu
    obtain ⟨o, ho, rfl⟩ := step_sched hc hs
    obtain rfl := Option.some.inj ho
    simp [contCode, Kernel.store_sig, Op.apply, bit]
  · cases hu

theorem Kernel.Sends.waiting (h : s.Sends l p i) (hs : step s l = some s') : i ∈ (s'.sig p).waiting := by
  obtain ⟨u, hu, rfl, rfl, ho⟩ := h
  rw [Sigs.waiting, step_update hu hs, ho]
  exact mem_set

theorem Kernel.Consumes.waiting (h : s.Consumes l p i) (hg : s.Fresh l) (hs : step s l = some s') :
    i ∉ (s'.sig p).waiting := by
  obtain ⟨u, hu, rfl, rfl, ho⟩ := h
  rw [Sigs.waiting, step_update hu hs, flags_apply (hg u hu).1 (hg u hu).2, if_neg ho]
  exact fun h => h.2 rfl

/-- What a fresh step does to the set of signals pending for `q`. -/
theorem step_waiting (hg : s.Fresh (c, a)) (hs : step s (c, a) = some s') (q : Slot) :
    (s'.sig q).waiting = (s.sig q).waiting ∨
      (∃ i, s.Sends (c, a) q i ∧ (s'.sig q).waiting = insert i (s.sig q).waiting) ∨
      (∃ i, s.Consumes (c, a) q i ∧ (s'.sig q).waiting = (s.sig q).waiting \ {i}) ∨
      (s.zeroes (c, a) = some q ∧ (s'.sig q).waiting = ∅) := by
  rcases step_pendingSignals hs q with h | ⟨u, hu, rfl, h⟩ | ⟨hz, h⟩
  · exact .inl (by rw [Sigs.waiting, h]; rfl)
  · have hw : (s'.sig u.slot).waiting = _ := (congrArg flags h).trans (flags_apply (hg u hu).1 (hg u hu).2)
    by_cases ho : u.op = .set
    · rw [if_pos ho] at hw
      exact .inr (.inl ⟨u.sig, ⟨u, hu, rfl, rfl, ho⟩, hw⟩)
    · rw [if_neg ho] at hw
      exact .inr (.inr (.inl ⟨u.sig, ⟨u, hu, rfl, rfl, ho⟩, hw⟩))
  · exact .inr (.inr (.inr ⟨hz, by rw [Sigs.waiting, h]; exact flags_zero⟩))

/-- From the store of `kill` on, the signal is pending until it is consumed; once
consumed it is not pending until the next `kill`. This holds in every run of
fresh updates, for as long as the slot is not taken by another `fork`. -/
theorem signal_kept_until_consumed (p : Slot) (i : Sig) (l : C × Act) (s₀ s₁ s₂ : Kernel C)
    (hs : step s₀ l = some s₁) :
    (s₀.Sends l p i →
      Run step (fun s l => s.Fresh l ∧ ¬ s.Consumes l p i ∧ s.zeroes l ≠ some p) s₁ s₂ → (s₂.sig p).pending i) ∧
    (s₀.Consumes l p i → s₀.Fresh l →
      Run step (fun s l => s.Fresh l ∧ ¬ s.Sends l p i) s₁ s₂ → ¬ (s₂.sig p).pending i) := by
  simp only [← Sigs.mem_waiting]
  constructor
  · intro hsend hrun
    refine hrun.inv (fun s : Kernel C => i ∈ (s.sig p).waiting) ?_ (hsend.waiting hs)
    rintro s ⟨c, a⟩ s' hi ⟨hf, hc, hz⟩ hs
    rcases step_waiting hf hs p with h | ⟨j, _, h⟩ | ⟨j, hj, h⟩ | ⟨h, _⟩
    · rwa [h]
    · exact h ▸ .inr hi
    · refine h ▸ ⟨hi, ?_⟩
      rintro rfl
      exact hc hj
    · exact absurd h hz
  · intro hcons hfresh hrun
    refine hrun.inv (fun s : Kernel C => i ∉ (s.sig p).waiting) ?_ (hcons.waiting hfresh hs)
    rintro s ⟨c, a⟩ s' hi ⟨hf, hn⟩ hs
    rcases step_waiting hf hs p with h | ⟨j, hj, h⟩ | ⟨j, _, h⟩ | ⟨_, h⟩
    · rwa [h]
    · rw [h]
      rintro (rfl | h)
      exacts [hn hj, hi h]
    · exact fun h' => hi (h ▸ h').1
    · exact h ▸ id

end

/-- `init` calls `kill(2, 3)` on itself, its child `kill(2, 4)`. Both have loaded
the word, 0, and the child is about to store. -/
def racing : List (Fin 2 × Act) :=
  forked ++ [(0, .kill 2 3)] ++ cpuSteps 0 4 ++ [(1, .kill 2 4)] ++ cpuSteps 1 4

/-- The child's signal is lost when `init` stores. -/
theorem racing_loses_signal :
    ¬ ∀ (ls : List (Fin 2 × Act)) l s₀ s₁ s₂ p i, exec step (Kernel.init (Fin 2)) ls = some s₀ →
      s₀.Sends l p i → s₀.state p ∉ [.unused, .embryo, .zombie] → (s₀.sig p).signalHandler i ≠ SIG_IGN →
      step s₀ l = some s₁ → Run step (fun s l => ¬ s.Consumes l p i ∧ s.zeroes l ≠ some p) s₁ s₂ →
      (s₂.sig p).pending i := by
  intro h
  have hrun : ((exec step (Kernel.init (Fin 2)) racing).bind fun s₀ => (step s₀ (1, .step)).bind fun s₁ =>
      (step s₁ (0, .step)).map fun s₂ => decide (s₀.Sends (1, .step) 0 4 ∧ s₀.state 0 = .running ∧
        (s₀.sig 0).signalHandler 4 = SIG_DFL ∧ ¬ s₁.Consumes (0, .step) 0 4 ∧ s₁.zeroes (0, .step) = none ∧
        ¬ (s₂.sig 0).pending 4)) = some true := by decide +kernel
  obtain ⟨s₀, h₀, hrun⟩ := Option.bind_eq_some_iff.1 hrun
  obtain ⟨s₁, h₁, hrun⟩ := Option.bind_eq_some_iff.1 hrun
  obtain ⟨s₂, h₂, hrun⟩ := Option.map_eq_some_iff.1 hrun
  obtain ⟨hsend, hv, hh, hc, hz, hp⟩ := of_decide_eq_true hrun
  exact hp (h racing (1, .step) s₀ s₁ s₂ 0 4 h₀ hsend (by simp [hv]) (by simp [hh, SIG_DFL, SIG_IGN]) h₁
    (.single ⟨hc, by simp [hz]⟩ h₂))

/-- The same two calls, one after the other: `init` is about to store. -/
def sending : List (Fin 2 × Act) := forked ++ [(0, .kill 2 3)] ++ cpuSteps 0 4

/-- `init`'s call ends, the child makes its own, and `init` comes to consume signal
3 on its way back to user mode. -/
def inTurn : List (Fin 2 × Act) := cpuSteps 0 2 ++ [(1, .kill 2 4)] ++ cpuSteps 1 7 ++ cpuSteps 0 14

theorem inTurn_keeps_signals :
    ∃ s₀ s₁ s₂ s₃ s₄ : Kernel (Fin 2), exec step (Kernel.init (Fin 2)) sending = some s₀ ∧
      s₀.Sends (0, .step) 0 3 ∧ step s₀ (0, .step) = some s₁ ∧ exec step s₁ inTurn = some s₂ ∧ (s₂.sig 0).pending 3 ∧
      s₂.Consumes (0, .step) 0 3 ∧ step s₂ (0, .step) = some s₃ ∧ step s₃ (0, .step) = some s₄ ∧
      ¬ (s₄.sig 0).pending 3 ∧ (s₄.sig 0).pending 4 := by
  have hrun : ((exec step (Kernel.init (Fin 2)) sending).bind fun s₀ => (step s₀ (0, .step)).bind fun s₁ =>
      (exec (checked step fun s l => decide (s.Fresh l ∧ ¬ s.Consumes l 0 3 ∧ s.zeroes l ≠ some 0)) s₁ inTurn).bind
        fun s₂ => (step s₂ (0, .step)).bind fun s₃ => (step s₃ (0, .step)).map fun s₄ =>
        decide (s₀.Sends (0, .step) 0 3 ∧ s₂.Consumes (0, .step) 0 3 ∧ s₂.Fresh (0, .step) ∧
          s₃.Fresh (0, .step) ∧ ¬ s₃.Sends (0, .step) 0 3 ∧ (s₄.sig 0).pending 4)) = some true := by decide +kernel
  obtain ⟨s₀, h₀, hrun⟩ := Option.bind_eq_some_iff.1 hrun
  obtain ⟨s₁, h₁, hrun⟩ := Option.bind_eq_some_iff.1 hrun
  obtain ⟨s₂, h₂, hrun⟩ := Option.bind_eq_some_iff.1 hrun
  obtain ⟨s₃, h₃, hrun⟩ := Option.bind_eq_some_iff.1 hrun
  obtain ⟨s₄, h₄, hrun⟩ := Option.map_eq_some_iff.1 hrun
  obtain ⟨hsend, hcons, hf₂, hf₃, hn, hp⟩ := of_decide_eq_true hrun
  exact ⟨s₀, s₁, s₂, s₃, s₄, h₀, hsend, h₁, exec_of_checked h₂,
    (signal_kept_until_consumed 0 3 _ s₀ s₁ s₂ h₁).1 hsend (run_of_checked (fun _ _ h => of_decide_eq_true h) h₂),
    hcons, h₃, h₄, (signal_kept_until_consumed 0 3 _ s₂ s₃ s₄ h₃).2 hcons hf₂ (.single ⟨hf₃, hn⟩ h₄), hp⟩

end Xv6
