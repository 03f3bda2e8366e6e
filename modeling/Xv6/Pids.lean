import Xv6.Slots
/-!
# Process ids

`allocpid` takes the next number with a `cas` retry loop and no lock. A pid is
held by one slot, or by the one thread in `fork` that has taken it and not yet
stored it; `wait` zeroes the pid of a slot it frees, and a `fork` that fails
leaves its pid in the slot. So no two slots ever hold the same non-zero pid.
-/

namespace Xv6

open Runs

variable {C : Type} {s s' : Kernel C} {c : C} {a : Act} {p q r : Slot} {v : Int}

/-! ## Who holds a pid -/

/-- A pid is in a slot, or with a thread that has it from `allocpid` and is about to
store it. -/
inductive Kernel.Has (s : Kernel C) : Slot ⊕ Slot → Int → Prop
  | slot (q : Slot) : s.Has (.inl q) (s.proc q).pid
  | thread {p q : Slot} {v : Int} : (s.pc p).home = some (.fork q (.pid v)) → s.Has (.inr p) v

/-- `fork` has stored the child's pid. -/
def ForkPc.named : ForkPc → Bool
  | .nextpid | .casPid _ | .pid _ => false
  | _ => true

/-- The states of a process that has been set up and not yet reaped. -/
def PState.live : PState → Bool
  | .unused | .embryo | .preUnused => false
  | _ => true

structure Pids (s : Kernel C) : Prop where
  bound : ∀ o v, s.Has o v → 0 ≤ v ∧ v ≤ s.nextpid
  taken : ∀ p v, s.Has (.inr p) v → v ≠ 0
  one : ∀ o o' v, s.Has o v → s.Has o' v → v ≠ 0 → o = o'
  named : ∀ p q k, (s.pc p).home = some (.fork q k) → k.named → (s.proc q).pid ≠ 0
  live : ∀ q, (s.state q).live → (s.proc q).pid ≠ 0

theorem init_holder {o : Slot ⊕ Slot} (h : (Kernel.init C).Has o v) (hv : v ≠ 0) : o = .inl initproc := by
  cases h with
  | thread h => cases h
  | slot q =>
    dsimp only [Kernel.init] at hv
    split at hv
    · rename_i hq; rw [hq]
    · exact absurd rfl hv

theorem pids_init : Pids (Kernel.init C) where
  bound o v h := by
    cases h with
    | slot q => dsimp only [Kernel.init]; split <;> simp
    | thread h => cases h
  taken p v h := by cases h with | thread h => cases h
  one o o' v h h' hv := (init_holder h hv).trans (init_holder h' hv).symm
  named p q k h := by cases h
  live q h := by
    dsimp only [Kernel.init, Kernel.state] at h ⊢
    split at h
    · simp [*]
    · cases h

section

variable [DecidableEq C]

/-! ## Steps -/

/-- A thread that holds a pid held it before, or has it from `allocpid` in this step. -/
theorem thread_back (hs : step s (c, a) = some s') (h : s'.Has (.inr p) v) :
    s.Has (.inr p) v ∨ (s.cpu c = .running p ∧ v = s.nextpid + 1 ∧ s'.nextpid = s.nextpid + 1) := by
  cases h with
  | @thread _ q _ h =>
    rcases Stacks.home_back hs h rfl with h | ⟨k, fails, hc, hk, rfl⟩ | ⟨_, _, h, _⟩
    · exact .inl (.thread h)
    · rw [Kernel.setPc_self] at h
      cases k with
      | casPid w =>
        simp only [forkCode] at h ⊢
        split at h
        · rename_i hw
          cases h
          exact .inr ⟨hc, by rw [hw], by simp [hw, Kernel.store, Kernel.setPc]⟩
        · cases h
      | kalloc | copyuvm => cases fails <;> cases h
      | publish => simp only [forkCode, cas] at h; split at h <;> cases h
      | _ => cases h
    · cases h

/-- The step of `fork` that stores the pid gives it to the slot. -/
theorem step_fork_pid (hc : s.cpu c = .running r) (hk : s.pc r = .base (.fork q (.pid v)))
    (hs : step s (c, a) = some s') :
    (s'.proc q).pid = (s.proc q).pid ∨ ((s'.proc q).pid = v ∧ ∀ w, ¬ s'.Has (.inr r) w) := by
  obtain ⟨i, rfl, ⟨hl, _⟩ | ⟨np, k, f, he, rfl⟩⟩ := step_base hc hk hs
  · refine .inl ?_
    rw [Kernel.setPc_proc, Kernel.store_pid]
    rcases hl with h | ⟨f, h, _⟩
    · generalize i.1 = st at h
      cases st <;> first | exact h.elim | rfl
    · rw [h]
  · cases he
    refine .inr ⟨by simp [forkCode, Kernel.store_pid], ?_⟩
    rintro w ⟨⟩
    rename_i h
    simp [forkCode, Pc.home] at h

/-- Who holds a pid after a step held it before, is a slot that gets it from the
thread that fills it, or is a thread that takes a new one. -/
theorem has_back {o : Slot ⊕ Slot} (hs : step s (c, a) = some s') (h : s'.Has o v) (hv : v ≠ 0) :
    s.Has o v ∨
      (∃ r q, o = .inl q ∧ s.cpu c = .running r ∧ s.pc r = .base (.fork q (.pid v)) ∧ ∀ w, ¬ s'.Has (.inr r) w) ∨
      (∃ r, o = .inr r ∧ s.cpu c = .running r ∧ v = s.nextpid + 1 ∧ s'.nextpid = s.nextpid + 1) := by
  cases o with
  | inr p =>
    rcases thread_back hs h with h | h
    · exact .inl h
    · exact .inr (.inr ⟨p, rfl, h⟩)
  | inl q =>
    cases h with
    | slot =>
      rcases step_pid hs q with hsame | hr
      · exact .inl (hsame ▸ .slot q)
      generalize hw : (s'.proc q).pid = w at hr hv
      cases hr with
      | @fork r _ hc hk =>
        rcases step_fork_pid hc hk hs with h | ⟨_, h⟩
        · exact .inl (hw ▸ h ▸ .slot q)
        · exact .inr (.inl ⟨r, q, rfl, hc, hk, h⟩)
      | wait => exact absurd rfl hv

theorem nextpid_mono (hs : step s (c, a) = some s') : s.nextpid ≤ s'.nextpid := by
  rcases step_nextpid hs with h | ⟨h, _⟩ <;> omega

namespace Pids

theorem bound_next (h : Pids s) (hs : step s (c, a) = some s') {o : Slot ⊕ Slot} (ho : s'.Has o v) :
    0 ≤ v ∧ v ≤ s'.nextpid := by
  have hn := nextpid_mono hs
  have hpos := (h.bound _ _ (.slot 0)).1.trans (h.bound _ _ (.slot 0)).2
  by_cases hv : v = 0
  · omega
  rcases has_back hs ho hv with ho | ⟨r, q, _, _, hk, _⟩ | ⟨r, _, _, rfl, hn'⟩
  · have := h.bound o v ho
    omega
  · have := h.bound (.inr r) v (.thread (by rw [hk]; rfl))
    omega
  · omega

theorem taken_next (h : Pids s) (hs : step s (c, a) = some s') (ho : s'.Has (.inr p) v) : v ≠ 0 := by
  rcases thread_back hs ho with ho | ⟨_, rfl, _⟩
  · exact h.taken p v ho
  · have := h.bound _ _ (.slot 0)
    omega

/-- Two holders of one pid after a step are the same. -/
theorem one_next (h : Pids s) (hs : step s (c, a) = some s') {o o' : Slot ⊕ Slot} (ho : s'.Has o v)
    (ho' : s'.Has o' v) (hv : v ≠ 0) : o = o' := by
  have old {o : Slot ⊕ Slot} (ho : s.Has o v) : v ≠ s.nextpid + 1 := by
    have := h.bound o v ho
    omega
  have filling {r q : Slot} (hk : s.pc r = .base (.fork q (.pid v))) : s.Has (.inr r) v := .thread (by rw [hk]; rfl)
  rcases has_back hs ho hv with h₀ | ⟨r, q, rfl, hc, hk, hn⟩ | ⟨r, rfl, hc, hnew, _⟩ <;>
    rcases has_back hs ho' hv with h₀' | ⟨r', q', rfl, hc', hk', hn'⟩ | ⟨r', rfl, hc', hnew', _⟩
  · exact h.one o o' v h₀ h₀' hv
  · -- the thread that gives its pid to a slot no longer has it
    obtain rfl := h.one _ _ v h₀ (filling hk') hv
    exact absurd ho (hn' v)
  · exact absurd hnew' (old h₀)
  · obtain rfl := h.one _ _ v h₀' (filling hk) hv
    exact absurd ho' (hn v)
  · rw [hc] at hc'; cases hc'
    rw [hk] at hk'; cases hk'
    rfl
  · exact absurd hnew' (old (filling hk))
  · exact absurd hnew (old h₀')
  · exact absurd hnew (old (filling hk'))
  · rw [hc] at hc'; cases hc'
    rfl

/-- A pid is zeroed only in a slot that is being freed. -/
theorem zeroed (h : Pids s) (hsl : Slots s) (hs : step s (c, a) = some s') (hq : (s.proc q).pid ≠ 0)
    (hq' : (s'.proc q).pid = 0) : s.state q = .preUnused ∧ s'.state q = .preUnused := by
  rcases step_pid hs q with hsame | hr
  · exact absurd (hsame.symm.trans hq') hq
  rw [hq'] at hr
  generalize hw : (0 : Int) = w at hr
  cases hr with
  | @fork r _ hc hk => exact absurd hw.symm (h.taken r w (.thread (by rw [hk]; rfl)))
  | @wait r hc hk =>
    have hp : s.state q = .preUnused := hsl.reaped r q (by rw [hk]; rfl)
    refine ⟨hp, ?_⟩
    rw [step_wait hc hk hs]
    simpa [waitCode, Kernel.store_state] using hp

theorem named_next (h : Pids s) (hsl : Slots s) (hs : step s (c, a) = some s') {k : ForkPc}
    (hb : (s'.pc p).home = some (.fork q k)) (hk : k.named) : (s'.proc q).pid ≠ 0 := by
  rcases Stacks.home_back hs hb rfl with hb₀ | ⟨k₀, fails, hc, hk₀, rfl⟩ | ⟨_, _, he, _⟩
  · intro h0
    have he := hsl.embryo p q (by rw [Pc.child, hb₀]; rfl)
    rw [(h.zeroed hsl hs (h.named p q k hb₀ hk) h0).1] at he
    cases he
  · have hn : k₀.named → (s.proc q).pid ≠ 0 := h.named p q k₀ (by rw [hk₀]; rfl)
    rw [Kernel.setPc_self] at hb
    cases k₀ with
    | nextpid => cases hb; cases hk
    | casPid w => simp only [forkCode] at hb; split at hb <;> cases hb <;> cases hk
    | pid v =>
      have := h.taken p v (.thread (by rw [hk₀]; rfl))
      simpa [forkCode, Kernel.store_pid] using this
    | publish => simp only [forkCode, cas] at hb; split at hb <;> cases hb
    | _ => simpa [forkCode, Kernel.store_pid] using hn rfl
  · cases he; cases hk

theorem live_next (h : Pids s) (hsl : Slots s) (hs : step s (c, a) = some s') (hq : (s'.state q).live) :
    (s'.proc q).pid ≠ 0 := by
  intro h0
  by_cases hq₀ : (s.proc q).pid = 0
  · -- without a pid the slot was not live, and `fork` publishes only slots with one
    have hl : ¬ (s.state q).live := fun hl => h.live q hl hq₀
    rcases step_state hs q with hst | hm
    · exact hl (hst ▸ hq)
    generalize hv : s.state q = v at hm hl
    generalize s'.state q = v' at hm hq
    cases hm with
    | @publish r hc hk => exact h.named r q .publish (by rw [hk]; rfl) rfl hq₀
    | _ => first | exact hl rfl | cases hq
  · rw [(h.zeroed hsl hs hq₀ h0).2] at hq
    cases hq

theorem preserved (h : Pids s) (hsl : Slots s) (hs : step s (c, a) = some s') : Pids s' where
  bound _ _ := h.bound_next hs
  taken _ _ := h.taken_next hs
  one _ _ _ := h.one_next hs
  named _ _ _ := h.named_next hsl hs
  live _ := h.live_next hsl hs

end Pids

/-! ## The numbers `allocpid` returns -/

/-- The pid that `allocpid` returns in step `l`, if its `cas` succeeds there. -/
def Kernel.allocpid (s : Kernel C) (l : C × Act) : Option Int :=
  match s.cpu l.1 with
  | .running r => match s.pc r, l.2 with
    | .base (.fork _ (.casPid v)), .step | .base (.fork _ (.casPid v)), .fail =>
      if s.nextpid = v then some (v + 1) else none
    | _, _ => none
  | _ => none

/-- A step, with the pids returned so far. -/
def recordPids (t : List Int × Kernel C) (l : C × Act) : Option (List Int × Kernel C) :=
  (step t.2 l).map fun s => (t.1 ++ (t.2.allocpid l).toList, s)

theorem step_allocpid (hs : step s (c, a) = some s') :
    (s.allocpid (c, a) = none ∧ s'.nextpid = s.nextpid) ∨
      (s.allocpid (c, a) = some (s.nextpid + 1) ∧ s'.nextpid = s.nextpid + 1) := by
  by_cases hk : ∃ r q v, s.cpu c = .running r ∧ s.pc r = .base (.fork q (.casPid v))
  · obtain ⟨r, q, v, hc, hk⟩ := hk
    rcases step_fork hc hk hs with ⟨ha, fails, rfl⟩ | ⟨ha, i, hi, rfl⟩
    · -- the `cas` of the retry loop
      by_cases hv : s.nextpid = v
      · refine .inr ⟨?_, by simp [forkCode, hv, Kernel.store, Kernel.setPc]⟩
        rcases ha with rfl | rfl <;> simp [Kernel.allocpid, hc, hk, hv]
      · refine .inl ⟨?_, by simp [forkCode, hv, Kernel.store, Kernel.setPc]⟩
        rcases ha with rfl | rfl <;> simp [Kernel.allocpid, hc, hk, hv]
    · -- an interrupt in the loop
      obtain ⟨hs, hf⟩ := not_or.1 ha
      have hq := (kernelCode_cases hi).1
      refine .inl ⟨?_, ?_⟩
      · cases a <;> first | exact absurd rfl hs | exact absurd rfl hf | simp [Kernel.allocpid, hc, hk]
      · generalize i.1 = st at hq
        cases st <;> first | exact hq.elim | rfl
  · refine .inl ⟨?_, ?_⟩
    · unfold Kernel.allocpid
      split
      · rename_i r hc
        split
        · exact absurd ⟨r, _, _, hc, ‹_›⟩ hk
        · exact absurd ⟨r, _, _, hc, ‹_›⟩ hk
        · rfl
      · rfl
    · rcases step_nextpid hs with h | ⟨_, r, q, hc, hk'⟩
      · exact h
      · exact absurd ⟨r, q, _, hc, hk'⟩ hk

/-- The pids returned so far are the numbers up to `nextpid`. -/
structure Recorded (vs : List Int) (s : Kernel C) : Prop where
  count : s.nextpid = vs.length + 1
  range : ∀ v ∈ vs, 0 < v ∧ v ≤ s.nextpid
  nodup : vs.Nodup

theorem Recorded.next {vs : List Int} (h : Recorded vs s) (hs : step s (c, a) = some s') :
    Recorded (vs ++ (s.allocpid (c, a)).toList) s' := by
  rcases step_allocpid hs with ⟨hn, hs'⟩ | ⟨hn, hs'⟩ <;> rw [hn]
  · simpa using ⟨hs' ▸ h.count, hs' ▸ h.range, h.nodup⟩
  · have hcount := h.count
    refine ⟨?_, ?_, ?_⟩
    · simp only [Option.toList_some, List.length_append, List.length_singleton]
      omega
    · intro v hv
      rcases List.mem_append.1 hv with hv | hv
      · have := h.range v hv
        omega
      · rw [Option.toList_some, List.mem_singleton] at hv
        omega
    · refine List.Nodup.append h.nodup (by simp) ?_
      intro v hv hv'
      rw [Option.toList_some, List.mem_singleton] at hv'
      have := h.range v hv
      omega

/-- `userinit` has taken pid 2 for `init`. In every run with fewer than 2^31 - 2 pids,
`allocpid` returns distinct positive numbers of an `int`, and two processes that are set
up and not reaped have different pids. -/
theorem pids_distinct {vs : List Int} (h : Run recordPids (fun _ _ => True) ([2], Kernel.init C) (vs, s))
    (hn : vs.length < 2 ^ 31 - 2) :
    vs.Nodup ∧ (∀ v ∈ vs, 0 < v ∧ v < 2 ^ 31) ∧
      ∀ p q, (s.state p).live → (s.state q).live → (s.proc p).pid = (s.proc q).pid → p = q := by
  obtain ⟨hsl, hp, hr⟩ : Slots s ∧ Pids s ∧ Recorded vs s := by
    refine h.inv (fun t : List Int × Kernel C => Slots t.2 ∧ Pids t.2 ∧ Recorded t.1 t.2) ?_
      ⟨slots_init, pids_init, ⟨rfl, by simp [Kernel.init], by simp⟩⟩
    rintro ⟨vs, s⟩ l ⟨vs', s'⟩ ⟨hsl, hp, hr⟩ _ hs
    obtain ⟨t, ht, he⟩ := Option.map_eq_some_iff.1 hs
    cases he
    exact ⟨hsl.preserved ht, hp.preserved hsl ht, hr.next ht⟩
  refine ⟨hr.nodup, ?_, ?_⟩
  · intro v hv
    have := hr.range v hv
    have := hr.count
    omega
  · intro p q hlp hlq he
    exact Sum.inl.inj (hp.one _ _ _ (.slot p) (he ▸ .slot q) (hp.live p hlp))

end

/-- `init` forks: `allocpid` has returned 2 and 3, which the two processes have. -/
theorem forked_pids :
    ∃ s : Kernel (Fin 2), exec recordPids ([2], Kernel.init (Fin 2)) forked = some ([2, 3], s) ∧
      (s.state 0).live ∧ (s.state 1).live ∧ (s.proc 0).pid ≠ (s.proc 1).pid := by
  have hrun : (exec (checked recordPids fun _ _ => true) ([2], Kernel.init (Fin 2)) forked).map
      (fun t => decide (t.1 = [2, 3] ∧ (t.2.state 0).live ∧ (t.2.state 1).live)) = some true := by decide +kernel
  obtain ⟨⟨vs, s⟩, hs, hrun⟩ := Option.map_eq_some_iff.1 hrun
  obtain ⟨rfl, h₀, h₁⟩ := of_decide_eq_true hrun
  refine ⟨s, exec_of_checked hs, h₀, h₁, fun he => ?_⟩
  have := (pids_distinct (run_of_checked (fun _ _ _ => trivial) hs) (by decide)).2.2 0 1 h₀ h₁ he
  cases this

end Xv6
