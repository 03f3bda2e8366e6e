import Xv6.Sigret
/-!
# Nested handlers

A process may be interrupted by a second signal while the handler of a first
one runs. `Nest` follows a run with a stack of what each delivery interrupted,
and checks at every `sigret` that the innermost of them comes back.

The kernel keeps the address of one saved frame and one mask. They are those of
the latest delivery, so a handler that was itself interrupted finds the frame
of the inner one when it returns.
-/

namespace Xv6

open Bytes Runs

/-- What a delivery interrupts. -/
structure Context where
  eip : BitVec 32
  esp : BitVec 32
  mask : BitVec 32
  deriving DecidableEq, Repr

namespace Task

def context (t : Task) : Context := ⟨t.get .eip, t.get .esp, t.sig.signalMask⟩

/-- The step is the call of a handler. -/
def delivers (t : Task) : Ev → Bool
  | .step => match t.phase with
    | .signals i => (t.sig.visit i).2 = .user
    | _ => false
  | _ => false

/-- The step is the system call `sigret`. -/
def callsSigret (t : Task) : Ev → Bool
  | .int _ => t.phase = .user && t.regs .eax = 24
  | _ => false

end Task

/-- The deliveries whose handlers have not returned, innermost first, whether the
last of all deliveries is among them, and whether every `sigret` so far brought
back what its own delivery interrupted. -/
structure Nest where
  stack : List Context
  fresh : Bool
  ok : Bool

def Nest.next (n : Nest) (t : Task) (ev : Ev) (t' : Task) : Nest :=
  if t'.phase = .exited then n
  else if t.delivers ev then { n with stack := t.context :: n.stack, fresh := true }
  else if t.callsSigret ev then match n.stack with
    | c :: cs => { stack := cs, fresh := false, ok := n.ok && t'.context = c }
    | [] => n
  else n

/-- A step of a process, with its deliveries followed. -/
def nestStep (s : Nest × Task) (ev : Ev) : Option (Nest × Task) :=
  (s.2.step ev).map fun t' => (s.1.next s.2 ev t', t')

/-- Address `x` is in the frame that the delivery of `c` saved. -/
def Context.Saved (c : Context) (x : BitVec 32) : Prop :=
  x.toNat < c.esp.toNat ∧ c.esp.toNat ≤ x.toNat + frameSize

/-- Handlers are called on stacks in user memory, return through the code injected
for the innermost of them, and nothing overwrites a saved frame. -/
structure WellNested (n : Nest) (t : Task) (ev : Ev) : Prop where
  room : t.delivers ev → t.Room
  sigret : t.callsSigret ev → ∃ c cs, n.stack = c :: cs ∧ t.regs .eip = c.esp - BitVec.ofNat 32 frameSize
  mem : ∀ t', t.step ev = some t' → ∀ c ∈ n.stack, ∀ x, c.Saved x → t'.mem x = t.mem x
  child : ∀ tf stale bu, ev ≠ .int (.child tf stale bu)

/-- What the process has saved is what the delivery of `c` saved. -/
structure Task.Latest (t : Task) (c : Context) : Prop where
  low : frameSize ≤ c.esp.toNat
  high : c.esp.toNat ≤ KERNBASE
  bu : t.uTrapFrameBU = c.esp - BitVec.ofNat 32 frameSize
  mask : t.sig.signalMaskBU = c.mask
  eip : load t.mem (c.esp - BitVec.ofNat 32 frameSize + BitVec.ofNat 32 Reg.eip.offset) = c.eip
  esp : load t.mem (c.esp - BitVec.ofNat 32 frameSize + BitVec.ofNat 32 Reg.esp.offset) = c.esp

structure Nest.Inv (n : Nest) (t : Task) : Prop where
  ok : n.ok
  fresh : n.fresh → t.phase = .exited ∨ ∃ c cs, n.stack = c :: cs ∧ t.Latest c

namespace Task

variable {t t' : Task} {c : Context}

theorem exited_step {ev : Ev} (h : t.phase = .exited) (hs : t.step ev = some t') : t'.phase = .exited := by
  cases ev with
  | kill => cases hs; exact h
  | cont => simp only [step] at hs; split at hs <;> cases hs; exact h
  | _ => simp [step, h] at hs

theorem latest_called {i : Sig} (hv : (t.sig.visit i).2 = .user) (hr : t.Room) : (t.called i).Latest t.context where
  low := le_trans (by decide) hr.low
  high := hr.high
  bu := t.called_uTrapFrameBU i
  mask := (Sigs.visit_user hv).2.1
  eip := called_saved hr .eip
  esp := called_saved hr .esp

theorem Latest.phase {p : Phase} (h : t.Latest c) : { t with phase := p }.Latest c :=
  ⟨h.low, h.high, h.bu, h.mask, h.eip, h.esp⟩

/-- The call of a handler. -/
theorem latest_of_delivers {i : Sig} (hv : (t.sig.visit i).2 = .user) (hr : t.Room)
    (hne : (t.signalsRound i).phase ≠ .exited) : (t.signalsRound i).Latest t.context := by
  have hl := (latest_called hv hr).phase (p := .trapret)
  rw [signalsRound_user hv] at hne ⊢
  generalize ({ t.called i with phase := .trapret } : Task) = u at hl hne ⊢
  rcases t.access_cases u (t.get .esp - BitVec.ofNat 32 handlerRoom) handlerRoom with he | he <;>
    rw [he] at hne ⊢
  · exact hl
  · exact absurd rfl hne

theorem Latest.load_saved {m : Mem 32} (h : t.Latest c) (hm : ∀ x, c.Saved x → m x = t.mem x) (r : Reg) :
    load m (c.esp - BitVec.ofNat 32 frameSize + BitVec.ofNat 32 r.offset) =
      load t.mem (c.esp - BitVec.ofNat 32 frameSize + BitVec.ofNat 32 r.offset) := by
  have hlow := h.low
  have hoff := r.offset_add_le
  refine load_congr fun k hk => hm _ ?_
  rw [Context.Saved, BitVec.add_assoc, ← BitVec.ofNat_add, toNat_sub_add (by omega) (by omega)]
  omega

theorem Latest.preserved {ev : Ev} (h : t.Latest c) (hp : t.Plain ev) (hs : t.step ev = some t')
    (hm : ∀ x, c.Saved x → t'.mem x = t.mem x) : t'.Latest c :=
  have hsave := hp.sameSave hs
  { low := h.low
    high := h.high
    bu := hsave.frame.trans h.bu
    mask := hsave.mask.trans h.mask
    eip := (h.load_saved hm .eip).trans h.eip
    esp := (h.load_saved hm .esp).trans h.esp }

theorem context_trapEnd (t : Task) : t.trapEnd.context = t.context := by
  unfold trapEnd handleSignals
  (repeat' split) <;> rfl

/-- `sigret` brings back what the latest delivery interrupted. -/
theorem Latest.context_sigret {o : Outcome} (h : t.Latest c) (hc : t.callsSigret (.int o))
    (hs : t.step (.int o) = some t') (hne : t'.phase ≠ .exited) : t'.context = c := by
  simp only [callsSigret, Bool.and_eq_true, decide_eq_true_eq] at hc
  have heax : (t.enter 64 0).get .eax = 24 :=
    (t.get_enter 64 0 .eax (by decide) (by decide) (by decide)).trans hc.2
  have hget {r : Reg} (hr : r ≠ .eax) : (t.enter 64 0).restored.get r =
      load t.mem (c.esp - BitVec.ofNat 32 frameSize + BitVec.ofNat 32 r.offset) := by
    rw [get_sigret, if_neg hr, savedFrame, show (t.enter 64 0).uTrapFrameBU = _ from h.bu]
    exact h.load_saved (fun x hx => enter_mem_user _ _ _ (hx.1.trans_le h.high)) r
  simp only [step, hc.1, if_true, syscall_sigret heax, Option.map_some] at hs
  split at hs
  · cases hs; exact absurd rfl hne
  · obtain rfl := Option.some.inj hs
    rcases (t.enter 64 0).access_cases (t.enter 64 0).restored (t.enter 64 0).uTrapFrameBU frameSize with he | he
    · rw [sysSigret, he, context_trapEnd, context, hget (by decide), hget (by decide), h.eip, h.esp,
        show (t.enter 64 0).restored.sig.signalMask = _ from h.mask]
    · rw [sysSigret, he] at hne
      exact absurd rfl hne

theorem plain_of_not {ev : Ev} (hs : t.step ev = some t') (hd : ¬ t.delivers ev) (hc : ¬ t.callsSigret ev)
    (hch : ∀ tf stale bu, ev ≠ .int (.child tf stale bu)) : t.Plain ev where
  step i he hd' := by
    subst he
    exact hd (by simp [delivers, hd'.1, hd'.2])
  sigret o he hx := by
    subst he
    by_cases hp : t.phase = .user
    · exact hc (by simp [callsSigret, hp, hx])
    · simp [Task.step, hp] at hs
  child := hch

end Task

theorem Nest.Inv.preserved {n : Nest} {t t' : Task} {ev : Ev} (h : n.Inv t) (hw : WellNested n t ev)
    (hf : t.callsSigret ev → n.fresh) (hs : t.step ev = some t') : (n.next t ev t').Inv t' := by
  unfold Nest.next
  split
  · exact ⟨h.ok, fun _ => .inl ‹_›⟩
  rename_i hne
  have latest (hn : n.fresh) : ∃ c cs, n.stack = c :: cs ∧ t.Latest c :=
    (h.fresh hn).resolve_left fun hx => hne (Task.exited_step hx hs)
  split
  · rename_i hd
    refine ⟨h.ok, fun _ => .inr ⟨_, _, rfl, ?_⟩⟩
    have hroom := hw.room hd
    cases ev with
    | step =>
      cases hp : t.phase with
      | signals i =>
        simp only [Task.delivers, hp, decide_eq_true_eq] at hd
        simp only [Task.step, hp, Option.some.injEq] at hs
        subst hs
        exact Task.latest_of_delivers hd hroom hne
      | _ => simp [Task.delivers, hp] at hd
    | _ => cases hd
  · rename_i hd
    split
    · rename_i hc
      obtain ⟨c, cs, hst, hl⟩ := latest (hf hc)
      rw [hst]
      cases ev with
      | int o => exact ⟨by simp [h.ok, hl.context_sigret hc hs hne], fun hx => by cases hx⟩
      | _ => cases hc
    · rename_i hc
      refine ⟨h.ok, fun hn => .inr ?_⟩
      obtain ⟨c, cs, hst, hl⟩ := latest hn
      exact ⟨c, cs, hst, hl.preserved (Task.plain_of_not hs hd hc hw.child) hs (hw.mem t' hs c (by simp [hst]))⟩

/-- In every well-nested run in which each handler that returns is the one called
last, every `sigret` brings back what its own delivery interrupted. -/
theorem sigret_restores_own {t t' : Task} {n : Nest}
    (h : Run nestStep (fun s ev => WellNested s.1 s.2 ev ∧ (s.2.callsSigret ev → s.1.fresh)) (⟨[], false, true⟩, t)
      (n, t')) : n.ok := by
  refine (h.inv (fun s : Nest × Task => s.1.Inv s.2) ?_ ⟨rfl, fun h => by cases h⟩).ok
  rintro ⟨n, t⟩ ev ⟨n', t'⟩ hi ⟨hw, hf⟩ hs
  obtain ⟨u, hu, he⟩ := Option.map_eq_some_iff.1 hs
  cases he
  exact hi.preserved hw hf hu

/-! ## Two signals -/

namespace Task

variable {t t' : Task} {x : BitVec 32}

theorem mem_trapEnd (t : Task) : t.trapEnd.mem = t.mem := by
  unfold trapEnd handleSignals
  (repeat' split) <;> rfl

theorem mem_signalsNext (t : Task) (i : Sig) : (t.signalsNext i).mem = t.mem := by
  unfold signalsNext
  split <;> rfl

theorem mem_sigret {o : Outcome} (hc : t.callsSigret (.int o)) (hs : t.step (.int o) = some t')
    (hx : x.toNat < KERNBASE) : t'.mem x = t.mem x := by
  simp only [callsSigret, Bool.and_eq_true, decide_eq_true_eq] at hc
  have heax : (t.enter 64 0).get .eax = 24 :=
    (t.get_enter 64 0 .eax (by decide) (by decide) (by decide)).trans hc.2
  simp only [step, hc.1, if_true, syscall_sigret heax, Option.map_some] at hs
  split at hs
  · cases hs; rfl
  · obtain rfl := Option.some.inj hs
    rw [mem_trapEnd, sysSigret]
    rcases (t.enter 64 0).access_cases (t.enter 64 0).restored (t.enter 64 0).uTrapFrameBU frameSize with he | he <;>
      rw [he]
    · rw [restored_mem_user _ hx, enter_mem_user _ _ _ hx]
    · exact enter_mem_user _ _ _ hx

/-- `handle_signals` writes below the stack pointer only. -/
theorem mem_signalsRound {i : Sig} (hr : (t.sig.visit i).2 = .user → t.Room ∧ (t.get .esp).toNat ≤ x.toNat)
    (hx : x.toNat < KERNBASE) : (t.signalsRound i).mem x = t.mem x := by
  by_cases hv : (t.sig.visit i).2 = .user
  · obtain ⟨hroom, hle⟩ := hr hv
    have hcall : (t.called i).mem x = t.mem x := (room_visit hroom i).callHandler_above_esp i hle hx
    rw [signalsRound_user hv]
    unfold access
    split
    · exact hcall
    · rfl
  · unfold signalsRound
    split
    · rfl
    · split
      · rw [mem_signalsNext]
      · rfl
      · exact absurd ‹_› hv

end Task

/-- A check that a step is well nested: nothing is stored, and the only system
call is `sigret`. -/
def nested (s : Nest × Task) (ev : Ev) : Bool :=
  s.1.stack.all (fun c => c.esp.toNat ≤ KERNBASE) && match ev with
  | .int .exit => match s.1.stack with
    | c :: _ => s.2.callsSigret ev && s.2.regs .eip = c.esp - BitVec.ofNat 32 frameSize
    | [] => false
  | .step => s.2.delivers ev →
      s.2.Room ∧ ∀ c ∈ s.1.stack, (s.2.get .esp).toNat + frameSize ≤ c.esp.toNat
  | .store _ _ | .int _ => false
  | _ => true

theorem nested_spec {s : Nest × Task} {ev : Ev} (h : nested s ev) : WellNested s.1 s.2 ev := by
  obtain ⟨n, t⟩ := s
  obtain ⟨hall, h⟩ := Bool.and_eq_true_iff.1 h
  have user {c : Context} (hc : c ∈ n.stack) {x : BitVec 32} (hx : c.Saved x) : x.toNat < KERNBASE :=
    hx.1.trans_le (of_decide_eq_true (List.all_eq_true.1 hall c hc))
  -- a step that is no delivery and no system call
  have quiet (hd : t.delivers ev = false) (hc : t.callsSigret ev = false)
      (hch : ∀ tf stale bu, ev ≠ .int (.child tf stale bu))
      (hm : ∀ t' x, t.step ev = some t' → x.toNat < KERNBASE → t'.mem x = t.mem x) : WellNested n t ev :=
    ⟨fun h => absurd h (by simp [hd]), fun h => absurd h (by simp [hc]),
      fun t' hs c hc x hx => hm t' x hs (user hc hx), hch⟩
  cases ev with
  | store => cases h
  | run f =>
    refine quiet rfl rfl (by simp) fun t' x hs _ => ?_
    simp only [Task.step] at hs
    split at hs <;> cases hs
    rfl
  | trap no err fault =>
    refine quiet rfl rfl (by simp) fun t' x hs hx => ?_
    simp only [Task.step] at hs
    split at hs <;> cases hs
    rw [Task.mem_trapEnd]
    exact Task.enter_mem_user _ _ _ hx
  | kill => exact quiet rfl rfl (by simp) fun t' x hs _ => by cases hs; rfl
  | cont =>
    refine quiet rfl rfl (by simp) fun t' x hs _ => ?_
    simp only [Task.step] at hs
    split at hs <;> cases hs
    rfl
  | int o =>
    cases o with
    | exit =>
      cases hst : n.stack with
      | nil => simp [hst] at h
      | cons c cs =>
        simp only [hst, Bool.and_eq_true, decide_eq_true_eq] at h
        exact ⟨fun hd => (by cases hd), fun _ => ⟨c, cs, hst, h.2⟩,
          fun t' hs c' hc' x hx => Task.mem_sigret h.1 hs (user hc' hx), by simp⟩
    | _ => cases h
  | step =>
    replace h := of_decide_eq_true h
    refine ⟨fun hd => (h hd).1, fun hc => (by cases hc), fun t' hs c hc x hx => ?_, by simp⟩
    simp only [Task.step] at hs
    cases hp : t.phase <;> simp only [hp] at hs
    case signals i =>
      cases hs
      refine Task.mem_signalsRound (fun hv => ?_) (user hc hx)
      obtain ⟨hroom, hbelow⟩ := h (by simp [Task.delivers, hp, hv])
      have hle : (t.get .esp).toNat + frameSize ≤ c.esp.toNat := hbelow c hc
      exact ⟨hroom, by have := hx.2; omega⟩
    case stopped i => split at hs <;> cases hs; rw [Task.mem_signalsNext]
    case trapret => cases hs; rfl
    all_goals cases hs

/-- The process of `signalled`, with signal 3 pending too. -/
def signalledTwice : Task := { signalled 0 with sig := { twoHandlers with pendingSignals := bit 2 ||| bit 3 } }

/-- The registers at the `sigret` of a handler called at stack pointer `e`. -/
def sigretFrame (e : BitVec 32) : Frame :=
  withEax (Function.update (Function.update Task.initFrame .eip (e - 76)) .esp (e - 87)) 24

/-- The handler of signal 2 is called at 2048, the handler of signal 3 interrupts
it at 1957, and both return. -/
def nestedReturns : List Ev :=
  [.step, .step, .trap 32 0 false, .step, .step, .step, .step, .step, .run (sigretFrame 1957), .int .exit, .step, .step,
   .run (sigretFrame 2048), .int .exit]

theorem nestedReturns_restores_inner :
    ¬ ∀ (t t' : Task) (n : Nest), Run nestStep (fun s => WellNested s.1 s.2) (⟨[], false, true⟩, t) (n, t') → n.ok := by
  intro h
  have hrun : (exec (checked nestStep nested) (⟨[], false, true⟩, signalledTwice) nestedReturns).map (fun s => s.1.ok) =
    some false := by decide +kernel
  obtain ⟨⟨n, t⟩, hs, hok⟩ := Option.map_eq_some_iff.1 hrun
  have := h signalledTwice t n (run_of_checked (fun _ _ => nested_spec) hs)
  rw [show n.ok = false from hok] at this
  cases this

/-- The handler of signal 3 is called when that of signal 2 has returned. -/
def oneAfterAnother : List Ev :=
  [.step, .step, .run (sigretFrame 2048), .int .exit, .step, .step, .step, .step, .step, .run (sigretFrame 2048),
   .int .exit]

theorem oneAfterAnother_restores :
    ∃ n t, exec nestStep (⟨[], false, true⟩, signalledTwice) oneAfterAnother = some (n, t) ∧ n.stack = [] ∧ n.ok := by
  have hrun : (exec (checked nestStep fun s ev => nested s ev && (!s.2.callsSigret ev || s.1.fresh))
    (⟨[], false, true⟩, signalledTwice) oneAfterAnother).map (fun s => s.1.stack) = some [] := by decide +kernel
  obtain ⟨⟨n, t⟩, hs, hst⟩ := Option.map_eq_some_iff.1 hrun
  refine ⟨n, t, exec_of_checked hs, hst, sigret_restores_own (run_of_checked (fun s ev hc => ?_) hs)⟩
  simp only [Bool.and_eq_true, Bool.or_eq_true, Bool.not_eq_true'] at hc
  refine ⟨nested_spec hc.1, fun hx => ?_⟩
  rcases hc.2 with hf | hf
  · rw [hf] at hx; cases hx
  · exact hf

end Xv6
