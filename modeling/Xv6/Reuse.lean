import Xv6.Killed
import Xv6.Trap.Code
/-!
# Reuse of process slots

A slot is set up by `allocproc` and `fork` and cleared by `exit` and `wait`, each
of which sets some of its fields. The fields that only their own process uses
(open files, directory, size, trap frame) are added to the model here: no code
modelled before depends on them.

`killed` and the open files of a free slot are always clear, whatever its last
process did. `frozen`, `chan`, `signalMaskBU` and `uTrapFrameBU` are not: a new
process starts with those of the slot's last one.
-/

namespace Xv6

open Runs

variable {C : Type} {s s' : Kernel C} {c : C} {a : Act} {p q r : Slot}

/-! ## The other fields -/

/-- The fields of `struct proc` that only the process itself uses; `tf` is the frame
it points to. -/
structure Own where
  sz : BitVec 32
  tf : Frame
  /-- Files and the directory by address, `none` for null. -/
  ofile : Fin NOFILE → Option Nat
  cwd : Option Nat
  uTrapFrameBU : BitVec 32

/-- A zeroed entry of the table. -/
def Own.zero : Own := ⟨0, fun _ => 0, fun _ => none, none, 0⟩

/-- What `fork` stores in a slot that held `stale` for a child of a process with `o`. -/
def Own.fork (o stale : Own) : Own where
  sz := o.sz
  tf := Function.update o.tf .eax 0
  ofile i := if (o.ofile i).isSome then o.ofile i else stale.ofile i
  cwd := o.cwd
  uTrapFrameBU := stale.uTrapFrameBU

/-- `exit` has closed the files and put the directory. -/
def Own.exit (o : Own) : Own := { o with ofile := fun _ => none, cwd := none }

/-- The user branch of `handle_signals`. -/
def Own.handler (o : Own) (h : Handler) : Own :=
  { o with
    tf := Function.update (Function.update o.tf .esp (o.tf .esp - BitVec.ofNat 32 Task.handlerRoom)) .eip h
    uTrapFrameBU := o.tf .esp - BitVec.ofNat 32 frameSize }

/-- The process table with all its fields. -/
abbrev Table (C : Type) := Kernel C × (Slot → Own)

/-- After `userinit`, which has set up the entry of `init`. -/
def Table.init (C : Type) (o : Own) : Table C := (Kernel.init C, fun q => if q = initproc then o else .zero)

/-- A step of the kernel, or a system call or user code that changes the process's own
fields. -/
abbrev Label (C : Type) := (C × Act) ⊕ (C × Own)

namespace Table

/-- What a step of the kernel does to the own fields. The stores of `fork` to them come
before the one that publishes the child. -/
def own (t : Table C) (l : C × Act) : Slot → Own :=
  match t.1.cpu l.1 with
  | .running p => match t.1.pc p, l.2 with
    | .base .exiting, .step => Function.update t.2 p (t.2 p).exit
    | .base (.signals (.act i)), .step =>
      if sigAct ((t.1.sig p).signalHandler i) i = .user then
        Function.update t.2 p ((t.2 p).handler ((t.1.sig p).signalHandler i))
      else t.2
    | .base (.fork np .handlers), .step | .base (.fork np .handlers), .fail =>
      Function.update t.2 np ((t.2 p).fork (t.2 np))
    | _, _ => t.2
  | _ => t.2

def step [DecidableEq C] (t : Table C) : Label C → Option (Table C)
  | .inl l => (Xv6.step t.1 l).map fun s => (s, t.own l)
  | .inr (c, o) => match t.1.cpu c with
    | .running p =>
      if (t.1.pc p = .base .user ∨ t.1.pc p = .base .sys) ∧ o.uTrapFrameBU = (t.2 p).uTrapFrameBU then
        some (t.1, Function.update t.2 p o)
      else none
    | _ => none

/-- No step frees a process that a CPU runs. -/
def Clean (t : Table C) : Label C → Prop
  | .inl l => ¬ t.1.Overtaken l.1
  | .inr _ => True

end Table

/-- The ways a step changes the own fields of process `q`. -/
inductive Reown (t : Table C) (q : Slot) : Label C → Own → Prop
  | own {c : C} {o : Own} : t.1.cpu c = .running q → t.1.pc q = .base .user ∨ t.1.pc q = .base .sys →
      Reown t q (.inr (c, o)) o
  | exit {c : C} : t.1.cpu c = .running q → t.1.pc q = .base .exiting → Reown t q (.inl (c, .step)) (t.2 q).exit
  | handler {c : C} {i : Sig} {h : Handler} : t.1.cpu c = .running q → t.1.pc q = .base (.signals (.act i)) →
      Reown t q (.inl (c, .step)) ((t.2 q).handler h)
  | fork {c : C} {a : Act} {r : Slot} : t.1.cpu c = .running r → t.1.pc r = .base (.fork q .handlers) →
      a = .step ∨ a = .fail → Reown t q (.inl (c, a)) ((t.2 r).fork (t.2 q))

theorem own_cases (t : Table C) (l : C × Act) (q : Slot) : t.own l q = t.2 q ∨ Reown t q (.inl l) (t.own l q) := by
  obtain ⟨c, a⟩ := l
  generalize hm : t.own (c, a) = m
  obtain rfl | ⟨np, o, rfl, h⟩ : m = t.2 ∨ ∃ np o, m = Function.update t.2 np o ∧ Reown t np (.inl (c, a)) o := by
    unfold Table.own at hm
    split at hm
    · rename_i p hc
      split at hm
      · rename_i hk ha
        dsimp only at ha
        subst ha
        exact .inr ⟨p, _, hm.symm, .exit hc hk⟩
      · rename_i i hk ha
        dsimp only at ha
        subst ha
        split at hm
        · exact .inr ⟨p, _, hm.symm, .handler hc hk⟩
        · exact .inl hm.symm
      · exact .inr ⟨_, _, hm.symm, .fork hc ‹_› (.inl ‹_›)⟩
      · exact .inr ⟨_, _, hm.symm, .fork hc ‹_› (.inr ‹_›)⟩
      · exact .inl hm.symm
    · exact .inl hm.symm
  · exact .inl rfl
  · by_cases hq : q = np
    · subst hq; exact .inr (by simpa using h)
    · exact .inl (by simp [hq])

section

variable [DecidableEq C] {t t' : Table C} {l : Label C}

theorem table_step (hs : t.step l = some t') :
    (∃ l', l = .inl l' ∧ step t.1 l' = some t'.1) ∨ ((∃ c o, l = .inr (c, o)) ∧ t'.1 = t.1) := by
  rcases l with l | ⟨c, o⟩
  · obtain ⟨s, hs', rfl⟩ := Option.map_eq_some_iff.1 hs
    exact .inl ⟨l, rfl, hs'⟩
  · simp only [Table.step] at hs
    split at hs
    · split at hs <;> cases hs
      exact .inr ⟨⟨c, o, rfl⟩, rfl⟩
    · cases hs

theorem step_own (hs : t.step l = some t') (q : Slot) : t'.2 q = t.2 q ∨ Reown t q l (t'.2 q) := by
  rcases l with l | ⟨c, o⟩
  · obtain ⟨s, _, rfl⟩ := Option.map_eq_some_iff.1 hs
    exact own_cases t l q
  · simp only [Table.step] at hs
    split at hs
    · rename_i p hc
      split at hs <;> cases hs
      rename_i hk
      by_cases hq : q = p
      · subst hq; exact .inr (by simpa using .own hc hk.1)
      · exact .inl (by simp [hq])
    · cases hs

/-! ## Free slots have no open files -/

structure Closed (t : Table C) : Prop where
  ended : ∀ q, t.1.pc q = .exit .cas → (t.2 q).ofile = fun _ => none
  gone : ∀ q, t.1.state q ∈ [.negZombie, .zombie, .preUnused, .unused] → (t.2 q).ofile = fun _ => none
  early : ∀ p q k, (t.1.pc p).home = some (.fork q k) → k ≠ .publish → (t.2 q).ofile = fun _ => none

omit [DecidableEq C] in
theorem closed_init (o : Own) : Closed (Table.init C o) where
  ended q h := by cases h
  gone q h := by
    dsimp only [Table.init, Kernel.init, Kernel.state] at h ⊢
    split at h
    · simp at h
    · rename_i hq; rw [if_neg hq]; rfl
  early p q k h := by cases h

/-- A process comes to the `cas` of `exit` from the code that closes its files. -/
theorem exit_entered (hs : t.step (.inl (c, a)) = some t') (hq : t'.1.pc q = .exit .cas)
    (hne : t.1.pc q ≠ .exit .cas) : (t'.2 q).ofile = fun _ => none := by
  obtain ⟨s, hs', rfl⟩ := Option.map_eq_some_iff.1 hs
  dsimp only at hq ⊢
  rcases step_pc hs' q with h | ⟨_, _, _, h⟩ | ⟨hc, ⟨_, _, h⟩ | hg⟩
  · exact absurd (h.symm.trans hq) hne
  · rw [hq] at h; cases h
  · rw [hq] at h; cases h
  have hk : t.1.pc q = .base .exiting := by
    rw [hq] at hg
    generalize t.1.pc q = k at hg
    generalize hk' : Pc.exit .cas = k' at hg
    cases hg with
    | base h => cases h <;> cases hk'; rename_i hb; rw [hb]
    | wakeup1 =>
      rcases Wakeup.pc_cases _ _ _ with ⟨_, _, h⟩ | h | ⟨_, h⟩ | ⟨_, h⟩ | h <;> rw [h] at hk' <;> cases hk'
    | @exit k _ he =>
      subst hk'
      cases k <;> simp only [exitCode, exitNext, cas_same] at he <;> (repeat' split at he) <;> cases he
    | @wait k _ he =>
      subst hk'
      cases k <;> simp only [waitCode, waitNext, cas] at he <;> (repeat' split at he) <;> cases he
    | _ => cases hk'
  by_cases ha : a = .step
  · subst ha
    simp [Table.own, hc, hk, Own.exit]
  · -- an interrupt does not leave `exiting`
    rcases step_running hc hs' with ⟨_, hk', _⟩ | ⟨i, hi, rfl⟩
    · rw [hk] at hk'; cases hk'
    rw [Kernel.setPc_self] at hq
    rw [hk] at hi
    simp only [procCode, baseCode] at hi
    split at hi
    · split at hi <;> cases hi; cases hq
    · exact absurd rfl ha
    · cases a <;> simp only [kernelCode] at hi <;> (repeat' split at hi) <;> cases hi <;> (try dsimp only at hq) <;>
        cases hq

namespace Closed

/-- Files are opened by a running process, and given to a child by `fork`. -/
theorem kept (hst : Stacks t.1) (hs : t.step l = some t') (h : (t.2 q).ofile = fun _ => none)
    (hq : t.1.state q = .running → t.1.pc q ≠ .base .user ∧ t.1.pc q ≠ .base .sys)
    (hf : ∀ c a r, l = .inl (c, a) → t.1.cpu c = .running r → t.1.pc r = .base (.fork q .handlers) →
      ¬ (a = .step ∨ a = .fail)) : (t'.2 q).ofile = fun _ => none := by
  rcases step_own hs q with h' | hr
  · rw [h', h]
  generalize t'.2 q = o at hr
  cases hr with
  | @own c _ hc hk =>
    have hrun : t.1.state q = .running := by
      have := hst.running c q hc
      rcases hk with hk | hk <;> rw [hk] at this <;> exact List.mem_singleton.1 this
    exact (hk.elim (hq hrun).1 (hq hrun).2).elim
  | exit => rfl
  | handler => exact h
  | fork hc hk ha => exact absurd ha (hf _ _ _ rfl hc hk)

theorem gone_next (h : Closed t) (hst : Stacks t.1) (hsl : Slots t.1) (hs : t.step l = some t')
    (hq : t'.1.state q ∈ [.negZombie, .zombie, .preUnused, .unused]) : (t'.2 q).ofile = fun _ => none := by
  have same (hv : t.1.state q ∈ [.negZombie, .zombie, .preUnused, .unused]) : (t'.2 q).ofile = fun _ => none := by
    refine kept hst hs (h.gone q hv) (fun e => ?_) (fun _ _ r _ _ hk => ?_)
    · rw [e] at hv; simp at hv
    · rw [hst.embryo_of hk] at hv; simp at hv
  rcases table_step hs with ⟨l, rfl, hs'⟩ | ⟨_, he⟩
  · rcases step_state hs' q with hst' | hm
    · exact same (hst' ▸ hq)
    generalize hv : t.1.state q = v at hm
    generalize t'.1.state q = v' at hm hq
    cases hm with
    | toZombie | reap | free => exact same (by simp [hv])
    | exit hc hk =>
      refine kept hst hs (h.ended q hk) (fun _ => by simp [hk]) (fun _ _ r _ _ hk' => ?_)
      rw [hst.embryo_of hk'] at hv; cases hv
    | @undo r _ hc hk =>
      have he := hst.embryo_of hk
      refine kept hst hs (h.early r q .undo (by rw [hk]; rfl) (by simp)) (fun e => ?_) (fun _ _ r' _ _ hk' => ?_)
      · rw [he] at e; cases e
      · obtain rfl := hsl.owner r r' q (by rw [hk]; rfl) (by rw [hk']; rfl)
        rw [hk] at hk'; cases hk'
    | _ => simp at hq
  · exact same (he ▸ hq)

theorem ended_next (h : Closed t) (hst : Stacks t.1) (hs : t.step l = some t')
    (hq : t'.1.pc q = .exit .cas) : (t'.2 q).ofile = fun _ => none := by
  have same (hk : t.1.pc q = .exit .cas) : (t'.2 q).ofile = fun _ => none := by
    refine kept hst hs (h.ended q hk) (fun _ => by simp [hk]) (fun _ _ r _ _ hk' => ?_)
    -- a process in `exit` is on a CPU, and so not a slot that `fork` fills
    obtain ⟨d, hd⟩ := hst.runs_of_pc (p := q) (by simp [hk])
    have := hst.running d q hd
    rw [hk, hst.embryo_of hk'] at this
    simp [Pc.states, ExitPc.state] at this
  rcases table_step hs with ⟨⟨c, a⟩, rfl, _⟩ | ⟨_, he⟩
  · by_cases hk : t.1.pc q = .exit .cas
    · exact same hk
    · exact exit_entered hs hq hk
  · exact same (he ▸ hq)

theorem early_next (h : Closed t) (hst : Stacks t.1) (hs : t.step l = some t') {k : ForkPc}
    (hb : (t'.1.pc p).home = some (.fork q k)) (hk : k ≠ .publish) : (t'.2 q).ofile = fun _ => none := by
  have filling {k₀ : ForkPc} (hb₀ : (t.1.pc p).home = some (.fork q k₀)) (hk₀ : k₀ ≠ .publish)
      (hf : ∀ c a, l = .inl (c, a) → t.1.cpu c = .running p → t.1.pc p = .base (.fork q .handlers) →
        ¬ (a = .step ∨ a = .fail)) : (t'.2 q).ofile = fun _ => none := by
    have hc : (t.1.pc p).child = some q := by rw [Pc.child, hb₀]; rfl
    refine kept hst hs (h.early p q k₀ hb₀ hk₀) (fun e => ?_) (fun c a r hl hc' hk' => ?_)
    · rw [hst.embryo p q hc] at e; cases e
    · obtain rfl : r = p := hst.owner r p q (by rw [hk']; rfl) hc
      exact hf c a hl hc' hk'
  rcases table_step hs with ⟨⟨c, a⟩, rfl, hs'⟩ | ⟨⟨c, o, rfl⟩, he⟩
  · rcases Stacks.home_back hs' hb rfl with hb₀ | ⟨k₀, fails, hc, hk₀, he⟩ | ⟨_, _, _, hu, _⟩
    · refine filling hb₀ hk fun c' a' hl hc hk' ha => hk ?_
      -- the stores to the own fields end with the child about to be published
      cases hl
      rcases step_fork hc hk' hs' with ⟨_, fails, he⟩ | ⟨hn, _⟩
      · rw [he, Kernel.setPc_self] at hb
        cases hb
        rfl
      · exact absurd ha hn
    · have hne : k₀ ≠ .publish := by
        rintro rfl
        rw [he, Kernel.setPc_self] at hb
        simp only [forkCode, cas] at hb
        split at hb <;> cases hb
      refine filling (by rw [hk₀]; rfl) hne fun _ _ _ _ hk' _ => hk ?_
      rw [hk₀] at hk'
      cases hk'
      rw [he, Kernel.setPc_self] at hb
      cases hb
      rfl
    · refine kept hst hs (h.gone q (by simp [hu])) (fun e => ?_) (fun _ _ r _ _ hk => ?_)
      · rw [hu] at e; cases e
      · rw [hst.embryo_of hk] at hu; cases hu
  · exact filling (he ▸ hb) hk fun _ _ hl => by cases hl

theorem preserved (h : Closed t) (hst : Stacks t.1) (hsl : Slots t.1) (hs : t.step l = some t') : Closed t' where
  ended _ := h.ended_next hst hs
  gone _ := h.gone_next hst hsl hs
  early _ _ _ := h.early_next hst hs

end Closed

/-! ## What `fork` makes of a slot -/

end

/-- The fields of a process that later kernel code reads, its pid and state apart. -/
structure Fields where
  sig : Sigs
  chan : Chan
  own : Own

namespace Fields

/-- The fields of a child of a process with `f`, in a slot that held `stale`. -/
def child (f stale : Fields) : Fields := ⟨f.sig.fork stale.sig, stale.chan, f.own.fork stale.own⟩

/-- The fields that neither `allocproc`, `fork`, `exit` nor `wait` sets. -/
def leaked (f : Fields) : Bool × Chan × BitVec 32 × BitVec 32 :=
  (f.sig.frozen, f.chan, f.sig.signalMaskBU, f.own.uTrapFrameBU)

/-- The slot is not marked as killed and has no open file. -/
def Free (f : Fields) : Prop := f.sig.killed = false ∧ f.own.ofile = fun _ => none

/-- `f` and `g` agree on what a child takes from its slot. -/
structure Agrees (f g : Fields) : Prop where
  killed : f.sig.killed = g.sig.killed
  frozen : f.sig.frozen = g.sig.frozen
  maskBU : f.sig.signalMaskBU = g.sig.signalMaskBU
  chan : f.chan = g.chan
  own : f.own = g.own

/-- Two free slots give a parent the same child exactly when they agree on the fields
that are never set. -/
theorem child_eq_iff {f g g' : Fields} (h : g.Free) (h' : g'.Free) : f.child g = f.child g' ↔ g.leaked = g'.leaked := by
  constructor
  · intro he
    obtain ⟨hs, hc, ho⟩ := Fields.mk.inj he
    have hf : g.sig.frozen = g'.sig.frozen := (congrArg Sigs.frozen hs :)
    have hm : g.sig.signalMaskBU = g'.sig.signalMaskBU := (congrArg Sigs.signalMaskBU hs :)
    have hu : g.own.uTrapFrameBU = g'.own.uTrapFrameBU := (congrArg Own.uTrapFrameBU ho :)
    simp only [leaked, hf, hc, hm, hu]
  · intro he
    obtain ⟨hf, hc, hm, hu⟩ : g.sig.frozen = g'.sig.frozen ∧ g.chan = g'.chan ∧
        g.sig.signalMaskBU = g'.sig.signalMaskBU ∧ g.own.uTrapFrameBU = g'.own.uTrapFrameBU := by
      simpa [leaked] using he
    simp [child, Sigs.fork, Own.fork, h.1, h'.1, h.2, h'.2, hf, hc, hm, hu]

end Fields

def Table.fields (t : Table C) (q : Slot) : Fields := ⟨t.1.sig q, t.1.chan q, t.2 q⟩

section

variable [DecidableEq C] {t t' : Table C} {l : Label C} {np : Slot} {f stale : Fields}

/-- A step of `fork` in process `p`, on its way to slot `np` or in it, or a step that
changes the fields of neither. -/
def Table.ForkStep (p np : Slot) (t : Table C) (l : Label C) : Prop :=
  (∃ c a, l = .inl (c, a) ∧ t.1.cpu c = .running p ∧ ((∃ j, t.1.pc p = .allocproc j) ∨
    ∃ k, t.1.pc p = .base (.fork np k))) ∨
  ∀ t', t.step l = some t' → t'.fields p = t.fields p ∧ t'.fields np = t.fields np

/-- What `fork` has set in the slot when it comes to place `k`. -/
def ForkPc.Filled (f stale g : Fields) : ForkPc → Prop
  | .pending => g.sig.signalMask = f.sig.signalMask
  | .handlers => g.sig.signalMask = f.sig.signalMask ∧ g.sig.pendingSignals = 0
  | .publish => g = f.child stale
  | _ => True

/-- Process `p`, with fields `f`, is in `fork`, and slot `np` held `stale` when it began. -/
structure Filling (p np : Slot) (f stale : Fields) (t : Table C) : Prop where
  parent : t.fields p = f
  rest : (t.1.pc p).home ≠ some (.fork np .publish) → stale.Agrees (t.fields np)
  filled : ∀ k, (t.1.pc p).home = some (.fork np k) → stale.Free ∧ k.Filled f stale (t.fields np)

namespace Filling

/-- A step that leaves the fields alone and is none of `fork` in the slot. -/
theorem others (h : Filling p np f stale t) (hcl : Cleared t.1) (hclosed : Closed t) (hs : t.step l = some t')
    (hp : t'.fields p = t.fields p) (hnp : t'.fields np = t.fields np)
    (hn : (t.1.pc p).home ≠ some (.fork np .publish))
    (ho : ∀ c a k, l = .inl (c, a) → t.1.cpu c = .running p → t.1.pc p = .base (.fork np k) →
      ¬ (a = .step ∨ a = .fail)) : Filling p np f stale t' := by
  have hag : stale.Agrees (t'.fields np) := hnp ▸ h.rest hn
  refine ⟨hp.trans h.parent, fun _ => hag, fun k hk => ?_⟩
  have same (hk₀ : (t.1.pc p).home = some (.fork np k)) : stale.Free ∧ k.Filled f stale (t'.fields np) :=
    hnp ▸ h.filled k hk₀
  rcases table_step hs with ⟨⟨c, a⟩, rfl, hs'⟩ | ⟨_, he⟩
  · rcases Stacks.home_back hs' hk rfl with hk₀ | ⟨k₀, fails, hc, hk₀, _⟩ | ⟨_, _, hb, hu, _⟩
    · exact same hk₀
    · -- an interrupt in `fork` comes back to the same place
      rcases step_fork hc hk₀ hs' with ⟨ha, _⟩ | ⟨_, i, hi, he⟩
      · exact absurd ha (ho c a k₀ rfl hc hk₀)
      rw [he, Kernel.setPc_self] at hk
      obtain ⟨⟩ := (kernelCode_cases hi).2.home hk rfl
      exact same (by rw [hk₀]; rfl)
    · -- the slot was free
      cases hb
      have hag₀ := h.rest hn
      exact ⟨⟨hag₀.killed.trans (hcl.empty np (.inl hu)), hag₀.own ▸ hclosed.gone np (by simp [hu])⟩, trivial⟩
  · exact same (he ▸ hk)

/-- A step of `fork` in the slot. -/
theorem fork (h : Filling p np f stale t) (hst : Stacks t.1) {k : ForkPc} (hc : t.1.cpu c = .running p)
    (hk : t.1.pc p = .base (.fork np k)) (hne : k ≠ .publish) (ha : a = .step ∨ a = .fail)
    (hs : t.step (.inl (c, a)) = some t') : Filling p np f stale t' := by
  have hnp : p ≠ np := by
    rintro rfl
    have := hst.running c p hc
    rw [hk, hst.embryo_of hk] at this
    simp [Pc.states] at this
  obtain ⟨hfree, hfill⟩ := h.filled k (by rw [hk]; rfl)
  have hag := h.rest (by rw [hk]; simpa [Pc.home] using hne)
  obtain ⟨s', hs', rfl⟩ := Option.map_eq_some_iff.1 hs
  rcases step_fork hc hk hs' with ⟨_, fails, rfl⟩ | ⟨hn, _⟩
  swap
  · exact absurd ha hn
  have hown : t.own (c, a) = if k = .handlers then Function.update t.2 np ((t.2 p).fork (t.2 np)) else t.2 := by
    cases k <;> rcases ha with rfl | rfl <;> simp [Table.own, hc, hk]
  have hchan (q : Slot) : (t.1.store (forkCode t.1 p np fails k).1).chan q = t.1.chan q := by
    cases k with
    | casPid v => by_cases hv : t.1.nextpid = v <;> simp [forkCode, hv, Kernel.store_chan]
    | publish => exact absurd rfl hne
    | _ => simp [forkCode, Kernel.store_chan]
  have hsig (q : Slot) (hq : q ≠ np) : (t.1.store (forkCode t.1 p np fails k).1).sig q = t.1.sig q := by
    cases k with
    | casPid v => by_cases hv : t.1.nextpid = v <;> simp [forkCode, hv, Kernel.store_sig]
    | publish => exact absurd rfl hne
    | _ => simp [forkCode, Kernel.store_sig, hq]
  have hkeep : ((t.1.store (forkCode t.1 p np fails k).1).sig np).killed = (t.1.sig np).killed ∧
      ((t.1.store (forkCode t.1 p np fails k).1).sig np).frozen = (t.1.sig np).frozen ∧
      ((t.1.store (forkCode t.1 p np fails k).1).sig np).signalMaskBU = (t.1.sig np).signalMaskBU := by
    cases k with
    | casPid v => by_cases hv : t.1.nextpid = v <;> simp [forkCode, hv, Kernel.store_sig]
    | publish => exact absurd rfl hne
    | _ => simp [forkCode, Kernel.store_sig]
  obtain ⟨hkilled, hfrozen, hmask, hch, ho⟩ := hag
  refine ⟨?_, fun hn => ?_, fun k' hk' => ⟨hfree, ?_⟩⟩
  · rw [← h.parent]
    simp only [Table.fields, Kernel.setPc_sig, Kernel.setPc_chan, hchan, hsig p hnp, hown]
    split <;> simp [hnp]
  · rw [Kernel.setPc_self] at hn
    have hh : k ≠ .handlers := by rintro rfl; exact hn rfl
    rw [if_neg hh] at hown
    exact ⟨hkilled.trans hkeep.1.symm, hfrozen.trans hkeep.2.1.symm, hmask.trans hkeep.2.2.symm,
      hch.trans (hchan np).symm, ho.trans (congrFun hown np).symm⟩
  · rw [Kernel.setPc_self] at hk'
    cases k with
    | mask => cases hk'; simp [ForkPc.Filled, forkCode, Table.fields, Kernel.store_sig, ← h.parent]
    | pending =>
      cases hk'
      simpa [ForkPc.Filled, forkCode, Table.fields, Kernel.store_sig] using hfill
    | handlers =>
      cases hk'
      obtain ⟨hm, hp⟩ := hfill
      have hs : (t.1.store (forkCode t.1 p np fails .handlers).1).sig np = f.sig.fork stale.sig := by
        rw [← h.parent] at hm ⊢
        simp only [Table.fields] at hkilled hfrozen hmask hm hp ⊢
        simp [forkCode, Kernel.store_sig, Sigs.fork, hkilled, hfrozen, hmask, hm, hp]
      have hc' : (t.1.store (forkCode t.1 p np fails .handlers).1).chan np = stale.chan := (hchan np).trans hch.symm
      have ho' : t.own (c, a) np = f.own.fork stale.own := by
        rw [hown, ← h.parent, ho]
        simp [Table.fields]
      exact congrArg₂ (fun g x => Fields.mk g x _) hs hc' |>.trans (congrArg (Fields.mk _ _) ho')
    | casPid v => simp only [forkCode] at hk'; split at hk' <;> cases hk' <;> trivial
    | kalloc | copyuvm => cases fails <;> cases hk' <;> trivial
    | publish => exact absurd rfl hne
    | undo => cases hk'
    | _ => cases hk'; trivial

/-- Interrupts, and the search for a slot, leave the fields alone. -/
theorem unchanged (hc : t.1.cpu c = .running p) (hs : t.step (.inl (c, a)) = some t')
    (hk : (∃ j, t.1.pc p = .allocproc j) ∨ ∃ k, t.1.pc p = .base (.fork np k) ∧ ¬ (a = .step ∨ a = .fail)) (q : Slot) :
    t'.fields q = t.fields q := by
  obtain ⟨s', hs', rfl⟩ := Option.map_eq_some_iff.1 hs
  have hown : t.own (c, a) = t.2 := by
    rcases hk with ⟨j, hk⟩ | ⟨k, hk, ha⟩
    · simp [Table.own, hc, hk]
    · obtain ⟨h₁, h₂⟩ := not_or.1 ha
      cases a <;> first | exact absurd rfl h₁ | exact absurd rfl h₂ | simp [Table.own, hc, hk]
  have hsc : s'.sig q = t.1.sig q ∧ s'.chan q = t.1.chan q := by
    rcases hk with ⟨j, hk⟩ | ⟨k, hk, ha⟩
    · rw [step_at hc hk rfl hs']
      simp only [allocCode, cas]
      split <;> exact ⟨by simp [Kernel.store_sig], by simp [Kernel.store_chan]⟩
    · rcases step_fork hc hk hs' with ⟨ha', _⟩ | ⟨_, i, hi, rfl⟩
      · exact absurd ha' ha
      have hq := (kernelCode_cases hi).1
      generalize i.1 = st at hq
      cases st <;> first | exact hq.elim | exact ⟨by simp [Kernel.store_sig], by simp [Kernel.store_chan]⟩
  simp only [Table.fields, hsc.1, hsc.2, hown]

theorem next (h : Filling p np f stale t) (hst : Stacks t.1) (hcl : Cleared t.1) (hclosed : Closed t)
    (hs : t.step l = some t') (hf : t.ForkStep p np l) (hn : (t.1.pc p).home ≠ some (.fork np .publish)) :
    Filling p np f stale t' := by
  by_cases ho : ∃ c a k, l = .inl (c, a) ∧ t.1.cpu c = .running p ∧ t.1.pc p = .base (.fork np k) ∧
      (a = .step ∨ a = .fail)
  · obtain ⟨c, a, k, rfl, hc, hk, ha⟩ := ho
    exact h.fork hst hc hk (by rintro rfl; exact hn (by rw [hk]; rfl)) ha hs
  · have hrest : ∀ c a k, l = .inl (c, a) → t.1.cpu c = .running p → t.1.pc p = .base (.fork np k) →
        ¬ (a = .step ∨ a = .fail) := fun c a k hl hc hk ha => ho ⟨c, a, k, hl, hc, hk, ha⟩
    obtain ⟨hp, hnp⟩ : t'.fields p = t.fields p ∧ t'.fields np = t.fields np := by
      rcases hf with ⟨c, a, rfl, hc, hk⟩ | hf
      · have := unchanged hc hs (hk.imp_right fun ⟨k, hk⟩ => ⟨k, hk, hrest c a k rfl hc hk⟩)
        exact ⟨this p, this np⟩
      · exact hf t' hs
    exact h.others hcl hclosed hs hp hnp hn hrest

end Filling

/-- After some history in which no CPU frees a process that is on a stack, process `p`
calls `fork` in `t` and is about to publish its child in slot `np` in `t'`. Other steps
in between leave the fields of both alone. -/
structure Forked (t t' : Table C) (p np : Slot) : Prop where
  history : ∃ o, Run Table.step Table.Clean (Table.init C o) t
  enters : t.1.pc p = .allocproc 0
  run : Run Table.step (fun t l => t.Clean l ∧ t.ForkStep p np l ∧ (t.1.pc p).home ≠ some (.fork np .publish)) t t'
  done : t'.1.pc p = .base (.fork np .publish)

/-- What is known of the table in every state reached. -/
structure Table.Sound (t : Table C) : Prop where
  oneStack : Stacks t.1
  slots : Slots t.1
  cleared : Cleared t.1
  closed : Closed t

theorem Table.Sound.preserved (h : t.Sound) (hg : t.Clean l) (hs : t.step l = some t') : t'.Sound := by
  refine ⟨?_, ?_, ?_, h.closed.preserved h.oneStack h.slots hs⟩ <;>
    rcases table_step hs with ⟨⟨c, a⟩, rfl, hs'⟩ | ⟨_, he⟩
  · exact h.oneStack.preserved hg hs'
  · exact he ▸ h.oneStack
  · exact h.slots.preserved hs'
  · exact he ▸ h.slots
  · exact h.cleared.preserved h.oneStack h.slots hs'
  · exact he ▸ h.cleared

/-- The child's fields come from its parent, but for those that its slot held before. -/
theorem Forked.child (h : Forked t t' p np) : (t.fields np).Free ∧ t'.fields np = (t.fields p).child (t.fields np) := by
  obtain ⟨o, hist⟩ := h.history
  have hsound : t.Sound := by
    refine hist.inv Table.Sound (fun _ _ _ hi hg hs => hi.preserved hg hs) ⟨stacks_init, slots_init, cleared_init, ?_⟩
    exact closed_init o
  have hstart : Filling p np (t.fields p) (t.fields np) t :=
    ⟨rfl, fun _ => ⟨rfl, rfl, rfl, rfl, rfl⟩, fun k hk => by rw [h.enters] at hk; cases hk⟩
  have hfill := (h.run.inv (fun u : Table C => u.Sound ∧ Filling p np (t.fields p) (t.fields np) u)
    (fun u l u' ⟨hs, hf⟩ ⟨hg, hstep, hn⟩ hu =>
      ⟨hs.preserved hg hu, hf.next hs.oneStack hs.cleared hs.closed hu hstep hn⟩) ⟨hsound, hstart⟩).2
  exact hfill.filled .publish (by rw [h.done]; rfl)

/-- Two processes with the same fields, after any two histories, get children with the
same fields exactly when the two slots held the same `frozen`, `chan`, `signalMaskBU`
and `uTrapFrameBU`. -/
theorem child_same_iff {t₁ t₁' t₂ t₂' : Table C} {p₁ n₁ p₂ n₂ : Slot} (h₁ : Forked t₁ t₁' p₁ n₁)
    (h₂ : Forked t₂ t₂' p₂ n₂) (hp : t₁.fields p₁ = t₂.fields p₂) :
    t₁'.fields n₁ = t₂'.fields n₂ ↔ (t₁.fields n₁).leaked = (t₂.fields n₂).leaked := by
  rw [h₁.child.2, h₂.child.2, hp]
  exact Fields.child_eq_iff h₁.child.1 h₂.child.1

end

/-- The child of `init` makes the steps `ls` and exits; `init` waits for it and calls
`fork` again. -/
def reused (ls : List (Fin 2 × Act)) : List (Label (Fin 2)) :=
  let run : List (Fin 2 × Act) :=
    forked ++ ls ++ [(1, .exit)] ++ cpuSteps 1 136 ++ [(0, .wait)] ++ cpuSteps 0 11 ++ [(0, .fork)]
  run.map .inl

/-- The child blocks signal 2, catches signal 3, and sends it to itself. -/
def catching : List (Fin 2 × Act) :=
  [(1, .sigprocmask 4), (1, .sigaction 3 100 0), (1, .kill 3 3)] ++ cpuSteps 1 24 ++ [(1, .syscall), (1, .step)]

/-- A check that two entries of the table hold the same. -/
def Fields.same (f g : Fields) : Bool :=
  f.sig.pendingSignals = g.sig.pendingSignals && f.sig.signalMask = g.sig.signalMask &&
  f.sig.signalMaskBU = g.sig.signalMaskBU && (∀ i, f.sig.signalHandler i = g.sig.signalHandler i) &&
  (∀ i, f.sig.signalHandlerMasks i = g.sig.signalHandlerMasks i) && f.sig.killed = g.sig.killed &&
  f.sig.frozen = g.sig.frozen && f.chan = g.chan && f.own.sz = g.own.sz &&
  (∀ i : Fin 19, f.own.tf (.ofIndex i) = g.own.tf (.ofIndex i)) && (∀ i, f.own.ofile i = g.own.ofile i) &&
  f.own.cwd = g.own.cwd && f.own.uTrapFrameBU = g.own.uTrapFrameBU

theorem Fields.same_spec {f g : Fields} (h : f.same g) : f = g := by
  obtain ⟨⟨_, _, _, _, _, _, _⟩, _, ⟨_, tf, _, _, _⟩⟩ := f
  obtain ⟨⟨_, _, _, _, _, _, _⟩, _, ⟨_, tf', _, _, _⟩⟩ := g
  simp only [Fields.same, Bool.and_eq_true, decide_eq_true_eq] at h
  obtain ⟨⟨⟨⟨⟨⟨⟨⟨⟨⟨⟨⟨rfl, rfl⟩, rfl⟩, hh⟩, hm⟩, rfl⟩, rfl⟩, rfl⟩, rfl⟩, ht⟩, ho⟩, rfl⟩, rfl⟩ := h
  obtain rfl := funext hh
  obtain rfl := funext hm
  obtain rfl := funext ho
  obtain rfl : tf = tf' := by
    funext r
    have := ht ⟨r.index, by cases r <;> decide⟩
    cases r <;> exact this
  rfl

/-- The second child of `init` starts with the saved mask of the first one, if that one has
caught a signal. -/
theorem reused_leaks :
    ¬ ∀ (o : Own) (ls₁ ls₂ : List (Label (Fin 2))) (t₁ t₁' t₂ t₂' : Table (Fin 2)) (c : Fin 2) (m : Nat) (p n : Slot),
      exec Table.step (Table.init (Fin 2) o) ls₁ = some t₁ → exec Table.step (Table.init (Fin 2) o) ls₂ = some t₂ →
      t₁.1.pc p = .allocproc 0 → t₂.1.pc p = .allocproc 0 → t₁.fields p = t₂.fields p →
      exec Table.step t₁ ((cpuSteps c m).map .inl) = some t₁' → exec Table.step t₂ ((cpuSteps c m).map .inl) = some t₂' →
      t₁'.1.pc p = .base (.fork n .publish) → t₂'.1.pc p = .base (.fork n .publish) →
      t₁'.fields n = t₂'.fields n := by
  intro h
  have hrun : ((exec Table.step (Table.init (Fin 2) .zero) (reused [])).bind fun t₁ =>
      (exec Table.step (Table.init (Fin 2) .zero) (reused catching)).bind fun t₂ =>
      (exec Table.step t₁ ((cpuSteps 0 15).map .inl)).bind fun t₁' =>
      (exec Table.step t₂ ((cpuSteps 0 15).map .inl)).map fun t₂' =>
      decide (t₁.1.pc 0 = .allocproc 0 ∧ t₂.1.pc 0 = .allocproc 0 ∧ (t₁.fields 0).same (t₂.fields 0) ∧
        t₁'.1.pc 0 = .base (.fork 1 .publish) ∧ t₂'.1.pc 0 = .base (.fork 1 .publish) ∧
        (t₁'.fields 1).sig.signalMaskBU = 0 ∧ (t₂'.fields 1).sig.signalMaskBU = 4)) = some true := by
    decide +kernel
  obtain ⟨t₁, h₁, hrun⟩ := Option.bind_eq_some_iff.1 hrun
  obtain ⟨t₂, h₂, hrun⟩ := Option.bind_eq_some_iff.1 hrun
  obtain ⟨t₁', h₁', hrun⟩ := Option.bind_eq_some_iff.1 hrun
  obtain ⟨t₂', h₂', hrun⟩ := Option.map_eq_some_iff.1 hrun
  obtain ⟨hk₁, hk₂, hsame, hd₁, hd₂, hm₁, hm₂⟩ := of_decide_eq_true hrun
  have he := h .zero _ _ t₁ t₁' t₂ t₂' 0 15 0 1 h₁ h₂ hk₁ hk₂ (Fields.same_spec hsame) h₁' h₂' hd₁ hd₂
  rw [he, hm₂] at hm₁
  cases hm₁

/-- `init` calls `fork`. -/
def calling : List (Fin 1 × Act) := cpuSteps 0 9 ++ [(0, .syscall), (0, .step), (0, .fork)]

/-- The call fails when `copyuvm` finds no memory, and `init` makes another. -/
def callingAgain : List (Fin 1 × Act) :=
  calling ++ cpuSteps 0 10 ++ [(0, .fail)] ++ cpuSteps 0 5 ++ [(0, .syscall), (0, .step), (0, .fork)]

/-- On one CPU, a check that the step is one of a process's `fork` before it publishes slot 1. -/
def Table.forking (t : Table (Fin 1)) (l : Label (Fin 1)) : Bool :=
  match l with
  | .inl l => t.1.harmless l && t.1.cpu l.1 = .running 0 &&
    match t.1.pc 0 with
    | .allocproc _ => true
    | .base (.fork np k) => np = 1 && k ≠ .publish
    | _ => false
  | .inr _ => false

theorem Table.forking_spec {t : Table (Fin 1)} {l : Label (Fin 1)} (h : t.forking l) :
    t.Clean l ∧ t.ForkStep 0 1 l ∧ (t.1.pc 0).home ≠ some (.fork 1 .publish) := by
  rcases l with l | l
  · simp only [Table.forking, Bool.and_eq_true, decide_eq_true_eq] at h
    obtain ⟨⟨hh, hc⟩, hk⟩ := h
    refine ⟨(Kernel.harmless_spec hh).1, .inl ⟨l.1, l.2, rfl, hc, ?_⟩, ?_⟩
    · split at hk
      · exact .inl ⟨_, ‹_›⟩
      · rename_i hp
        simp only [Bool.and_eq_true, decide_eq_true_eq] at hk
        exact .inr ⟨_, by rw [hp, hk.1]⟩
      · cases hk
    · split at hk <;> rename_i hp
      · simp [hp, Pc.home]
      · simp only [Bool.and_eq_true, decide_eq_true_eq] at hk
        simp [hp, Pc.home, hk.2]
      · cases hk
  · cases h

/-- A first call of `fork`, and one after a call that failed: the children are the same. -/
theorem calling_same_child :
    ∃ t₁ t₁' t₂ t₂' : Table (Fin 1), exec Table.step (Table.init (Fin 1) .zero) (calling.map .inl) = some t₁ ∧
      exec Table.step (Table.init (Fin 1) .zero) (callingAgain.map .inl) = some t₂ ∧
      Forked t₁ t₁' 0 1 ∧ Forked t₂ t₂' 0 1 ∧ t₁.fields 0 = t₂.fields 0 ∧ t₁'.fields 1 = t₂'.fields 1 := by
  let clean : Table (Fin 1) → Label (Fin 1) → Bool := fun t l => l.elim t.1.harmless fun _ => false
  have hclean (t : Table (Fin 1)) (l : Label (Fin 1)) (h : clean t l) : t.Clean l := by
    rcases l with l | l
    · exact (Kernel.harmless_spec h).1
    · cases h
  have hrun : ((exec (checked Table.step clean) (Table.init (Fin 1) .zero) (calling.map .inl)).bind fun t₁ =>
      (exec (checked Table.step clean) (Table.init (Fin 1) .zero) (callingAgain.map .inl)).bind fun t₂ =>
      (exec (checked Table.step Table.forking) t₁ ((cpuSteps 0 15).map .inl)).bind fun t₁' =>
      (exec (checked Table.step Table.forking) t₂ ((cpuSteps 0 15).map .inl)).map fun t₂' =>
      decide (t₁.1.pc 0 = .allocproc 0 ∧ t₂.1.pc 0 = .allocproc 0 ∧ (t₁.fields 0).same (t₂.fields 0) ∧
        t₁'.1.pc 0 = .base (.fork 1 .publish) ∧ t₂'.1.pc 0 = .base (.fork 1 .publish) ∧
        (t₁.fields 1).leaked = (t₂.fields 1).leaked)) = some true := by decide +kernel
  obtain ⟨t₁, h₁, hrun⟩ := Option.bind_eq_some_iff.1 hrun
  obtain ⟨t₂, h₂, hrun⟩ := Option.bind_eq_some_iff.1 hrun
  obtain ⟨t₁', h₁', hrun⟩ := Option.bind_eq_some_iff.1 hrun
  obtain ⟨t₂', h₂', hrun⟩ := Option.map_eq_some_iff.1 hrun
  obtain ⟨hk₁, hk₂, hsame, hd₁, hd₂, hleak⟩ := of_decide_eq_true hrun
  have f₁ : Forked t₁ t₁' 0 1 :=
    ⟨⟨.zero, run_of_checked hclean h₁⟩, hk₁, run_of_checked (fun _ _ h => Table.forking_spec h) h₁', hd₁⟩
  have f₂ : Forked t₂ t₂' 0 1 :=
    ⟨⟨.zero, run_of_checked hclean h₂⟩, hk₂, run_of_checked (fun _ _ h => Table.forking_spec h) h₂', hd₂⟩
  have hp := Fields.same_spec hsame
  exact ⟨t₁, t₁', t₂, t₂', exec_of_checked h₁, exec_of_checked h₂, f₁, f₂, hp, (child_same_iff f₁ f₂ hp).2 hleak⟩

end Xv6
