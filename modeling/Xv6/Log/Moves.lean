import Xv6.Lib.Runs
import Xv6.Lib.Sums
import Xv6.Log.Code
/-!
# What one step of the log does

`step_move` lists the steps; every invariant of the log is proved from it.
`Log.Sound` is what all of them rest on: `log.outstanding` counts the processes
between `begin_op` and `end_op`, and while one process commits no other process
is inside an operation.
-/

namespace Xv6

open Runs

variable {P D : Type} [DecidableEq P] {s s' : Log P D} {p q : P} {a : LogAct D}

namespace Log

@[simp] theorem goto_lh (s : Log P D) (p : P) (k : LogPc) : (s.goto p k).lh = s.lh := rfl
@[simp] theorem goto_outstanding (s : Log P D) (p : P) (k : LogPc) :
    (s.goto p k).outstanding = s.outstanding := rfl
@[simp] theorem goto_committing (s : Log P D) (p : P) (k : LogPc) :
    (s.goto p k).committing = s.committing := rfl
@[simp] theorem goto_cached (s : Log P D) (p : P) (k : LogPc) : (s.goto p k).cached = s.cached := rfl

/-- The steps of a process. -/
inductive Move (s : Log P D) (p : P) : LogAct D → Log P D → Prop
  | enter : s.pc p = .idle → s.committing = false →
      s.lh.length + (s.outstanding + 1) * MAXOPBLOCKS ≤ LOGSIZE →
      Move s p .beginOp ({ s with outstanding := s.outstanding + 1 }.goto p .op)
  | write (b : Nat) (v : D) : s.pc p = .op → Move s p (.write b v) ((s.modify b v).goto p (.check b))
  | nested : s.pc p = .op → s.committing = true →
      Move s p .endOp ({ s with outstanding := s.outstanding - 1 }.goto p (.panic .committing))
  | leave : s.pc p = .op → s.committing = false → s.outstanding ≠ 1 →
      Move s p .endOp ({ s with outstanding := s.outstanding - 1 }.goto p .idle)
  | last : s.pc p = .op → s.committing = false → s.outstanding = 1 → s.lh ≠ [] →
      Move s p .endOp ({ s with outstanding := 0, committing := true }.goto p (.writeLog 0))
  | lastEmpty : s.pc p = .op → s.committing = false → s.outstanding = 1 → s.lh = [] →
      Move s p .endOp ({ s with outstanding := 0, committing := true }.goto p .finish)
  | tooBig {b : Nat} : s.pc p = .check b → nlog - 1 ≤ s.lh.length →
      Move s p .next (s.goto p (.panic .tooBig))
  | fits {b : Nat} : s.pc p = .check b → s.lh.length < nlog - 1 → Move s p .next (s.goto p (.inTrans b))
  | outside {b : Nat} : s.pc p = .inTrans b → s.outstanding < 1 →
      Move s p .next (s.goto p (.panic .outside))
  | inside {b : Nat} : s.pc p = .inTrans b → 1 ≤ s.outstanding → Move s p .next (s.goto p (.append b))
  | append {b : Nat} : s.pc p = .append b → b ∉ s.lh →
      Move s p .next ({ s with lh := s.lh ++ [b] }.goto p .op)
  | absorb {b : Nat} : s.pc p = .append b → b ∈ s.lh → Move s p .next (s.goto p .op)
  | log {tail b : Nat} : s.pc p = .writeLog tail → s.lh[tail]? = some b →
      Move s p .next ((s.bwrite (logBlock tail) (s.cached b)).goto p (.writeLog (tail + 1)))
  | logged {tail : Nat} : s.pc p = .writeLog tail → s.lh.length ≤ tail → Move s p .next (s.goto p .writeHead)
  | commit : s.pc p = .writeHead → Move s p .next (s.writeHead.goto p (.install 0))
  | install {tail b : Nat} : s.pc p = .install tail → s.lh[tail]? = some b →
      Move s p .next ((s.bwrite b (s.cached (logBlock tail))).goto p (.install (tail + 1)))
  | installed {tail : Nat} : s.pc p = .install tail → s.lh.length ≤ tail →
      Move s p .next ({ s with lh := [] }.goto p .erase)
  | erase : s.pc p = .erase → Move s p .next (s.writeHead.goto p .finish)
  | finish : s.pc p = .finish → Move s p .next ({ s with committing := false }.goto p .idle)

theorem endOp_move (h : s.pc p = .op) : Move s p .endOp (s.endOp p) := by
  simp only [endOp]
  split_ifs with hc ho hl
  · exact .nested h hc
  all_goals have hc : s.committing = false := by simpa using hc
  · rw [ho]; exact .last h hc (by omega) (List.ne_nil_of_length_pos hl)
  · rw [ho]; exact .lastEmpty h hc (by omega) (List.length_eq_zero_iff.1 (by omega))
  · exact .leave h hc (by omega)

theorem next_move (h : s.next p = some s') : Move s p .next s' := by
  unfold next at h
  split at h <;> rename_i hpc
  case h_1 b =>
    cases h
    split_ifs with hn
    · exact .tooBig hpc (by simp only [nlog] at hn ⊢; omega)
    · exact .fits hpc (by omega)
  case h_2 b =>
    cases h
    split_ifs with ho
    · exact .outside hpc ho
    · exact .inside hpc (by omega)
  case h_3 b =>
    cases h
    split_ifs with hb
    · exact .absorb hpc hb
    · exact .append hpc hb
  case h_4 tail =>
    split at h <;> rename_i hb <;> cases h
    · exact .log hpc hb
    · exact .logged hpc (List.getElem?_eq_none_iff.1 hb)
  case h_5 => cases h; exact .commit hpc
  case h_6 tail =>
    split at h <;> rename_i hb <;> cases h
    · exact .install hpc hb
    · exact .installed hpc (List.getElem?_eq_none_iff.1 hb)
  case h_7 => cases h; exact .erase hpc
  case h_8 => cases h; exact .finish hpc
  all_goals cases h

theorem step_move (h : s.step (p, a) = some s') : Move s p a s' := by
  unfold step at h
  split at h <;> rename_i hpc ha
  · dsimp only at hpc ha h
    subst ha
    unfold beginOp at h
    split_ifs at h with hc hn
    cases h
    exact .enter hpc (by simpa using hc) (by omega)
  · dsimp only at ha; subst ha; cases h; exact .write _ _ hpc
  · dsimp only at ha; subst ha; cases h; exact endOp_move hpc
  · dsimp only at ha; subst ha; exact next_move h
  · cases h

end Log

/-! ## Who is inside an operation -/

/-- What the process adds to `log.outstanding`. -/
def LogPc.share : LogPc → Nat
  | .op | .check _ | .inTrans _ | .append _ | .panic .tooBig | .panic .outside => 1
  | _ => 0

/-- The block of the `log_write` call the process is in. -/
def LogPc.block : LogPc → Option Nat
  | .check b | .inTrans b | .append b => some b
  | _ => none

/-- The process is in `commit`, or in `end_op` with `log.committing` set. -/
def LogPc.commits : LogPc → Bool
  | .writeLog _ | .writeHead | .install _ | .erase | .finish => true
  | _ => false

namespace Log

variable [Fintype P]

structure Sound (s : Log P D) : Prop where
  count : s.outstanding = ∑ q, (s.pc q).share
  quiet : s.committing = true → s.outstanding = 0
  sets : ∀ q, (s.pc q).commits → s.committing = true
  held : s.committing = true → ∃ q, (s.pc q).commits
  one : ∀ q r, (s.pc q).commits → (s.pc r).commits → q = r
  emptied : ∀ q, s.pc q = .erase ∨ s.pc q = .finish → s.lh = []
  fresh : s.committing = false → s.outstanding = 0 → s.lh = []

theorem shares_goto (s : Log P D) (p : P) (k : LogPc) :
    ∑ q, ((s.goto p k).pc q).share + (s.pc p).share = ∑ q, (s.pc q).share + k.share := by
  have h := Sums.sum_move (f := fun q => (s.pc q).share) (g := fun q => ((s.goto p k).pc q).share) p
    (fun q hq => by simp [goto, hq])
  simpa [goto] using h

omit [DecidableEq P] in
theorem Sound.inside (h : Sound s) (hp : (s.pc p).share = 1) : 1 ≤ s.outstanding := by
  have hle := Finset.single_le_sum_of_canonicallyOrdered (f := fun q => (s.pc q).share) (Finset.mem_univ p)
  have hc := h.count
  omega

omit [DecidableEq P] in
theorem Sound.open (h : Sound s) (hp : (s.pc p).share = 1) : s.committing = false := by
  cases hc : s.committing with
  | false => rfl
  | true =>
    have h1 := h.inside hp
    have h0 := h.quiet hc
    omega

omit [DecidableEq P] in
/-- While `log.committing` is clear, no process commits. -/
theorem Sound.none_commits (h : Sound s) (hc : s.committing = false) (q : P) : ¬ (s.pc q).commits := by
  intro hq
  rw [h.sets q hq] at hc
  cases hc

omit [DecidableEq P] in
theorem Sound.no_other (h : Sound s) (hp : (s.pc p).commits) (q : P) (hq : q ≠ p) : ¬ (s.pc q).commits :=
  fun hc => hq (h.one q p hc hp)

/-- The last process inside is the only one. -/
theorem Sound.lone (h : Sound s) (h1 : s.outstanding = 1) (hp : (s.pc p).share = 1) (hq : q ≠ p) :
    (s.pc q).share = 0 := by
  have hout := shares_goto s p .idle
  have hc := h.count
  have hle := Finset.single_le_sum_of_canonicallyOrdered (f := fun q => ((s.goto p .idle).pc q).share)
    (Finset.mem_univ q)
  have hq' : (s.goto p .idle).pc q = s.pc q := by simp [goto, hq]
  simp only [hq'] at hle
  rw [hp, show LogPc.idle.share = 0 from rfl] at hout
  omega

/-- What a step has to see to, when no other process commits. -/
theorem Sound.advance (h : Sound s) (hother : ∀ q, q ≠ p → ¬ (s.pc q).commits) {t : Log P D} {k : LogPc}
    (hpc : t.pc = s.pc) (ho : t.outstanding + (s.pc p).share = s.outstanding + k.share)
    (hq : t.committing = true → t.outstanding = 0) (hs : k.commits = t.committing)
    (he : k = .erase ∨ k = .finish → t.lh = [])
    (hf : t.committing = false → t.outstanding = 0 → t.lh = []) : Sound (t.goto p k) := by
  have hpc' : ∀ q, (t.goto p k).pc q = if q = p then k else s.pc q := by
    intro q; simp [goto, Function.update_apply, hpc]
  have hown : ∀ q, ((t.goto p k).pc q).commits → q = p ∧ k.commits := by
    intro q hq
    rw [hpc'] at hq
    split at hq
    · exact ⟨‹_›, hq⟩
    · exact absurd hq (hother q ‹_›)
  constructor
  · have hc := shares_goto t p k
    rw [hpc] at hc
    have := h.count
    simp only [goto_outstanding]
    omega
  · exact hq
  · intro q hq; exact hs ▸ (hown q hq).2
  · intro ht; exact ⟨p, by rw [hpc', if_pos rfl, hs]; exact ht⟩
  · intro q r hq hr; rw [(hown q hq).1, (hown r hr).1]
  · intro q hq
    rw [hpc'] at hq
    split at hq
    · exact he hq
    · exact absurd (by rcases hq with hq | hq <;> rw [hq] <;> rfl) (hother q ‹_›)
  · exact hf

omit [DecidableEq P] in
theorem sound_init (d : Disk D) : Sound (init d : Log P D) where
  count := by simp [init, LogPc.share]
  quiet := by simp [init]
  sets _ := by simp [init, LogPc.commits]
  held := by simp [init]
  one _ _ := by simp [init, LogPc.commits]
  emptied _ := by simp [init]
  fresh _ _ := rfl

/-- A step inside an operation that leaves the counters alone. -/
theorem Sound.inOp (h : Sound s) (hp : (s.pc p).share = 1) {t : Log P D} {k : LogPc} (hpc : t.pc = s.pc)
    (ho : t.outstanding = s.outstanding) (hc : t.committing = s.committing) (hk : k.share = 1)
    (hk' : k.commits = false) : Sound (t.goto p k) := by
  have hopen := h.open hp
  have hin := h.inside hp
  apply h.advance (fun q _ => h.none_commits hopen q) hpc
  · omega
  · intro ht; rw [hc, hopen] at ht; cases ht
  · rw [hk', hc, hopen]
  · rintro (rfl | rfl) <;> cases hk'
  · intro _ h0; omega

/-- A step of `commit` that leaves the counters alone. -/
theorem Sound.inCommit (h : Sound s) (hp : (s.pc p).commits) {t : Log P D} {k : LogPc} (hpc : t.pc = s.pc)
    (ho : t.outstanding = s.outstanding) (hc : t.committing = s.committing) (hp' : (s.pc p).share = 0)
    (hk : k.share = 0) (hk' : k.commits = true) (he : k = .erase ∨ k = .finish → t.lh = []) :
    Sound (t.goto p k) := by
  have hset := h.sets p hp
  apply h.advance (h.no_other hp) hpc
  · omega
  · intro _; rw [ho]; exact h.quiet hset
  · rw [hk', hc, hset]
  · exact he
  · intro ht; rw [hc, hset] at ht; cases ht

theorem step_sound (h : Sound s) (hs : s.step (p, a) = some s') : Sound s' := by
  have hm := step_move hs
  -- the steps inside an operation, then those of the committing process
  cases hm with
  | enter hp hc hn =>
    refine h.advance (fun q _ => h.none_commits hc q) rfl ?_ ?_ ?_ ?_ ?_
    · simp [hp, LogPc.share]
    · intro ht; rw [hc] at ht; cases ht
    · exact hc.symm
    · rintro (hk | hk) <;> cases hk
    · intro _ h0
      have := h.count
      dsimp only at h0
      omega
  | write b v hp => exact h.inOp (by rw [hp]; rfl) rfl rfl rfl rfl rfl
  | nested hp hc => rw [h.open (p := p) (by rw [hp]; rfl)] at hc; cases hc
  | leave hp hc ho =>
    refine h.advance (fun q _ => h.none_commits hc q) rfl ?_ ?_ ?_ ?_ ?_
    · simp [hp, LogPc.share]
    · intro ht; rw [hc] at ht; cases ht
    · exact hc.symm
    · rintro (hk | hk) <;> cases hk
    · intro _ h0; dsimp only at h0; omega
  | last hp hc ho hl =>
    refine h.advance (fun q _ => h.none_commits hc q) rfl ?_ ?_ ?_ ?_ ?_
    · simp [hp, ho, LogPc.share]
    · intro _; rfl
    · rfl
    · rintro (hk | hk) <;> cases hk
    · intro ht; cases ht
  | lastEmpty hp hc ho hl =>
    refine h.advance (fun q _ => h.none_commits hc q) rfl ?_ ?_ ?_ ?_ ?_
    · simp [hp, ho, LogPc.share]
    · intro _; rfl
    · rfl
    · intro _; exact hl
    · intro ht; cases ht
  | tooBig hp | fits hp | outside hp | inside hp | append hp | absorb hp =>
    exact h.inOp (by rw [hp]; rfl) rfl rfl rfl rfl rfl
  | log hp | logged hp | commit hp | install hp =>
    exact h.inCommit (by rw [hp]; rfl) rfl rfl rfl (by rw [hp]; rfl) rfl rfl (by rintro (hk | hk) <;> cases hk)
  | installed hp => exact h.inCommit (by rw [hp]; rfl) rfl rfl rfl (by rw [hp]; rfl) rfl rfl fun _ => rfl
  | erase hp =>
    exact h.inCommit (by rw [hp]; rfl) rfl rfl rfl (by rw [hp]; rfl) rfl rfl fun _ => h.emptied p (.inl hp)
  | finish hp =>
    have hcp : (s.pc p).commits := by rw [hp]; rfl
    refine h.advance (h.no_other hcp) rfl ?_ ?_ ?_ ?_ ?_
    · simp [hp, LogPc.share]
    · intro ht; cases ht
    · rfl
    · rintro (hk | hk) <;> cases hk
    · intro _ _; exact h.emptied p (.inr hp)

/-- In every run, while a process is in `commit` no other one goes on: `begin_op` waits, and
nobody is inside an operation. -/
theorem commit_alone {d : Disk D} (h : Run step (fun _ _ => True) (init d) s) (hp : (s.pc p).commits) (hq : q ≠ p)
    (a : LogAct D) : s.step (q, a) = none := by
  have hs : Sound s := h.inv Sound (fun _ _ _ hi _ hs => step_sound hi hs) (sound_init d)
  have hset := hs.sets p hp
  by_contra hne
  obtain ⟨s', hstep⟩ := Option.ne_none_iff_exists'.1 hne
  cases step_move hstep with
  | enter _ hc => rw [hset] at hc; cases hc
  | write _ _ hk | nested hk | leave hk | last hk | lastEmpty hk | tooBig hk | fits hk | outside hk | inside hk
  | append hk | absorb hk =>
    rw [hs.open (p := q) (by rw [hk]; rfl)] at hset
    cases hset
  | log hk | logged hk | commit hk | install hk | installed hk | erase hk | finish hk =>
    exact hq (hs.one q p (by rw [hk]; rfl) hp)

theorem begin_waits : ∃ s : Log (Fin 2) Unit, s.pc 0 = .writeLog 0 ∧ s.step (1, .beginOp) = none := by
  have h : (exec (checked step fun _ _ => true) (init ⟨[], fun _ => ()⟩) ((0, .beginOp) :: (0, .write 40 ()) ::
      List.replicate 3 (0, .next) ++ [(0, .endOp)])).map (fun s : Log (Fin 2) Unit => s.pc 0) = some (.writeLog 0) := by
    decide
  obtain ⟨s, hs, hk⟩ := Option.map_eq_some_iff.1 h
  exact ⟨s, hk, commit_alone (p := 0) (run_of_checked (fun _ _ _ => trivial) hs) (by rw [hk]; rfl) (by decide) _⟩

end Log

end Xv6
