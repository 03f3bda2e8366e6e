import Mathlib.Algebra.Order.BigOperators.Ring.Finset
import Xv6.Log.Moves
/-!
# Whether the log has room for what `begin_op` admits

`begin_op` lets an operation in while `MAXOPBLOCKS` blocks for each operation
fit into `LOGSIZE`. The log that `mkfs` makes holds one block less, since its
header is one of the `LOGSIZE` blocks, and `log_write` refuses to run once that
many blocks are logged, even for a block that is logged already. So three
operations of `MAXOPBLOCKS` blocks each are let in and do not fit. With one
block less for each operation they always do: the blocks logged, and those the
operations inside may still add, stay below what `log_write` accepts.
-/

namespace Xv6

open Runs

variable {P D : Type} [DecidableEq P]

/-- The log, and for each process the distinct blocks that its present operation has
logged so far. -/
structure Tally (P D : Type) where
  log : Log P D
  used : P → Finset Nat

namespace Tally

def note (t : Tally P D) (l : P × LogAct D) : P → Finset Nat :=
  match l.2, t.log.pc l.1 with
  | .beginOp, _ => Function.update t.used l.1 ∅
  | .next, .append b => Function.update t.used l.1 (insert b (t.used l.1))
  | _, _ => t.used

def step (t : Tally P D) (l : P × LogAct D) : Option (Tally P D) :=
  (t.log.step l).map fun s => ⟨s, t.note l⟩

def init (d : Disk D) : Tally P D := ⟨.init d, fun _ => ∅⟩

/-- No operation calls `log_write` for more than `n` distinct blocks. -/
def atMost (n : Nat) (t : Tally P D) (l : P × LogAct D) : Bool :=
  match l.2 with
  | .write b _ => (insert b (t.used l.1)).card ≤ n
  | _ => true

end Tally

/-! ## The blocks logged and the blocks still to come -/

namespace Tally

variable [Fintype P] {t t' : Tally P D} {n : Nat} {l : P × LogAct D} {p q : P}

/-- How many blocks the process may still add to the log. -/
def slack (n : Nat) (t : Tally P D) (q : P) : Nat :=
  if (t.log.pc q).share = 1 then n - (t.used q).card else 0

structure Room (n : Nat) (t : Tally P D) : Prop where
  sound : t.log.Sound
  runs : ∀ q m, t.log.pc q ≠ .panic m
  few : ∀ q, (t.log.pc q).share = 1 → (t.used q).card ≤ n
  call : ∀ q b, (t.log.pc q).block = some b → (insert b (t.used q)).card ≤ n
  listed : ∀ q, (t.log.pc q).share = 1 → ∀ b ∈ t.used q, b ∈ t.log.lh
  room : t.log.lh.length + ∑ q, slack n t q ≤ nlog - 2

omit [DecidableEq P] [Fintype P] in
theorem slack_in (h : (t.log.pc q).share = 1) : slack n t q = n - (t.used q).card := if_pos h

omit [DecidableEq P] [Fintype P] in
theorem slack_out (h : (t.log.pc q).share = 0) : slack n t q = 0 := if_neg (by omega)

omit [DecidableEq P] in
theorem slack_le (n : Nat) (t : Tally P D) : ∑ q, slack n t q ≤ n * ∑ q, (t.log.pc q).share := by
  rw [Finset.mul_sum]
  apply Finset.sum_le_sum
  intro q _
  unfold slack
  split
  · rename_i h; rw [h]; omega
  · omega

/-- What a step of `p` has to see to. -/
theorem Room.advance (h : Room n t) (hsound : t'.log.Sound) (hpc : ∀ q, q ≠ p → t'.log.pc q = t.log.pc q)
    (hused : ∀ q, q ≠ p → t'.used q = t.used q)
    (hkeep : ∀ q, (t.log.pc q).share = 1 → ∀ b ∈ t.log.lh, b ∈ t'.log.lh)
    (hruns : ∀ m, t'.log.pc p ≠ .panic m) (hfew : (t'.log.pc p).share = 1 → (t'.used p).card ≤ n)
    (hcall : ∀ b, (t'.log.pc p).block = some b → (insert b (t'.used p)).card ≤ n)
    (hlisted : (t'.log.pc p).share = 1 → ∀ b ∈ t'.used p, b ∈ t'.log.lh)
    (hroom : t'.log.lh.length + slack n t' p + ∑ q, slack n t q ≤ nlog - 2 + slack n t p) : Room n t' where
  sound := hsound
  runs q := by
    by_cases hq : q = p
    · subst hq; exact hruns
    · rw [hpc q hq]; exact h.runs q
  few q := by
    by_cases hq : q = p
    · subst hq; exact hfew
    · rw [hpc q hq, hused q hq]; exact h.few q
  call q := by
    by_cases hq : q = p
    · subst hq; exact hcall
    · rw [hpc q hq, hused q hq]; exact h.call q
  listed q := by
    by_cases hq : q = p
    · subst hq; exact hlisted
    · rw [hpc q hq, hused q hq]
      intro hs b hb
      exact hkeep q hs b (h.listed q hs b hb)
  room := by
    have hmove := Sums.sum_move (f := slack n t) (g := slack n t') p (fun q hq => by
      unfold slack; rw [hpc q hq, hused q hq])
    omega

/-- A step that leaves the log, and what the process has logged, as they are. -/
theorem Room.stay (h : Room n t) {s : Log P D} {k : LogPc} (hsound : (s.goto p k).Sound)
    (hpc : s.pc = t.log.pc) (hlh : s.lh = t.log.lh) (hruns : ∀ m, k ≠ .panic m)
    (hshare : k.share = 1 → (t.log.pc p).share = 1)
    (hcall : ∀ b, k.block = some b → (insert b (t.used p)).card ≤ n) : Room n ⟨s.goto p k, t.used⟩ := by
  have hp : (s.goto p k).pc p = k := by simp [Log.goto]
  refine h.advance (p := p) hsound ?_ (fun _ _ => rfl) ?_ ?_ ?_ ?_ ?_ ?_ <;> dsimp only
  · intro q hq; simp [Log.goto, hq, hpc]
  · intro q _ b hb; exact hlh ▸ hb
  · rw [hp]; exact hruns
  · rw [hp]; intro hk; exact h.few p (hshare hk)
  · rw [hp]; exact hcall
  · rw [hp]; intro hk b hb
    exact hlh ▸ h.listed p (hshare hk) b hb
  · have := h.room
    have hle : slack n ⟨s.goto p k, t.used⟩ p ≤ slack n t p := by
      unfold slack
      dsimp only
      rw [hp]
      split_ifs with hk hk'
      · exact Nat.le_refl _
      · exact absurd (hshare hk) hk'
      · omega
      · exact Nat.le_refl _
    simp only [Log.goto_lh, hlh]
    omega

omit [DecidableEq P] in
/-- `begin_op` lets an operation in only while its blocks, and all that the operations
inside may still add, fit. -/
theorem Room.enter (h : Room (MAXOPBLOCKS - 1) t) (hc : t.log.committing = false)
    (hn : t.log.lh.length + (t.log.outstanding + 1) * MAXOPBLOCKS ≤ LOGSIZE) :
    t.log.lh.length + (MAXOPBLOCKS - 1) + ∑ q, slack (MAXOPBLOCKS - 1) t q ≤ nlog - 2 := by
  have hle := slack_le (MAXOPBLOCKS - 1) t
  have hcount := h.sound.count
  by_cases h0 : t.log.outstanding = 0
  · -- the first operation finds the log empty
    have hlh : t.log.lh.length = 0 := by rw [h.sound.fresh hc h0]; rfl
    simp only [MAXOPBLOCKS, LOGSIZE, nlog] at hn hle ⊢
    omega
  · -- with another one inside, the two reservations leave two blocks unused
    simp only [MAXOPBLOCKS, LOGSIZE, nlog] at hn hle ⊢
    omega

theorem Room.append (h : Room n t) {b : Nat} (hp : t.log.pc p = .append b) {lh : List Nat}
    (hlh : lh = if b ∈ t.log.lh then t.log.lh else t.log.lh ++ [b])
    (hsound : ({ t.log with lh := lh }.goto p .op).Sound) :
    Room n ⟨{ t.log with lh := lh }.goto p .op, Function.update t.used p (insert b (t.used p))⟩ := by
  have hshare : (t.log.pc p).share = 1 := by rw [hp]; rfl
  have hkeep : ∀ c, c ∈ t.log.lh ∨ c = b → c ∈ lh := by
    intro c hc
    rw [hlh]
    split
    · rcases hc with hc | rfl <;> assumption
    · simpa using hc
  have hcard := h.call p b (by rw [hp]; rfl)
  refine h.advance (p := p) hsound ?_ ?_ ?_ ?_ ?_ ?_ ?_ ?_ <;> dsimp only
  · intro q hq; simp [Log.goto, hq]
  · intro q hq; simp [hq]
  · intro q _ c hc; exact hkeep c (.inl hc)
  · intro m; simp [Log.goto]
  · intro _; simpa using hcard
  · intro c hc; simp [Log.goto, LogPc.block] at hc
  · intro _ c hc
    rw [Function.update_self, Finset.mem_insert] at hc
    exact hkeep c (hc.symm.imp_left (h.listed p hshare c))
  · have hroom := h.room
    rw [slack_in (by simp [Log.goto, LogPc.share]), slack_in (t := t) hshare]
    simp only [Log.goto_lh, Function.update_self]
    -- a block that is new to the log is new to the operation too
    by_cases hb : b ∈ t.log.lh
    · have := Finset.card_le_card (Finset.subset_insert b (t.used p))
      rw [if_pos hb] at hlh
      rw [hlh]
      omega
    · have hnew : b ∉ t.used p := fun hu => hb (h.listed p hshare b hu)
      rw [Finset.card_insert_of_notMem hnew] at hcard ⊢
      rw [if_neg hb] at hlh
      rw [hlh, List.length_append, List.length_singleton]
      omega

omit [DecidableEq P] in
theorem room_init (d : Disk D) : Room n (init d : Tally P D) where
  sound := Log.sound_init d
  runs _ _ := by simp [init, Log.init]
  few _ := by simp [init]
  call _ _ h := by cases h
  listed _ h := by cases h
  room := by simp [init, Log.init, slack, LogPc.share]

theorem step_room (h : Room (MAXOPBLOCKS - 1) t) (hg : t.atMost (MAXOPBLOCKS - 1) l)
    (ht : t.step l = some t') : Room (MAXOPBLOCKS - 1) t' := by
  obtain ⟨p, a⟩ := l
  obtain ⟨s, hs, rfl⟩ := Option.map_eq_some_iff.1 ht
  have hsound := Log.step_sound h.sound hs
  have hlen : t.log.lh.length ≤ nlog - 2 := (Nat.le_add_right _ _).trans h.room
  cases Log.step_move hs with
  | enter hp hc hn =>
    have hroom := h.enter hc hn
    refine h.advance (p := p) hsound ?_ ?_ ?_ ?_ ?_ ?_ ?_ ?_ <;> dsimp only [note]
    · intro q hq; simp [Log.goto, hq]
    · intro q hq; simp [hq]
    · intro q _ b hb; exact hb
    · intro m; simp [Log.goto]
    · simp
    · intro b hb; simp [Log.goto, LogPc.block] at hb
    · simp
    · rw [slack_in (by simp [Log.goto, LogPc.share]), slack_out (t := t) (by rw [hp]; rfl)]
      simp only [Log.goto_lh, Function.update_self, Finset.card_empty]
      omega
  | write b v hp =>
    refine h.stay hsound rfl rfl (by simp) (fun _ => by rw [hp]; rfl) ?_
    intro c hc
    cases hc
    simpa [atMost] using hg
  | nested hp hc => rw [h.sound.open (p := p) (by rw [hp]; rfl)] at hc; cases hc
  | tooBig hp hn => simp only [nlog, LOGSIZE, MAXOPBLOCKS] at hn hlen; omega
  | outside hp ho =>
    have := h.sound.inside (p := p) (by rw [hp]; rfl)
    omega
  | fits hp | inside hp =>
    simp only [note, hp]
    refine h.stay hsound rfl rfl (by simp) (fun _ => by rw [hp]; rfl) ?_
    intro c hc
    cases hc
    exact h.call p _ (by rw [hp]; rfl)
  | append hp hb => simp only [note, hp]; exact h.append hp (if_neg hb).symm hsound
  | absorb hp hb => simp only [note, hp]; exact h.append hp (if_pos hb).symm hsound
  | installed hp hn =>
    have hcommits : (t.log.pc p).commits := by rw [hp]; rfl
    have hroom := h.room
    simp only [note, hp]
    refine h.advance (p := p) hsound ?_ (fun _ _ => rfl) ?_ ?_ ?_ ?_ ?_ ?_ <;> dsimp only
    · intro q hq; simp [Log.goto, hq]
    · intro q hq; exact absurd hcommits (h.sound.none_commits (h.sound.open hq) p)
    · intro m; simp [Log.goto]
    · intro hk; simp [Log.goto, LogPc.share] at hk
    · intro b hb; simp [Log.goto, LogPc.block] at hb
    · intro hk; simp [Log.goto, LogPc.share] at hk
    · rw [slack_out (by simp [Log.goto, LogPc.share]), slack_out (t := t) (by rw [hp]; rfl)]
      simp only [Log.goto_lh, List.length_nil]
      omega
  | leave hp | last hp | lastEmpty hp | log hp | logged hp | commit hp | install hp | erase hp | finish hp =>
    simp only [note, hp]
    exact h.stay hsound rfl rfl (by simp) (fun hk => by cases hk) (fun b hb => by cases hb)

end Tally

/-! ## The panics -/

/-- If every operation keeps to one block less than `begin_op` reserves for it, then no
process reaches a panic of `log_write` or `end_op`, and the blocks logged fit into the
on-disk log. -/
theorem log_fits [Fintype P] {d : Disk D} {t : Tally P D}
    (h : Run Tally.step (fun t l => t.atMost (MAXOPBLOCKS - 1) l) (Tally.init d) t) :
    (∀ p m, t.log.pc p ≠ .panic m) ∧ t.log.lh.length ≤ nlog - 1 := by
  have hroom := h.inv (Tally.Room (MAXOPBLOCKS - 1)) (fun _ _ _ hi hg hs => Tally.step_room hi hg hs)
    (Tally.room_init d)
  refine ⟨hroom.runs, ?_⟩
  have := hroom.room
  omega

/-- Updates of one process, each with its `log_write` run to its end. -/
def logging (val : Nat → D) (p : P) (bs : List Nat) : List (P × LogAct D) :=
  bs.flatMap fun b => [(p, .write b (val b)), (p, .next), (p, .next), (p, .next)]

/-- An operation of `MAXOPBLOCKS - 1` blocks, up to its last `log_write`. -/
theorem nine_fit : ∃ t : Tally (Fin 3) Unit, t.log.lh.length = 9 ∧
    (∀ p m, t.log.pc p ≠ .panic m) ∧ t.log.lh.length ≤ nlog - 1 := by
  have h : ((exec (checked Tally.step (Tally.atMost (MAXOPBLOCKS - 1)))
      (Tally.init (P := Fin 3) ⟨[], fun _ => ()⟩) ((0, .beginOp) :: logging (fun _ => ()) 0 (List.range' 32 9))).map
        fun t => t.log.lh.length) = some 9 := by decide +kernel
  obtain ⟨t, ht, hlen⟩ := Option.map_eq_some_iff.1 h
  exact ⟨t, hlen, log_fits (run_of_checked (fun _ _ h => h) ht)⟩

/-- Three operations with blocks of their own, all of them inside: two of them have one of
their `MAXOPBLOCKS` blocks left to log. -/
def crowd (val : Nat → D) : List (Fin 3 × LogAct D) :=
  [(0, .beginOp), (1, .beginOp), (2, .beginOp)] ++ logging val 0 (List.range' 32 10) ++
    logging val 1 (List.range' 42 9) ++ logging val 2 (List.range' 52 9)

/-- The last block of the third operation finds the log full. -/
def crowdPanics (val : Nat → D) : List (Fin 3 × LogAct D) :=
  crowd val ++ logging val 1 [51] ++ [(2, .write 61 (val 61)), (2, .next)]

/-- Both last blocks pass the unlocked test before either is added. -/
def crowdOverflows (val : Nat → D) : List (Fin 3 × LogAct D) :=
  crowd val ++ [(1, .write 51 (val 51)), (2, .write 61 (val 61)), (1, .next), (2, .next), (1, .next), (2, .next),
    (1, .next), (2, .next)]

/-- Operations that keep to `MAXOPBLOCKS` blocks panic in `log_write`, or log more blocks
than the on-disk log has. -/
theorem full_operations_do_not_fit :
    (∃ t : Tally (Fin 3) Unit, Run Tally.step (fun t l => t.atMost MAXOPBLOCKS l)
        (Tally.init ⟨[], fun _ => ()⟩) t ∧ t.log.pc 2 = .panic .tooBig) ∧
    ∃ t : Tally (Fin 3) Unit, Run Tally.step (fun t l => t.atMost MAXOPBLOCKS l)
        (Tally.init ⟨[], fun _ => ()⟩) t ∧ nlog - 1 < t.log.lh.length := by
  constructor
  · have h : ((exec (checked Tally.step (Tally.atMost MAXOPBLOCKS)) (Tally.init ⟨[], fun _ => ()⟩)
        (crowdPanics fun _ => ())).map fun t => t.log.pc 2) = some (.panic .tooBig) := by decide +kernel
    obtain ⟨t, ht, hpc⟩ := Option.map_eq_some_iff.1 h
    exact ⟨t, run_of_checked (fun _ _ h => h) ht, hpc⟩
  · have h : ((exec (checked Tally.step (Tally.atMost MAXOPBLOCKS)) (Tally.init ⟨[], fun _ => ()⟩)
        (crowdOverflows fun _ => ())).map fun t => t.log.lh.length) = some 30 := by decide +kernel
    obtain ⟨t, ht, hlen⟩ := Option.map_eq_some_iff.1 h
    exact ⟨t, run_of_checked (fun _ _ h => h) ht, by rw [hlen]; decide⟩

end Xv6
