import Xv6.Lib.Sums
import Xv6.Bio.Code
/-!
# What one step of the buffer cache does

`step_move` lists the steps. `Bcache.Counted` says who has a part in a buffer:
`refcnt` counts the users between `bget` and the end of `brelse`, the sleep-lock
is held by the one user that is past `acquiresleep`, and the buffer of a user
stays the buffer of the block it asked for.
-/

namespace Xv6

variable {U D : Type} [DecidableEq U]

/-- The user holds the buffer, and `bread` has returned. -/
def BioPc.Holds (c : BioPc) (b : Buf) (k : BlockId) : Prop := c = .hold b k ∨ c = .changed b k

namespace Bcache

variable {s s' : Bcache U D} {u v : U} {a : BioAct U D} {b : Buf} {k : BlockId}

/-- The steps of a user. -/
inductive Move (s : Bcache U D) (u : U) : BioAct U D → Bcache U D → Prop
  | hit {b : Buf} {k : BlockId} : s.pc u = .idle → s.cachedAt k = some b →
      Move s u (.bread k) ({ s with refcnt := Function.update s.refcnt b (s.refcnt b + 1) }.goto u (.asleep b k))
  | recycle {b : Buf} {k : BlockId} : s.pc u = .idle → s.cachedAt k = none → s.unused = some b →
      Move s u (.bread k) ((s.recycle b k).goto u (.asleep b k))
  | full {k : BlockId} : s.pc u = .idle → Move s u (.bread k) (s.goto u .panic)
  | store {a : BioAct U D} {b : Buf} {k : BlockId} (x : D) : (s.pc u).Holds b k →
      (a = .modify x ∨ ∃ w, a = .copy w ∧ s.source w = some x) → Move s u a (s.store u b k x)
  | logWrite {b : Buf} {k : BlockId} : (s.pc u).Holds b k → Move s u .logWrite (s.logWrite u b k)
  | bwrite {b : Buf} {k : BlockId} : (s.pc u).Holds b k → Move s u .bwrite (s.bwrite u b k)
  | brelse {b : Buf} {k : BlockId} : s.pc u = .hold b k → Move s u .brelse (s.brelse u b)
  | lock {b : Buf} {k : BlockId} : s.pc u = .asleep b k → s.lock b = none →
      Move s u .next ({ s with lock := Function.update s.lock b (some u) }.goto u (.locked b k))
  | found {b : Buf} {k : BlockId} : s.pc u = .locked b k → s.valid b = true →
      Move s u .next (s.goto u (.hold b k))
  | read {b : Buf} {k : BlockId} : s.pc u = .locked b k → s.valid b = false →
      Move s u .next (s.transfer u b (.hold b k))
  | write {b : Buf} {k : BlockId} : s.pc u = .writing b k → Move s u .next (s.transfer u b (.hold b k))
  | release {b : Buf} : s.pc u = .drop b → Move s u .next ((s.release b).goto u .idle)

theorem bget_move (h : s.pc u = .idle) : Move s u (.bread k) (s.bget u k) := by
  unfold bget
  split
  · exact .hit h ‹_›
  · split
    · exact .recycle h ‹_› ‹_›
    · exact .full h

theorem next_move (h : s.next u = some s') : Move s u .next s' := by
  unfold next at h
  split at h <;> rename_i hpc
  case h_1 b k =>
    split_ifs at h with hl
    cases h
    exact .lock hpc hl
  case h_2 b k =>
    cases h
    split_ifs with hv
    · exact .found hpc hv
    · exact .read hpc (by simpa using hv)
  case h_3 b k => cases h; exact .write hpc
  case h_4 b => cases h; exact .release hpc
  case h_5 => cases h

theorem step_move (h : s.step (u, a) = some s') : Move s u a s' := by
  unfold step at h
  split at h
  case h_12 => cases h
  all_goals rename_i hpc ha
  all_goals dsimp only at hpc ha; subst ha
  · cases h; exact bget_move hpc
  · cases h; exact .store _ (.inl hpc) (.inl rfl)
  · cases h; exact .store _ (.inr hpc) (.inl rfl)
  · obtain ⟨x, hx, rfl⟩ := Option.map_eq_some_iff.1 h; exact .store x (.inl hpc) (.inr ⟨_, rfl, hx⟩)
  · obtain ⟨x, hx, rfl⟩ := Option.map_eq_some_iff.1 h; exact .store x (.inr hpc) (.inr ⟨_, rfl, hx⟩)
  · cases h; exact .logWrite (.inl hpc)
  · cases h; exact .logWrite (.inr hpc)
  · cases h; exact .bwrite (.inl hpc)
  · cases h; exact .bwrite (.inr hpc)
  · cases h; exact .brelse hpc
  · exact next_move h

end Bcache

/-! ## Who has a part in a buffer -/

namespace BioPc

/-- The buffer that the user has a reference to. -/
def ref : BioPc → Option Buf
  | .asleep b _ | .locked b _ | .hold b _ | .changed b _ | .writing b _ | .drop b => some b
  | .idle | .panic => none

/-- The buffer whose sleep-lock the user holds. -/
def locks : BioPc → Option Buf
  | .locked b _ | .hold b _ | .changed b _ | .writing b _ => some b
  | _ => none

/-- The buffer that the user has for a block. -/
def For : BioPc → Buf → BlockId → Prop
  | .asleep b k, c, j | .locked b k, c, j | .hold b k, c, j | .changed b k, c, j | .writing b k, c, j =>
    b = c ∧ k = j
  | _, _, _ => False

/-- The buffer whose bytes the user has. -/
def has : BioPc → Option Buf
  | .hold b _ | .changed b _ | .writing b _ => some b
  | _ => none

/-- The user's share of the buffer's `refcnt`. -/
def share (c : BioPc) (b : Buf) : Nat := if c.ref = some b then 1 else 0

theorem share_ref {c : BioPc} {b : Buf} (h : c.ref = some b) (d : Buf) : c.share d = if d = b then 1 else 0 := by
  rw [share, h]
  by_cases hd : d = b
  · rw [if_pos (congrArg some hd.symm), if_pos hd]
  · rw [if_neg fun heq => hd (Option.some.inj heq).symm, if_neg hd]

theorem Holds.ref {c : BioPc} {b : Buf} {k : BlockId} (h : c.Holds b k) : c.ref = some b := by
  rcases h with rfl | rfl <;> rfl

theorem Holds.locks {c : BioPc} {b : Buf} {k : BlockId} (h : c.Holds b k) : c.locks = some b := by
  rcases h with rfl | rfl <;> rfl

theorem Holds.for {c : BioPc} {b : Buf} {k : BlockId} (h : c.Holds b k) : c.For b k := by
  rcases h with rfl | rfl <;> exact ⟨rfl, rfl⟩

theorem Holds.has {c : BioPc} {b : Buf} {k : BlockId} (h : c.Holds b k) : c.has = some b := by
  rcases h with rfl | rfl <;> rfl

theorem ref_of_has {c : BioPc} {b : Buf} (h : c.has = some b) : c.ref = some b := by
  cases c <;> simp_all [has, BioPc.ref]

theorem For.ref {c : BioPc} {b : Buf} {k : BlockId} (h : c.For b k) : c.ref = some b := by
  cases c <;> simp_all [For, BioPc.ref]

end BioPc

namespace Bcache

variable [Fintype U] {s s' : Bcache U D} {u : U} {c : BioPc} {b : Buf} {k : BlockId}

structure Counted (s : Bcache U D) : Prop where
  refs : ∀ b, s.refcnt b = ∑ u, (s.pc u).share b
  lock : ∀ b u, s.lock b = some u ↔ (s.pc u).locks = some b
  keys : ∀ u b k, (s.pc u).For b k → s.key b = k
  writing : ∀ u b k, s.pc u = .writing b k → s.dirty b = true

theorem shares_goto (s : Bcache U D) (u : U) (c : BioPc) (b : Buf) :
    ∑ v, ((s.goto u c).pc v).share b + (s.pc u).share b = ∑ v, (s.pc v).share b + c.share b := by
  have h := Sums.sum_move (f := fun v => (s.pc v).share b) (g := fun v => ((s.goto u c).pc v).share b) u
    (fun v hv => by simp [goto, hv])
  simpa [goto] using h

omit [DecidableEq U] in
theorem Counted.ref_pos (h : Counted s) (hu : (s.pc u).ref = some b) : s.refcnt b ≠ 0 := by
  have hle := Finset.single_le_sum_of_canonicallyOrdered (f := fun v => (s.pc v).share b) (Finset.mem_univ u)
  have hs : (s.pc u).share b = 1 := if_pos hu
  rw [h.refs b]
  omega

omit [DecidableEq U] in
theorem Counted.ref_ne (h : Counted s) (hb : s.refcnt b = 0) (u : U) : (s.pc u).ref ≠ some b :=
  fun hu => h.ref_pos hu hb

omit [DecidableEq U] in
/-- One user at a time is past `acquiresleep`. -/
theorem Counted.lock_one (h : Counted s) {v : U} (hu : (s.pc u).locks = some b) (hv : (s.pc v).locks = some b) :
    v = u := by
  have := (h.lock b u).2 hu
  rw [(h.lock b v).2 hv] at this
  exact Option.some.inj this

omit [DecidableEq U] [Fintype U] in
theorem cachedAt_key (h : s.cachedAt k = some b) : s.key b = k := by
  simpa using Links.walk_some h

omit [DecidableEq U] [Fintype U] in
theorem unused_spec (h : s.unused = some b) : s.refcnt b = 0 ∧ s.dirty b = false := by
  simpa using Links.walk_some h

omit [DecidableEq U] [Fintype U] in
/-- The user takes a reference to `b`. -/
theorem takes_ref (hu : s.pc u = .idle) (hc : c.ref = some b) (d : Buf) :
    Function.update s.refcnt b (s.refcnt b + 1) d + (s.pc u).share d = s.refcnt d + c.share d := by
  have hidle : BioPc.idle.share d = 0 := rfl
  rw [hu, hidle, BioPc.share_ref hc, Function.update_apply]
  split
  · rw [‹d = b›]
  · rfl

/-- The sleep-lock of a buffer that the user locks as before. -/
theorem Counted.lock_iff (h : Counted s) (hl : c.locks = some b ↔ (s.pc u).locks = some b) (v : U) :
    s.lock b = some v ↔ if v = u then c.locks = some b else s.lock b = some v := by
  split
  · subst ‹v = u›
    rw [h.lock b v, hl]
  · rfl

omit [DecidableEq U] in
/-- A buffer that is being written stays dirty when a buffer is made dirty. -/
theorem Counted.writing_dirty (h : Counted s) {v : U} {d : Buf} (hw : s.pc v = .writing d k) (b : Buf) :
    Function.update s.dirty b true d = true := by
  rw [Function.update_apply]
  split
  · rfl
  · exact h.writing v d k hw

/-- What a step of `u` has to see to, buffer by buffer. -/
theorem Counted.advance (h : Counted s) {t : Bcache U D} (hpc : t.pc = s.pc)
    (hrefs : ∀ b, t.refcnt b + (s.pc u).share b = s.refcnt b + c.share b)
    (hlock : ∀ b v, t.lock b = some v ↔ if v = u then c.locks = some b else s.lock b = some v)
    (hkey : ∀ v b k, v ≠ u → (s.pc v).For b k → t.key b = s.key b) (hown : ∀ b k, c.For b k → t.key b = k)
    (hwriting : ∀ v b k, v ≠ u → s.pc v = .writing b k → t.dirty b = true)
    (hown' : ∀ b k, c = .writing b k → t.dirty b = true) : Counted (t.goto u c) where
  refs b := by
    have hsum := shares_goto t u c b
    have href := h.refs b
    have hb := hrefs b
    rw [hpc] at hsum
    show t.refcnt b = _
    omega
  lock b v := by
    show t.lock b = some v ↔ _
    rw [hlock b v]
    by_cases hv : v = u
    · subst hv; simp [goto]
    · simpa [goto, hv, hpc] using h.lock b v
  keys v b k hf := by
    show t.key b = k
    by_cases hv : v = u
    · subst hv; exact hown b k (by simpa [goto] using hf)
    · have hf' : (s.pc v).For b k := by simpa [goto, hv, hpc] using hf
      rw [hkey v b k hv hf', h.keys v b k hf']
  writing v b k hw := by
    show t.dirty b = true
    by_cases hv : v = u
    · subst hv; exact hown' b k (by simpa [goto] using hw)
    · exact hwriting v b k hv (by simpa [goto, hv, hpc] using hw)

/-- A step that keeps the user's reference, lock and block. -/
theorem Counted.stay (h : Counted s) {t : Bcache U D} (hpc : t.pc = s.pc) (hrefs : t.refcnt = s.refcnt)
    (hlock : t.lock = s.lock) (hkey : t.key = s.key) (hr : c.ref = (s.pc u).ref)
    (hl : c.locks = (s.pc u).locks) (hf : ∀ b k, c.For b k → (s.pc u).For b k)
    (hwriting : ∀ v b k, v ≠ u → s.pc v = .writing b k → t.dirty b = true)
    (hown : ∀ b k, c = .writing b k → t.dirty b = true) : Counted (t.goto u c) := by
  refine h.advance hpc ?_ ?_ ?_ ?_ hwriting hown
  · intro b
    unfold BioPc.share
    rw [hrefs, hr]
  · intro b v
    rw [hlock]
    exact h.lock_iff (by rw [hl]) v
  · intro v b k _ _; rw [hkey]
  · intro b k hc; rw [hkey]; exact h.keys u b k (hf b k hc)

omit [Fintype U] in
theorem transfer_eq (hl : s.lock b = some u) (hv : s.valid b = false ∨ s.dirty b = true) :
    s.transfer u b c = (s.iderw b).goto u c := by
  unfold transfer
  rw [if_neg]
  rintro (h | ⟨h1, h2⟩)
  · exact h hl
  · rcases hv with hv | hv
    · rw [hv] at h1; cases h1
    · rw [hv] at h2; cases h2

omit [DecidableEq U] [Fintype U] in
/-- What a transfer leaves alone. -/
theorem iderw_same (s : Bcache U D) (b : Buf) : (s.iderw b).pc = s.pc ∧ (s.iderw b).refcnt = s.refcnt ∧
    (s.iderw b).lock = s.lock ∧ (s.iderw b).key = s.key ∧ (s.iderw b).links = s.links := by
  unfold iderw
  split <;> exact ⟨rfl, rfl, rfl, rfl, rfl⟩

omit [DecidableEq U] [Fintype U] in
theorem iderw_dirty (s : Bcache U D) (b : Buf) : (s.iderw b).dirty = Function.update s.dirty b false := by
  unfold iderw
  split <;> rfl

theorem Counted.iderw (h : Counted s) (hu : (s.pc u).For b k) (hl : (s.pc u).locks = some b) :
    Counted ((s.iderw b).goto u (.hold b k)) := by
  obtain ⟨h1, h2, h3, h4, -⟩ := s.iderw_same b
  refine h.stay h1 h2 h3 h4 hu.ref.symm hl.symm ?_ ?_ (fun b k hc => by cases hc)
  · rintro c j ⟨rfl, rfl⟩; exact hu
  · intro v c j hv hw
    have hc : c ≠ b := by
      rintro rfl
      exact hv (h.lock_one hl (by rw [hw]; rfl))
    rw [iderw_dirty, Function.update_of_ne hc]
    exact h.writing v c j hw

omit [DecidableEq U] [Fintype U] in
/-- What `brelse` under `bcache.lock` leaves alone. -/
theorem release_same (s : Bcache U D) (b : Buf) : (s.release b).pc = s.pc ∧ (s.release b).lock = s.lock ∧
    (s.release b).key = s.key ∧ (s.release b).dirty = s.dirty ∧ (s.release b).valid = s.valid ∧
    (s.release b).data = s.data ∧ (s.release b).disk = s.disk ∧
    (s.release b).refcnt = Function.update s.refcnt b (s.refcnt b - 1) := by
  dsimp only [release]
  split <;> exact ⟨rfl, rfl, rfl, rfl, rfl, rfl, rfl, rfl⟩

theorem Counted.release (h : Counted s) (hu : s.pc u = .drop b) : Counted ((s.release b).goto u .idle) := by
  obtain ⟨hpc, hlock, hkey, hdirty, -, -, -, hrefs⟩ := s.release_same b
  have hpos := h.ref_pos (u := u) (b := b) (by rw [hu]; rfl)
  refine h.advance hpc ?_ ?_ ?_ ?_ ?_ (fun b k hc => by cases hc)
  · intro c
    have hidle : BioPc.idle.share c = 0 := rfl
    rw [hrefs, hu, hidle, BioPc.share_ref (b := b) rfl, Function.update_apply]
    split
    · rw [‹c = b›]
      omega
    · rfl
  · intro c v
    rw [hlock]
    exact h.lock_iff (by rw [hu]; rfl) v
  · intro v c k _ _; rw [hkey]
  · intro c k hc; cases hc
  · intro v c k _ hw; rw [hdirty]; exact h.writing v c k hw

theorem step_counted (h : Counted s) {a : BioAct U D} (hs : s.step (u, a) = some s') : Counted s' := by
  cases step_move hs with
  | @hit b k hu hb =>
    refine h.advance rfl (takes_ref hu rfl) ?_ (fun _ _ _ _ _ => rfl) ?_ (fun v c j _ => h.writing v c j) (by simp)
    · intro c v
      exact h.lock_iff (by rw [hu]; rfl) v
    · rintro c j ⟨rfl, rfl⟩; exact cachedAt_key hb
  | @recycle b k hu hn hb =>
    obtain ⟨h0, hd⟩ := unused_spec hb
    have hne := h.ref_ne h0
    refine h.advance rfl ?_ ?_ ?_ ?_ ?_ (by simp)
    · intro c
      have hrefs := takes_ref (c := .asleep b k) hu rfl c
      rw [h0] at hrefs
      exact hrefs
    · intro c v
      exact h.lock_iff (by rw [hu]; rfl) v
    · intro v c j _ hf
      have hc : c ≠ b := by rintro rfl; exact hne v hf.ref
      exact Function.update_of_ne hc _ _
    · rintro c j ⟨rfl, rfl⟩; exact Function.update_self _ _ _
    · intro v c j _ hw
      have hc : c ≠ b := by rintro rfl; exact hne v (by rw [hw]; rfl)
      exact (Function.update_of_ne hc _ _).trans (h.writing v c j hw)
  | full hu =>
    exact h.stay rfl rfl rfl rfl (by rw [hu]; rfl) (by rw [hu]; rfl) (fun b k hc => by cases hc)
      (fun v c j _ => h.writing v c j) (by simp)
  | store x hu ha =>
    refine h.stay rfl rfl rfl rfl hu.ref.symm hu.locks.symm ?_ (fun v c j _ => h.writing v c j) (by simp)
    rintro c j ⟨rfl, rfl⟩; exact hu.for
  | @logWrite b k hu =>
    refine h.stay rfl rfl rfl rfl hu.ref.symm hu.locks.symm ?_ ?_ (by simp)
    · rintro c j ⟨rfl, rfl⟩; exact hu.for
    · intro v c j _ hw
      exact h.writing_dirty hw b
  | @bwrite b k hu =>
    rw [Bcache.bwrite, if_neg (not_not.2 ((h.lock b u).2 hu.locks))]
    refine h.stay rfl rfl rfl rfl hu.ref.symm hu.locks.symm ?_ ?_ ?_
    · rintro c j ⟨rfl, rfl⟩; exact hu.for
    · intro v c j _ hw
      exact h.writing_dirty hw b
    · intro c j hc
      cases hc
      exact Function.update_self _ _ _
  | @brelse b k hu =>
    have hlock := (h.lock b u).2 (by rw [hu]; rfl)
    rw [Bcache.brelse, if_neg (not_not.2 hlock)]
    refine h.advance rfl ?_ ?_ (fun _ _ _ _ _ => rfl) (fun c j hc => by cases hc)
      (fun v c j _ => h.writing v c j) (by simp)
    · intro c; rw [hu]; rfl
    · intro c v
      dsimp only
      by_cases hc : c = b
      · subst hc
        rw [Function.update_self, hlock]
        constructor
        · intro h; cases h
        · intro h
          split at h
          · cases h
          · exact absurd (Option.some.inj h).symm ‹¬ v = u›
      · rw [Function.update_of_ne hc]
        exact h.lock_iff (by rw [hu]; simp [BioPc.locks, Ne.symm hc]) v
  | @lock b k hu hl =>
    refine h.advance rfl ?_ ?_ (fun _ _ _ _ _ => rfl) ?_ (fun v c j _ => h.writing v c j) (by simp)
    · intro c; rw [hu]; rfl
    · intro c v
      dsimp only
      by_cases hc : c = b
      · subst hc
        rw [Function.update_self, hl]
        constructor
        · intro h
          rw [if_pos (Option.some.inj h).symm]
          rfl
        · intro h
          split at h
          · subst ‹v = u›; rfl
          · cases h
      · rw [Function.update_of_ne hc]
        exact h.lock_iff (by rw [hu]; simp [BioPc.locks, Ne.symm hc]) v
    · rintro c j ⟨rfl, rfl⟩
      exact h.keys u _ _ (by rw [hu]; exact ⟨rfl, rfl⟩)
  | @found b k hu hv =>
    refine h.stay rfl rfl rfl rfl (by rw [hu]; rfl) (by rw [hu]; rfl) ?_ (fun v c j _ => h.writing v c j) (by simp)
    rintro c j hc
    rw [hu]
    exact hc
  | @read b k hu hv =>
    rw [transfer_eq ((h.lock b u).2 (by rw [hu]; rfl)) (.inl hv)]
    exact h.iderw (by rw [hu]; exact ⟨rfl, rfl⟩) (by rw [hu]; rfl)
  | @write b k hu =>
    rw [transfer_eq ((h.lock b u).2 (by rw [hu]; rfl)) (.inr (h.writing u b k hu))]
    exact h.iderw (by rw [hu]; exact ⟨rfl, rfl⟩) (by rw [hu]; rfl)
  | release hu => exact h.release hu

end Bcache

end Xv6
