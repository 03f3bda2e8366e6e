import Xv6.Log.Admission
import Xv6.Log.Recovery
/-!
# Crash atomicity

Operations are committed in groups: those that were inside together until the
count of outstanding operations fell to zero. Whatever block writes a crash
leaves undone, recovery brings the home blocks to what some first groups left,
complete, and to nothing else. The argument follows the commit through its
stages: until the header is written the home blocks are untouched and the
header is empty, and from then until it is cleared the log holds every block of
the group.

All of it rests on the log's blocks having room: a log of one block too many
runs over the first home block behind it.
-/

namespace Xv6

open Runs

variable {P D : Type}

/-! ## The stages of a commit -/

/-- The log's first `n` blocks are written, in the cache and on the disk. -/
def Log.Copied (s : Log P D) (n : Nat) : Prop :=
  ∀ i b, i < n → s.lh[i]? = some b →
    s.cached (logBlock i) = s.cached b ∧ s.disk.data (logBlock i) = s.cached b

/-- What the disk holds while a group is committed, between the home blocks `pre` and
`post` of the groups before it and with it. -/
def Log.Stage (s : Log P D) (pre post : Nat → D) : LogPc → Prop
  | .writeLog tail => s.disk.head = [] ∧ AgreeHome s.disk.data pre ∧ s.Copied tail
  | .writeHead => s.disk.head = [] ∧ AgreeHome s.disk.data pre ∧ s.Copied s.lh.length
  | .install tail =>
    s.disk.head = s.lh ∧ AgreeHome (Writes.apply s.disk.data (s.disk.copies s.lh)) post ∧
      s.Copied s.lh.length ∧ ∀ i b, i < tail → s.lh[i]? = some b → s.disk.data b = s.cached b
  | .erase => s.disk.WellFormed ∧ AgreeHome s.disk.recover.data post ∧ AgreeHome s.disk.data post
  | .finish => s.disk.head = [] ∧ AgreeHome s.disk.data post
  | _ => True

namespace Log

variable {s : Log P D} {pre post : Nat → D} {tail b : Nat}

/-- What the log lists while it is written out. -/
structure Full (s : Log P D) (pre post : Nat → D) : Prop where
  home : ∀ b ∈ s.lh, Home b
  fits : s.lh.length ≤ nlog - 1
  cached : AgreeHome s.cached post
  rest : ∀ b, Home b → b ∉ s.lh → pre b = post b

theorem stage_log (hf : Full s pre post) (h : s.Stage pre post (.writeLog tail)) (hb : s.lh[tail]? = some b) :
    (s.bwrite (logBlock tail) (s.cached b)).Stage pre post (.writeLog (tail + 1)) := by
  obtain ⟨hhead, hdata, hcopied⟩ := h
  obtain ⟨ht, -⟩ := List.getElem?_eq_some_iff.1 hb
  have hfit : tail < nlog - 1 := by have := hf.fits; omega
  refine ⟨hhead, ?_, ?_⟩
  · intro c hc
    exact (Function.update_of_ne (home_ne_logBlock hc hfit) _ _).trans (hdata c hc)
  · intro i c hi hc
    have hch : c ≠ logBlock tail := home_ne_logBlock (hf.home c (List.mem_of_getElem? hc)) hfit
    simp only [bwrite, modify, Disk.write] at hc ⊢
    rw [Function.update_of_ne hch]
    by_cases hit : i = tail
    · subst hit
      obtain rfl := Option.some.inj (hb.symm.trans hc)
      simp
    · have hne : logBlock i ≠ logBlock tail := by unfold logBlock; omega
      rw [Function.update_of_ne hne, Function.update_of_ne hne]
      exact hcopied i c (by omega) hc

theorem stage_logged (h : s.Stage pre post (.writeLog tail)) (ht : s.lh.length ≤ tail) :
    s.Stage pre post .writeHead :=
  ⟨h.1, h.2.1, fun i b hi hb => h.2.2 i b (by omega) hb⟩

theorem stage_commit (hf : Full s pre post) (h : s.Stage pre post .writeHead) :
    s.writeHead.Stage pre post (.install 0) := by
  obtain ⟨-, hdata, hcopied⟩ := h
  refine ⟨rfl, ?_, hcopied, fun i b hi => absurd hi (Nat.not_lt_zero i)⟩
  intro c hc
  by_cases hl : c ∈ s.lh
  · refine (Writes.apply_of_mem ?_ ?_).trans (hf.cached c hc)
    · rintro ⟨b, v⟩ hw rfl
      obtain ⟨i, hi, rfl⟩ := Disk.mem_copies.1 hw
      exact (hcopied i b (List.getElem?_eq_some_iff.1 hi).1 hi).2
    · obtain ⟨i, hi⟩ := List.getElem?_of_mem hl
      exact ⟨(c, _), Disk.mem_copies.2 ⟨i, hi, rfl⟩, rfl⟩
  · have hnot : ∀ w ∈ s.disk.copies s.lh, w.1 ≠ c := by
      rintro w hw rfl
      obtain ⟨i, hi, -⟩ := Disk.mem_copies.1 hw
      exact hl (List.mem_of_getElem? hi)
    exact (Writes.apply_of_not_mem hnot).trans ((hdata c hc).trans (hf.rest c hc hl))

theorem stage_install (hf : Full s pre post) (h : s.Stage pre post (.install tail)) (hb : s.lh[tail]? = some b) :
    (s.bwrite b (s.cached (logBlock tail))).cached = s.cached ∧
      (s.bwrite b (s.cached (logBlock tail))).Stage pre post (.install (tail + 1)) := by
  obtain ⟨hhead, hpost, hcopied, hdone⟩ := h
  have hhome := hf.home b (List.mem_of_getElem? hb)
  obtain ⟨hc, hd⟩ := hcopied tail b (List.getElem?_eq_some_iff.1 hb).1 hb
  -- the log block is a copy of the cached block, so the cache does not change
  have hcached : Function.update s.cached b (s.cached b) = s.cached := Function.update_eq_self _ _
  rw [hc]
  refine ⟨hcached, hhead, ?_, ?_, ?_⟩
  · have hmem : (b, s.cached b) ∈ s.disk.copies s.lh := Disk.mem_copies.2 ⟨tail, hb, hd⟩
    have hcopies : (s.bwrite b (s.cached b)).disk.copies s.lh = s.disk.copies s.lh :=
      have hws : ∀ w ∈ [(b, s.cached b)], Home w.1 := by simpa using hhome
      Disk.copies_apply hf.fits hws s.disk.head
    have hredo : Writes.apply (Writes.apply s.disk.data [(b, s.cached b)]) (s.disk.copies s.lh) =
        Writes.apply s.disk.data (s.disk.copies s.lh) := Writes.apply_redo _ (by simpa using hmem)
    have heq : Writes.apply (s.bwrite b (s.cached b)).disk.data ((s.bwrite b (s.cached b)).disk.copies s.lh) =
        Writes.apply s.disk.data (s.disk.copies s.lh) := by rw [hcopies]; exact hredo
    exact heq ▸ hpost
  · intro i c hi hci
    have hlt : i < nlog - 1 := by
      have hlen : i < s.lh.length := hi
      have := hf.fits
      omega
    simp only [bwrite, modify, Disk.write, hcached]
    rw [Function.update_of_ne (home_ne_logBlock hhome hlt).symm]
    exact hcopied i c hi hci
  · intro i c hi hci
    simp only [bwrite, modify, Disk.write, hcached]
    by_cases hcb : c = b
    · subst hcb; simp
    · rw [Function.update_of_ne hcb]
      have hit : i ≠ tail := by
        rintro rfl
        exact hcb (Option.some.inj (hci.symm.trans hb))
      exact hdone i c (by omega) hci

theorem stage_installed (hf : Full s pre post) (h : s.Stage pre post (.install tail)) (ht : s.lh.length ≤ tail) :
    { s with lh := [] }.Stage pre post .erase := by
  obtain ⟨hhead, hpost, hcopied, hdone⟩ := h
  have hwf : s.disk.WellFormed := ⟨by rw [hhead]; exact hf.home, by rw [hhead]; exact hf.fits⟩
  have hall : Writes.apply s.disk.data (s.disk.copies s.lh) = s.disk.data := by
    apply Writes.apply_eq_self
    intro w hw
    obtain ⟨i, hi, hv⟩ := Disk.mem_copies.1 hw
    have hlt := (List.getElem?_eq_some_iff.1 hi).1
    rw [hdone i w.1 (by omega) hi, ← hv, (hcopied i w.1 hlt hi).2]
  refine ⟨hwf, ?_, ?_⟩
  · dsimp only
    rw [Disk.recover_eq hwf, hhead]
    exact hpost
  · rw [hall] at hpost; exact hpost

end Log

/-! ## The groups -/

/-- A block update, with the number of the operation that made it. -/
structure BlockUpdate (D : Type) where
  op : Nat
  block : Nat
  val : D

def writes (us : List (BlockUpdate D)) : List (Nat × D) := us.map fun u => (u.block, u.val)

/-- The log with its past: the operations are numbered as they enter, and their updates
are kept by commit group, the groups that are closed and the one that is still open. -/
structure History (P D : Type) where
  log : Log P D
  op : P → Nat
  ops : Nat
  groups : List (List (BlockUpdate D))
  current : List (BlockUpdate D)

namespace History

variable [DecidableEq P]

def note (h : History P D) (l : P × LogAct D) (s : Log P D) : History P D :=
  match l.2 with
  | .beginOp => { h with log := s, op := Function.update h.op l.1 h.ops, ops := h.ops + 1 }
  | .write b v => { h with log := s, current := h.current ++ [⟨h.op l.1, b, v⟩] }
  | .endOp =>
    if s.committing then { h with log := s, groups := h.groups ++ [h.current], current := [] }
    else { h with log := s }
  | .next => { h with log := s }

def step (h : History P D) (l : P × LogAct D) : Option (History P D) :=
  (h.log.step l).map (h.note l)

def init (d : Disk D) : History P D := ⟨.init d, fun _ => 0, 0, [], []⟩

/-- The home blocks after the first `n` groups. -/
def after (h : History P D) (d : Disk D) (n : Nat) : Nat → D :=
  Writes.apply d.data (writes (h.groups.take n).flatten)

/-- No two groups have updates of the same operation. -/
def Unsplit (h : History P D) : Prop :=
  (h.groups ++ [h.current]).Pairwise fun g g' => ∀ u ∈ g, ∀ u' ∈ g', u.op ≠ u'.op

/-- Only home blocks are written, and a block is added to the log only while the on-disk
log has a block for it. -/
def fits (h : History P D) (l : P × LogAct D) : Bool :=
  match l.2, h.log.pc l.1 with
  | .write b _, _ => Home b
  | .next, .append b => b ∈ h.log.lh ∨ h.log.lh.length < nlog - 1
  | _, _ => true

end History


/-! ## The invariant -/

/-- The process may still have to log the block: it is in `log_write` for it, or stopped in
`log_write` for good. -/
def LogPc.Owes : LogPc → Nat → Prop
  | .check b, c | .inTrans b, c | .append b, c => b = c
  | .panic .tooBig, _ | .panic .outside, _ => True
  | _, _ => False

/-- `commit` still needs what `log.lh` lists. -/
def LogPc.lists : LogPc → Bool
  | .writeLog _ | .writeHead | .install _ => true
  | _ => false

theorem LogPc.Owes.share {k : LogPc} {b : Nat} (h : k.Owes b) : k.share = 1 := by
  unfold Owes at h
  split at h
  any_goals rfl
  cases h

namespace History

variable [Fintype P] {h h' : History P D} {d : Disk D} {p : P} {l : P × LogAct D}

structure Consistent (d : Disk D) (h : History P D) : Prop where
  sound : h.log.Sound
  home : ∀ b ∈ h.log.lh, Home b
  fits : h.log.lh.length ≤ nlog - 1
  call : ∀ q b, (h.log.pc q).block = some b → Home b
  cached : AgreeHome h.log.cached (Writes.apply d.data (writes (h.groups.flatten ++ h.current)))
  owed : h.log.committing = false → ∀ u ∈ h.current, u.block ∈ h.log.lh ∨ ∃ q, (h.log.pc q).Owes u.block
  closed : h.log.committing = true → h.current = [] ∧ h.groups ≠ []
  disk : h.log.committing = false →
    h.log.disk.head = [] ∧ AgreeHome h.log.disk.data (h.after d h.groups.length)
  rest : ∀ q, (h.log.pc q).lists → ∀ b, Home b → b ∉ h.log.lh →
    h.after d (h.groups.length - 1) b = h.after d h.groups.length b
  stage : ∀ q, (h.log.pc q).commits →
    h.log.Stage (h.after d (h.groups.length - 1)) (h.after d h.groups.length) (h.log.pc q)

omit [Fintype P] in
theorem after_all (h : History P D) (d : Disk D) :
    h.after d h.groups.length = Writes.apply d.data (writes h.groups.flatten) := by
  unfold after
  rw [List.take_length]

theorem Consistent.full (hi : Consistent d h) (hp : (h.log.pc p).lists) :
    h.log.Full (h.after d (h.groups.length - 1)) (h.after d h.groups.length) where
  home := hi.home
  fits := hi.fits
  cached := by
    have hc : (h.log.pc p).commits := by
      revert hp
      cases h.log.pc p <;> simp [LogPc.lists, LogPc.commits]
    have hcached := hi.cached
    rw [(hi.closed (hi.sound.sets p hc)).1, List.append_nil] at hcached
    rw [after_all]
    exact hcached
  rest := hi.rest p hp

/-- A step that is no part of a commit. -/
theorem Consistent.outside (hi : Consistent d h) (hc : h.log.committing = false) (hsound : h'.log.Sound)
    (hc' : h'.log.committing = false) (hpc : ∀ q, q ≠ p → h'.log.pc q = h.log.pc q)
    (hdisk : h'.log.disk = h.log.disk) (hgroups : h'.groups = h.groups) (hhome : ∀ b ∈ h'.log.lh, Home b)
    (hfits : h'.log.lh.length ≤ nlog - 1) (hcall : ∀ b, (h'.log.pc p).block = some b → Home b)
    (hcached : AgreeHome h'.log.cached (Writes.apply d.data (writes (h.groups.flatten ++ h'.current))))
    (howed : ∀ u ∈ h'.current, u.block ∈ h'.log.lh ∨ ∃ q, (h'.log.pc q).Owes u.block) : Consistent d h' where
  sound := hsound
  home := hhome
  fits := hfits
  call q := by
    by_cases hq : q = p
    · subst hq; exact hcall
    · rw [hpc q hq]; exact hi.call q
  cached := by rw [hgroups]; exact hcached
  owed _ := howed
  closed ht := by rw [hc'] at ht; cases ht
  disk _ := by
    have := hi.disk hc
    rw [hdisk]
    simpa only [after, hgroups] using this
  rest q hq := absurd (by revert hq; cases h'.log.pc q <;> simp [LogPc.lists, LogPc.commits])
    (hsound.none_commits hc' q)
  stage q hq := absurd hq (hsound.none_commits hc' q)

variable [DecidableEq P]

/-- A step of the committing process that leaves the contents of the home blocks alone. -/
theorem Consistent.inside (hi : Consistent d h) (hp : (h.log.pc p).commits) {t : Log P D} {k : LogPc}
    (hsound : (t.goto p k).Sound) (hpc : t.pc = h.log.pc) (hc : t.committing = true)
    (hlh : t.lh = h.log.lh ∨ t.lh = []) (hcached : AgreeHome t.cached h.log.cached) (hk : k.block = none)
    (hlists : k.lists → (h.log.pc p).lists ∧ t.lh = h.log.lh)
    (hstage : t.Stage (h.after d (h.groups.length - 1)) (h.after d h.groups.length) k) :
    Consistent d { h with log := t.goto p k } := by
  have hpc' : ∀ q, (t.goto p k).pc q = if q = p then k else h.log.pc q := by
    intro q; simp [Log.goto, Function.update_apply, hpc]
  have hcommits : ∀ q, q ≠ p → (h.log.pc q).commits = false := by
    intro q hq; simpa using hi.sound.no_other hp q hq
  have hlists' : ∀ q, (h.log.pc q).lists → (h.log.pc q).commits := by
    intro q; cases h.log.pc q <;> simp [LogPc.lists, LogPc.commits]
  constructor
  · exact hsound
  · rcases hlh with hlh | hlh <;> simp only [Log.goto_lh, hlh]
    · exact hi.home
    · simp
  · rcases hlh with hlh | hlh <;> simp only [Log.goto_lh, hlh]
    · exact hi.fits
    · exact Nat.zero_le _
  · intro q b hb
    dsimp only at hb
    rw [hpc'] at hb
    split at hb
    · rw [hk] at hb; cases hb
    · exact hi.call q b hb
  · intro b hb; exact (hcached b hb).trans (hi.cached b hb)
  · intro ht; rw [Log.goto_committing, hc] at ht; cases ht
  · intro _; exact hi.closed (hi.sound.sets p hp)
  · intro ht; rw [Log.goto_committing, hc] at ht; cases ht
  · intro q hq
    dsimp only at hq ⊢
    rw [hpc'] at hq
    split at hq
    · rw [Log.goto_lh, (hlists hq).2]; exact hi.rest p (hlists hq).1
    · have := hlists' q hq
      rw [hcommits q ‹_›] at this
      cases this
  · intro q hq
    dsimp only at hq ⊢
    rw [hpc'] at hq ⊢
    split
    · exact hstage
    · rename_i hne
      rw [if_neg hne, hcommits q hne] at hq
      cases hq

/-- The last `end_op` of a group closes it: every block its operations wrote is in the log. -/
theorem Consistent.closing (hi : Consistent d h) (hp : h.log.pc p = .op) (hc : h.log.committing = false)
    (ho : h.log.outstanding = 1) (u : BlockUpdate D) (hu : u ∈ h.current) : u.block ∈ h.log.lh := by
  refine (hi.owed hc u hu).resolve_right ?_
  rintro ⟨q, hq⟩
  have hshare := hq.share
  by_cases hqp : q = p
  · subst hqp; rw [hp] at hq; exact hq
  · rw [hi.sound.lone ho (by rw [hp]; rfl) hqp] at hshare; cases hshare

theorem Consistent.close (hi : Consistent d h) (hp : h.log.pc p = .op) (hc : h.log.committing = false)
    (ho : h.log.outstanding = 1) {k : LogPc} (hk : k = .writeLog 0 ∨ k = .finish ∧ h.log.lh = [])
    (hsound : ({ h.log with outstanding := 0, committing := true }.goto p k).Sound) :
    Consistent d { h with
      log := { h.log with outstanding := 0, committing := true }.goto p k
      groups := h.groups ++ [h.current]
      current := [] } := by
  obtain ⟨hhead, hdata⟩ := hi.disk hc
  rw [after_all] at hdata
  have hpre : Writes.apply d.data (writes ((h.groups ++ [h.current]).take ((h.groups ++ [h.current]).length - 1)).flatten)
      = Writes.apply d.data (writes h.groups.flatten) := by simp
  have hpost : Writes.apply d.data (writes ((h.groups ++ [h.current]).take (h.groups ++ [h.current]).length).flatten)
      = Writes.apply (Writes.apply d.data (writes h.groups.flatten)) (writes h.current) := by
    rw [List.take_length, ← Writes.apply_append]
    simp [writes]
  have hrest : ∀ b, b ∉ h.log.lh → Writes.apply d.data (writes h.groups.flatten) b =
      Writes.apply (Writes.apply d.data (writes h.groups.flatten)) (writes h.current) b := by
    intro b hb
    refine (Writes.apply_of_not_mem ?_).symm
    rintro w hw rfl
    obtain ⟨u, hu, rfl⟩ := List.mem_map.1 hw
    exact hb (hi.closing hp hc ho u hu)
  have hown : ∀ q, (({ h.log with outstanding := 0, committing := true }.goto p k).pc q).commits → q = p := by
    intro q hq
    by_contra hne
    simp only [Log.goto, Function.update_of_ne hne] at hq
    exact hi.sound.none_commits hc q hq
  constructor
  · exact hsound
  · exact hi.home
  · exact hi.fits
  · intro q b hb
    by_cases hq : q = p
    · subst hq
      rcases hk with rfl | ⟨rfl, -⟩ <;> simp [Log.goto, LogPc.block] at hb
    · simp only [Log.goto, Function.update_of_ne hq] at hb
      exact hi.call q b hb
  · simpa using hi.cached
  · intro ht; cases ht
  · intro _; simp
  · intro ht; cases ht
  · intro q _ b _ hb
    simp only [after, hpre, hpost]
    exact hrest b hb
  · intro q hq
    obtain rfl := hown q hq
    simp only [after, hpre, hpost, Log.goto, Function.update_self]
    rcases hk with rfl | ⟨rfl, hlh⟩
    · exact ⟨hhead, hdata, fun i b hi => absurd hi (Nat.not_lt_zero i)⟩
    · refine ⟨hhead, fun b hb => ?_⟩
      rw [← hrest b (by rw [hlh]; simp)]
      exact hdata b hb

omit [Fintype P] in
theorem note_leave {s : Log P D} (hc : s.committing = false) : h.note (p, .endOp) s = { h with log := s } := by
  simp [note, hc]

theorem Consistent.owed_goto (hi : Consistent d h) (hc : h.log.committing = false) {t : Log P D} {k : LogPc}
    (hpc : t.pc = h.log.pc) (hlh : ∀ b ∈ h.log.lh, b ∈ t.lh)
    (hk : ∀ c, (h.log.pc p).Owes c → c ∈ t.lh ∨ k.Owes c) (u : BlockUpdate D) (hu : u ∈ h.current) :
    u.block ∈ (t.goto p k).lh ∨ ∃ q, ((t.goto p k).pc q).Owes u.block := by
  rcases hi.owed hc u hu with hb | ⟨q, hq⟩
  · exact .inl (hlh _ hb)
  · by_cases hqp : q = p
    · subst hqp
      refine (hk _ hq).imp id fun ho => ⟨q, ?_⟩
      simpa [Log.goto] using ho
    · refine .inr ⟨q, ?_⟩
      simpa [Log.goto, hqp, hpc] using hq

/-- A step of `begin_op`, `log_write` or `end_op` that closes no group. -/
theorem Consistent.step_call (hi : Consistent d h) (hc : h.log.committing = false) {t : Log P D} {k : LogPc}
    (hsound : (t.goto p k).Sound) (hpc : t.pc = h.log.pc) (hct : t.committing = false)
    (hdisk : t.disk = h.log.disk) (hcached : t.cached = h.log.cached) (hlh : ∀ b ∈ h.log.lh, b ∈ t.lh)
    (hhome : ∀ b ∈ t.lh, Home b) (hfits : t.lh.length ≤ nlog - 1) (hcall : ∀ b, k.block = some b → Home b)
    (hk : ∀ c, (h.log.pc p).Owes c → c ∈ t.lh ∨ k.Owes c) (op : P → Nat) (ops : Nat) :
    Consistent d { h with log := t.goto p k, op := op, ops := ops } := by
  refine hi.outside (p := p) hc hsound hct ?_ hdisk rfl hhome hfits ?_ ?_ ?_
  · intro q hq; simp [Log.goto, hq, hpc]
  · intro b hb; exact hcall b (by simpa [Log.goto] using hb)
  · dsimp only; rw [Log.goto_cached, hcached]; exact hi.cached
  · exact hi.owed_goto hc hpc hlh hk

/-- A write inside an operation: the block will be in the log. -/
theorem Consistent.step_write (hi : Consistent d h) (hp : h.log.pc p = .op) {b : Nat} {v : D} (hb : Home b)
    (hsound : ((h.log.modify b v).goto p (.check b)).Sound) :
    Consistent d { h with
      log := (h.log.modify b v).goto p (.check b)
      current := h.current ++ [⟨h.op p, b, v⟩] } := by
  have hc := hi.sound.open (p := p) (by rw [hp]; rfl)
  refine hi.outside (p := p) hc hsound hc ?_ rfl rfl hi.home hi.fits ?_ ?_ ?_ <;> dsimp only
  · intro q hq
    simp [Log.goto, Log.modify, hq]
  · intro c hc
    have hbc : b = c := by simpa [Log.goto, LogPc.block] using hc
    exact hbc ▸ hb
  · intro c hc
    have hw : writes (h.groups.flatten ++ (h.current ++ [⟨h.op p, b, v⟩])) =
        writes (h.groups.flatten ++ h.current) ++ [(b, v)] := by simp [writes]
    rw [hw, Writes.apply_snoc]
    simp only [Log.goto_cached, Log.modify, Function.update_apply]
    split
    · rfl
    · exact hi.cached c hc
  · intro u hu
    rcases List.mem_append.1 hu with hu | hu
    · exact hi.owed_goto hc rfl (fun _ h => h) (by simp [hp, LogPc.Owes]) u hu
    · obtain rfl := List.mem_singleton.1 hu
      exact .inr ⟨p, by simp [Log.goto, LogPc.Owes]⟩

omit [DecidableEq P] in
/-- What a process that commits has done so far. -/
theorem Consistent.stage_at (hi : Consistent d h) {k : LogPc} (hp : h.log.pc p = k) (hk : k.commits) :
    (h.log.pc p).commits ∧ h.log.committing = true ∧
      h.log.Stage (h.after d (h.groups.length - 1)) (h.after d h.groups.length) k := by
  subst hp
  exact ⟨hk, hi.sound.sets p hk, hi.stage p hk⟩

/-- The end of a commit: the disk has the last group and an empty header. -/
theorem Consistent.step_finish (hi : Consistent d h) (hp : h.log.pc p = .finish)
    (hsound : ({ h.log with committing := false }.goto p .idle).Sound) :
    Consistent d { h with log := { h.log with committing := false }.goto p .idle } := by
  obtain ⟨-, hset, hst⟩ := hi.stage_at hp rfl
  have hcur := (hi.closed hset).1
  constructor
  · exact hsound
  · exact hi.home
  · exact hi.fits
  · intro q b hb
    by_cases hq : q = p
    · subst hq
      simp [Log.goto, LogPc.block] at hb
    · simp only [Log.goto, Function.update_of_ne hq] at hb
      exact hi.call q b hb
  · exact hi.cached
  · intro _ u hu
    dsimp only at hu
    rw [hcur] at hu
    cases hu
  · intro ht
    cases ht
  · intro _
    exact hst
  · intro q hq b hb hl
    by_cases hqp : q = p
    · subst hqp
      simp [Log.goto, LogPc.lists] at hq
    · simp only [Log.goto, Function.update_of_ne hqp] at hq
      exact hi.rest q hq b hb hl
  · intro q hq
    exact absurd hq (hsound.none_commits rfl q)

theorem Consistent.step (hi : Consistent d h) (hg : h.fits l) (ht : h.step l = some h') : Consistent d h' := by
  obtain ⟨p, a⟩ := l
  obtain ⟨s, hs, rfl⟩ := Option.map_eq_some_iff.1 ht
  have hsound := Log.step_sound hi.sound hs
  have hopen := fun hp => hi.sound.open (p := p) hp
  cases Log.step_move hs with
  | enter hp hc hn =>
    exact hi.step_call hc hsound rfl hc rfl rfl (fun _ h => h) hi.home hi.fits (by simp [LogPc.block])
      (by simp [hp, LogPc.Owes]) _ _
  | write b v hp => exact hi.step_write hp (by simpa [History.fits] using hg) hsound
  | nested hp hc => rw [hopen (by rw [hp]; rfl)] at hc; cases hc
  | leave hp hc ho =>
    rw [note_leave (by exact hc)]
    exact hi.step_call hc hsound rfl hc rfl rfl (fun _ h => h) hi.home hi.fits (by simp [LogPc.block])
      (by simp [hp, LogPc.Owes]) _ _
  | last hp hc ho hl => exact hi.close hp hc ho (.inl rfl) hsound
  | lastEmpty hp hc ho hl => exact hi.close hp hc ho (.inr ⟨rfl, hl⟩) hsound
  | tooBig hp | outside hp | fits hp | inside hp =>
    have hc := hopen (by rw [hp]; rfl)
    have hb := hi.call p _ (by rw [hp]; rfl)
    exact hi.step_call hc hsound rfl hc rfl rfl (fun _ h => h) hi.home hi.fits (by simp [LogPc.block, hb])
      (by simp [hp, LogPc.Owes]) _ _
  | absorb hp hb =>
    have hc := hopen (by rw [hp]; rfl)
    exact hi.step_call hc hsound rfl hc rfl rfl (fun _ h => h) hi.home hi.fits (by simp [LogPc.block])
      (by simp [hp, LogPc.Owes, hb]) _ _
  | append hp hb =>
    have hc := hopen (by rw [hp]; rfl)
    have hhome := hi.call p _ (by rw [hp]; rfl)
    have hroom : h.log.lh.length < nlog - 1 := by simpa [History.fits, hp, hb] using hg
    refine hi.step_call hc hsound rfl hc rfl rfl ?_ ?_ ?_ (by simp [LogPc.block]) ?_ _ _ <;> dsimp only
    · intro c hc; exact List.mem_append_left _ hc
    · intro c hc
      rcases List.mem_append.1 hc with hc | hc
      · exact hi.home c hc
      · obtain rfl := List.mem_singleton.1 hc; exact hhome
    · rw [List.length_append, List.length_singleton]; omega
    · intro c hc
      rw [hp] at hc
      exact .inl (List.mem_append_right _ (by simp [show _ = c from hc]))
  | log hp hb =>
    obtain ⟨hcom, hset, hst⟩ := hi.stage_at hp rfl
    have hfull := hi.full (p := p) (by rw [hp]; rfl)
    refine hi.inside hcom hsound rfl hset (.inl rfl) ?_ rfl (fun _ => ⟨by rw [hp]; rfl, rfl⟩)
      (Log.stage_log hfull hst hb)
    intro c hc
    have hlt := (List.getElem?_eq_some_iff.1 hb).1
    have := hi.fits
    exact Function.update_of_ne (home_ne_logBlock hc (by omega)) _ _
  | logged hp hn =>
    obtain ⟨hcom, hset, hst⟩ := hi.stage_at hp rfl
    exact hi.inside hcom hsound rfl hset (.inl rfl) (fun _ _ => rfl) rfl
      (fun _ => ⟨by rw [hp]; rfl, rfl⟩) (Log.stage_logged hst hn)
  | commit hp =>
    obtain ⟨hcom, hset, hst⟩ := hi.stage_at hp rfl
    have hfull := hi.full (p := p) (by rw [hp]; rfl)
    exact hi.inside hcom hsound rfl hset (.inl rfl) (fun _ _ => rfl) rfl
      (fun _ => ⟨by rw [hp]; rfl, rfl⟩) (Log.stage_commit hfull hst)
  | install hp hb =>
    obtain ⟨hcom, hset, hst⟩ := hi.stage_at hp rfl
    have hfull := hi.full (p := p) (by rw [hp]; rfl)
    obtain ⟨hcached, hst⟩ := Log.stage_install hfull hst hb
    exact hi.inside hcom hsound rfl hset (.inl rfl) (fun c _ => congrFun hcached c) rfl
      (fun _ => ⟨by rw [hp]; rfl, rfl⟩) hst
  | installed hp hn =>
    obtain ⟨hcom, hset, hst⟩ := hi.stage_at hp rfl
    have hfull := hi.full (p := p) (by rw [hp]; rfl)
    exact hi.inside hcom hsound rfl hset (.inr rfl) (fun _ _ => rfl) rfl
      (fun hk => by cases hk) (Log.stage_installed hfull hst hn)
  | erase hp =>
    obtain ⟨hcom, hset, hst⟩ := hi.stage_at hp rfl
    exact hi.inside hcom hsound rfl hset (.inl rfl) (fun _ _ => rfl) rfl
      (fun hk => by cases hk) ⟨hi.sound.emptied p (.inl hp), hst.2.2⟩
  | finish hp => exact hi.step_finish hp hsound

/-! ## Operations stay whole -/

/-- Operations numbered below `lo` are in closed groups; all others entered after the last
group was closed. -/
structure Brackets (h : History P D) (lo : Nat) : Prop where
  closed : ∀ g ∈ h.groups, ∀ u ∈ g, u.op < lo
  apart : h.groups.Pairwise fun g g' => ∀ u ∈ g, ∀ u' ∈ g', u.op ≠ u'.op
  current : ∀ u ∈ h.current, lo ≤ u.op ∧ u.op < h.ops
  inside : ∀ q, (h.log.pc q).share = 1 → lo ≤ h.op q ∧ h.op q < h.ops
  bound : lo ≤ h.ops

omit [DecidableEq P] [Fintype P] in
theorem Brackets.unsplit {lo : Nat} (hb : Brackets h lo) : h.Unsplit := by
  refine List.pairwise_append.2 ⟨hb.apart, List.pairwise_singleton _ _, ?_⟩
  intro g hg g' hg' u hu u' hu'
  obtain rfl := List.mem_singleton.1 hg'
  have := hb.closed g hg u hu
  have := (hb.current u' hu').1
  omega

omit [Fintype P] in
/-- A step after which the process is inside only if it was inside before. -/
theorem Brackets.goto {lo : Nat} (hb : Brackets h lo) {t : Log P D} {k : LogPc} (hpc : t.pc = h.log.pc)
    (hk : k.share = 1 → (h.log.pc p).share = 1) : Brackets { h with log := t.goto p k } lo where
  closed := hb.closed
  apart := hb.apart
  current := hb.current
  inside q hq := by
    by_cases hqp : q = p
    · subst hqp
      exact hb.inside q (hk (by simpa [Log.goto] using hq))
    · exact hb.inside q (by simpa [Log.goto, hqp, hpc] using hq)
  bound := hb.bound

omit [DecidableEq P] in
/-- When a group is closed nobody is inside, and the next group starts with a new number. -/
theorem Brackets.close {lo : Nat} (hb : Brackets h lo) {s : Log P D} (hs : s.Sound) (h0 : s.outstanding = 0) :
    Brackets { h with log := s, groups := h.groups ++ [h.current], current := [] } h.ops where
  closed g hg u hu := by
    rcases List.mem_append.1 hg with hg | hg
    · exact Nat.lt_of_lt_of_le (hb.closed g hg u hu) hb.bound
    · obtain rfl := List.mem_singleton.1 hg
      exact (hb.current u hu).2
  apart := hb.unsplit
  current u hu := by cases hu
  inside q hq := by
    have := hs.inside hq
    omega
  bound := Nat.le_refl _

end History

namespace History

/-- The distinct blocks that the process's operation has written. -/
def opBlocks (h : History P D) (p : P) : Finset Nat :=
  ((h.current.filter fun u => u.op = h.op p).map BlockUpdate.block).toFinset

/-- Only home blocks are written, and every operation keeps to the `MAXOPBLOCKS` blocks that
`begin_op` reserves for it. -/
def reserved (h : History P D) (l : P × LogAct D) : Bool :=
  match l.2 with
  | .write b _ => Home b ∧ (insert b (h.opBlocks l.1)).card ≤ MAXOPBLOCKS
  | _ => true

end History

end Xv6
