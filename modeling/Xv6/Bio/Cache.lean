import Xv6.Lib.Runs
import Xv6.Lib.Writes
import Xv6.Bio.Moves
/-!
# The buffer cache is transparent

Whatever buffers are recycled in between, `bread` returns what was last stored
for the block. Two facts carry this. A buffer that is in use or valid is the
first on the list with its block, so a block never has two such buffers: a scan
that finds the block finds that one. And the last stores for a block are in its
valid buffer, or else on the disk: a buffer that is recycled is not dirty, and
nobody is about to hand a change in it to the log.
-/

namespace Xv6

open Runs

variable {U D : Type}

namespace Bcache

/-- The buffer is referenced or valid. -/
def Used (s : Bcache U D) (b : Buf) : Prop := s.refcnt b ≠ 0 ∨ s.valid b = true

/-! ## The list -/

/-- The links form one ring of all buffers, and on it a used buffer is the first with its
block: buffers that were never used all still have block 0 of device 0. -/
structure Listed (s : Bcache U D) (order : List Buf) : Prop where
  ring : s.links.Ring order
  nodup : order.Nodup
  all : ∀ b, b ∈ order
  first : ∀ b, s.Used b → order.find? (fun c => s.key c = s.key b) = some b

variable {s s' t : Bcache U D} {u : U} {c : BioPc} {b b' : Buf} {k : BlockId} {order : List Buf}

theorem Listed.cachedAt_eq (h : Listed s order) (k : BlockId) :
    s.cachedAt k = order.find? (fun b => s.key b = k) := by
  have hlen : order.length ≤ NBUF := by simpa using h.nodup.length_le_card
  exact h.ring.walk_next _ hlen

theorem Listed.one (h : Listed s order) (hb : s.Used b) (hb' : s.Used b') (hk : s.key b = s.key b') : b = b' := by
  have h1 := h.first b hb
  rw [hk, h.first b' hb'] at h1
  exact (Option.some.inj h1).symm

/-- A step that leaves the list and the blocks of the buffers alone. -/
theorem Listed.stay (h : Listed s order) (hlinks : t.links = s.links) (hkey : t.key = s.key)
    (hused : ∀ b, t.Used b → s.Used b ∨ order.find? (fun c => s.key c = s.key b) = some b) : Listed t order where
  ring := hlinks ▸ h.ring
  nodup := h.nodup
  all := h.all
  first b hb := by
    rw [hkey]
    exact (hused b hb).elim (h.first b) id

/-- The first element that passes a test is the first to pass any stricter test that it
passes. -/
theorem find?_of_imp {α : Type} {p q : α → Bool} {l : List α} {x : α} (h : l.find? p = some x) (hx : q x = true)
    (hqp : ∀ y ∈ l, q y = true → p y = true) : l.find? q = some x := by
  induction l with
  | nil => cases h
  | cons y l ih =>
    rw [List.find?_cons] at h ⊢
    cases hp : p y with
    | true =>
      rw [hp] at h
      cases h
      rw [hx]
    | false =>
      have hq : q y = false := by
        cases hq : q y with
        | false => rfl
        | true => rw [hqp y (by simp) hq] at hp; cases hp
      rw [hp] at h
      rw [hq]
      exact ih h fun z hz => hqp z (List.mem_cons_of_mem _ hz)

theorem find?_only {α : Type} [DecidableEq α] {l : List α} {x : α} (hx : x ∈ l) :
    l.find? (fun y => y = x) = some x := by
  cases hf : l.find? (fun y => y = x) with
  | none => exact absurd (decide_eq_true rfl) (List.find?_eq_none.1 hf x hx)
  | some y =>
    have hyx : y = x := by simpa using List.find?_some hf
    rw [hyx]

theorem Listed.recycle (h : Listed s order) (hk : s.cachedAt k = none) : Listed (s.recycle b k) order where
  ring := h.ring
  nodup := h.nodup
  all := h.all
  first d hd := by
    -- no buffer had the block before
    have hnone : ∀ d, s.key d ≠ k := by
      intro d hd
      rw [h.cachedAt_eq] at hk
      simpa [hd] using List.find?_eq_none.1 hk d (h.all d)
    dsimp only [Bcache.recycle]
    by_cases hdb : d = b
    · subst hdb
      refine find?_of_imp (find?_only (h.all d)) (by simp) fun e _ he => ?_
      by_contra hne
      have hed : e ≠ d := by simpa using hne
      simp [hed, hnone] at he
    · have hused : s.Used d := by simpa [Used, Bcache.recycle, hdb] using hd
      refine find?_of_imp (h.first d hused) (by simp) fun e _ he => ?_
      by_cases heb : e = b
      · subst heb
        simp [hdb, (hnone d).symm] at he
      · simpa [hdb, heb] using he

/-- `brelse` moves the buffer to the front once nobody refers to it. -/
theorem Listed.front (h : Listed s order) (hb : s.Used b) (hlinks : t.links = (s.links.unlink b).push b)
    (hkey : t.key = s.key) (hused : ∀ d, t.Used d → s.Used d) : Listed t (b :: order.erase b) where
  ring := hlinks ▸ Links.ring_front h.ring h.nodup (h.all b)
  nodup := List.nodup_cons.2 ⟨by simp [h.nodup.mem_erase_iff], h.nodup.erase b⟩
  all d := by
    by_cases hd : d = b
    · simp [hd]
    · exact List.mem_cons_of_mem _ ((List.mem_erase_of_ne hd).2 (h.all d))
  first d hd := by
    rw [hkey, List.find?_cons]
    by_cases hk : s.key b = s.key d
    · obtain rfl := h.one hb (hused d hd) hk
      simp
    · obtain ⟨l₁, l₂, -, hl, herase⟩ := List.exists_erase_eq (h.all b)
      have hfirst := h.first d (hused d hd)
      rw [hl, List.find?_append, List.find?_cons] at hfirst
      rw [herase, List.find?_append]
      simpa [hk] using hfirst

theorem Listed.iderw (h : Listed s order) (hb : s.Used b) : Listed (s.iderw b) order := by
  obtain ⟨-, hrefs, -, hkey, hlinks⟩ := s.iderw_same b
  refine h.stay hlinks hkey fun d hd => .inl ?_
  by_cases hdb : d = b
  · rw [hdb]; exact hb
  · unfold Bcache.iderw at hd
    split at hd <;> simpa [Used, hdb] using hd

variable [DecidableEq U] [Fintype U]

omit [DecidableEq U] [Fintype U] in
theorem Listed.release (h : Listed s order) (hb : s.Used b) : ∃ order', Listed (s.release b) order' := by
  obtain ⟨-, -, hkey, -, hvalid, -, -, hrefs⟩ := s.release_same b
  have hused : ∀ d, (s.release b).Used d → s.Used d := by
    intro d hd
    by_cases hdb : d = b
    · rw [hdb]; exact hb
    · simpa [Used, hvalid, hrefs, hdb] using hd
  by_cases h0 : (s.release b).refcnt b = 0
  · refine ⟨_, h.front hb ?_ hkey hused⟩
    rw [hrefs] at h0
    dsimp only [Bcache.release]
    rw [if_pos h0]
  · refine ⟨order, h.stay ?_ hkey fun d hd => .inl (hused d hd)⟩
    rw [hrefs] at h0
    dsimp only [Bcache.release]
    rw [if_neg h0]

omit [Fintype U] in
theorem Listed.goto (h : Listed s order) : Listed (s.goto u c) order := h.stay rfl rfl fun _ => .inl

theorem step_listed (h : Listed s order) (hc : Counted s) {a : BioAct U D} (hs : s.step (u, a) = some s') :
    ∃ order', Listed s' order' := by
  cases step_move hs with
  | @hit b k hu hb =>
    refine ⟨order, h.stay rfl rfl fun d hd => ?_⟩
    by_cases hdb : d = b
    · subst hdb
      rw [cachedAt_key hb, ← h.cachedAt_eq]
      exact .inr hb
    · exact .inl (by simpa [Used, goto, hdb] using hd)
  | recycle hu hk hb => exact ⟨order, (h.recycle hk).goto⟩
  | full | store | logWrite | lock | found => exact ⟨order, h.stay rfl rfl fun _ => .inl⟩
  | @bwrite b k hu =>
    rw [Bcache.bwrite, if_neg (not_not.2 ((hc.lock b u).2 hu.locks))]
    exact ⟨order, h.stay rfl rfl fun _ => .inl⟩
  | @brelse b k hu =>
    rw [Bcache.brelse, if_neg (not_not.2 ((hc.lock b u).2 (by rw [hu]; rfl)))]
    exact ⟨order, h.stay rfl rfl fun _ => .inl⟩
  | @read b k hu hv =>
    rw [transfer_eq ((hc.lock b u).2 (by rw [hu]; rfl)) (.inl hv)]
    exact ⟨order, (h.iderw (.inl (hc.ref_pos (u := u) (by rw [hu]; rfl)))).goto⟩
  | @write b k hu =>
    rw [transfer_eq ((hc.lock b u).2 (by rw [hu]; rfl)) (.inr (hc.writing u b k hu))]
    exact ⟨order, (h.iderw (.inl (hc.ref_pos (u := u) (by rw [hu]; rfl)))).goto⟩
  | @release b hu =>
    obtain ⟨order', h'⟩ := h.release (.inl (hc.ref_pos (u := u) (b := b) (by rw [hu]; rfl)))
    exact ⟨order', h'.goto⟩

/-! ## The contents -/

/-- The last stores for each block are `m`: they are in the block's valid buffer, or on the
disk. A valid buffer that is not dirty is a copy of the disk block, unless its holder has a
change in it that it has not handed on. -/
structure Faithful (s : Bcache U D) (m : BlockId → D) : Prop where
  pinned : ∀ b, s.dirty b = true → s.valid b = true
  held : ∀ u b, (s.pc u).has = some b → s.valid b = true
  data : ∀ b, s.valid b = true → s.data b = m (s.key b)
  disk : ∀ k, (∀ b, s.valid b = true → s.key b ≠ k) → s.disk k = m k
  clean : ∀ b, s.valid b = true → s.dirty b = false → (∀ u k, s.pc u ≠ .changed b k) →
    s.disk (s.key b) = s.data b

variable {m : BlockId → D}

omit [Fintype U] in
/-- A step that moves no bytes and changes no flags. -/
theorem Faithful.stay (h : Faithful s m) (hpc : t.pc = s.pc) (hkey : t.key = s.key) (hvalid : t.valid = s.valid)
    (hdirty : t.dirty = s.dirty) (hdata : t.data = s.data) (hdisk : t.disk = s.disk)
    (hc : ∀ b, c.has = some b → s.valid b = true) (hu : ∀ b k, s.pc u ≠ .changed b k) :
    Faithful (t.goto u c) m where
  pinned b := by show t.dirty b = true → t.valid b = true; rw [hdirty, hvalid]; exact h.pinned b
  held v b hb := by
    show t.valid b = true
    rw [hvalid]
    by_cases hv : v = u
    · subst hv; exact hc b (by simpa [goto] using hb)
    · exact h.held v b (by simpa [goto, hv, hpc] using hb)
  data b := by
    show t.valid b = true → t.data b = m (t.key b)
    rw [hvalid, hdata, hkey]; exact h.data b
  disk k := by
    show (∀ b, t.valid b = true → t.key b ≠ k) → t.disk k = m k
    rw [hvalid, hkey, hdisk]; exact h.disk k
  clean b hb hd hno := by
    show t.disk (t.key b) = t.data b
    rw [hdisk, hkey, hdata]
    refine h.clean b (hvalid ▸ hb) (hdirty ▸ hd) fun v k hv => ?_
    by_cases hvu : v = u
    · subst hvu; exact hu b k hv
    · exact hno v k (by simpa [goto, hvu, hpc] using hv)

/-- A recycled buffer takes nothing with it. -/
theorem Faithful.recycle (h : Faithful s m) (hc : Counted s) (hb : s.refcnt b = 0 ∧ s.dirty b = false)
    (hu : s.pc u = .idle) : Faithful ((s.recycle b k).goto u (.asleep b k)) m where
  pinned d := by
    by_cases hd : d = b
    · subst hd; simp [goto, Bcache.recycle]
    · simpa [goto, Bcache.recycle, hd] using h.pinned d
  held v d hv := by
    by_cases hvu : v = u
    · subst hvu; simp [goto, BioPc.has] at hv
    · have hv' : (s.pc v).has = some d := by simpa [goto, Bcache.recycle, hvu] using hv
      have hd : d ≠ b := by
        rintro rfl
        exact hc.ref_ne hb.1 v (BioPc.ref_of_has hv')
      simpa [goto, Bcache.recycle, hd] using h.held v d hv'
  data d := by
    by_cases hd : d = b
    · subst hd; simp [goto, Bcache.recycle]
    · simpa [goto, Bcache.recycle, hd] using h.data d
  disk j hj := by
    show s.disk j = m j
    by_cases hbj : s.valid b = true ∧ s.key b = j
    · obtain ⟨hv, rfl⟩ := hbj
      have hno : ∀ v k, s.pc v ≠ .changed b k := fun v k hv => hc.ref_ne hb.1 v (by rw [hv]; rfl)
      rw [h.clean b hv hb.2 hno, h.data b hv]
    · refine h.disk j fun d hd hkey => ?_
      have hdb : d ≠ b := by rintro rfl; exact hbj ⟨hd, hkey⟩
      refine hj d ?_ ?_
      · simpa [goto, Bcache.recycle, hdb] using hd
      · simpa [goto, Bcache.recycle, hdb] using hkey
  clean d hv hd hno := by
    have hdb : d ≠ b := by rintro rfl; simp [goto, Bcache.recycle] at hv
    have := h.clean d (by simpa [goto, Bcache.recycle, hdb] using hv)
      (by simpa [goto, Bcache.recycle, hdb] using hd) fun v j hch => ?_
    · simpa [goto, Bcache.recycle, hdb] using this
    · by_cases hvu : v = u
      · subst hvu; rw [hu] at hch; cases hch
      · exact hno v j (by simpa [goto, Bcache.recycle, hvu] using hch)

/-- A store by the holder is the block's last. -/
theorem Faithful.store (h : Faithful s m) (hl : Listed s order) (hc : Counted s) (hu : (s.pc u).Holds b k) (x : D) :
    Faithful (s.store u b k x) (Function.update m k x) := by
  have hvalid : s.valid b = true := h.held u b hu.has
  have hkey : s.key b = k := hc.keys u b k hu.for
  have hother : ∀ d, d ≠ b → s.valid d = true → s.key d ≠ k := by
    intro d hd hv hk
    exact hd (hl.one (.inr hv) (.inr hvalid) (hk.trans hkey.symm))
  constructor
  · exact h.pinned
  · intro v d hv
    by_cases hvu : v = u
    · subst hvu
      have hdb : b = d := by simpa [Bcache.store, goto, BioPc.has] using hv
      exact hdb ▸ hvalid
    · exact h.held v d (by simpa [Bcache.store, goto, hvu] using hv)
  · intro d hv
    show Function.update s.data b x d = Function.update m k x (s.key d)
    by_cases hd : d = b
    · subst hd; rw [hkey, Function.update_self, Function.update_self]
    · rw [Function.update_of_ne hd, Function.update_of_ne (hother d hd hv)]
      exact h.data d hv
  · intro j hj
    have hjk : j ≠ k := by rintro rfl; exact hj b hvalid hkey
    rw [Function.update_of_ne hjk]
    exact h.disk j hj
  · intro d hv hd hno
    show s.disk (s.key d) = Function.update s.data b x d
    have hdb : d ≠ b := by rintro rfl; exact hno u k (by simp [Bcache.store, goto])
    rw [Function.update_of_ne hdb]
    refine h.clean d hv hd fun v j hch => ?_
    by_cases hvu : v = u
    · subst hvu
      rcases hu with hu | hu <;> rw [hu] at hch <;> cases hch
      exact hdb rfl
    · exact hno v j (by simpa [Bcache.store, goto, hvu] using hch)

omit [Fintype U] in
/-- `log_write` and `bwrite` pin the buffer that the user holds. -/
theorem Faithful.mark (h : Faithful s m) (hu : (s.pc u).Holds b k) (hb : c.has = some b) :
    Faithful ({ s with dirty := Function.update s.dirty b true }.goto u c) m where
  pinned d hd := by
    by_cases hdb : d = b
    · subst hdb; exact h.held u d hu.has
    · exact h.pinned d (by simpa [goto, hdb] using hd)
  held v d hv := by
    by_cases hvu : v = u
    · subst hvu
      have hbd : c.has = some d := by simpa [goto] using hv
      obtain rfl := Option.some.inj (hb.symm.trans hbd)
      exact h.held v b hu.has
    · exact h.held v d (by simpa [goto, hvu] using hv)
  data := h.data
  disk := h.disk
  clean d hv hd hno := by
    have hdb : d ≠ b := by rintro rfl; simp [goto] at hd
    refine h.clean d hv (by simpa [goto, hdb] using hd) fun v j hch => ?_
    by_cases hvu : v = u
    · subst hvu
      exact hdb (Option.some.inj (by rw [← hu.has, hch]; rfl))
    · exact hno v j (by simpa [goto, hvu] using hch)

/-- A buffer that is not valid is read from the disk. -/
theorem Faithful.read (h : Faithful s m) (hl : Listed s order) (hc : Counted s) (hu : s.pc u = .locked b k)
    (hv : s.valid b = false) : Faithful ((s.iderw b).goto u (.hold b k)) m := by
  have hd : s.dirty b = false := by
    cases hd : s.dirty b with
    | false => rfl
    | true => rw [h.pinned b hd] at hv; cases hv
  have hused : s.Used b := .inl (hc.ref_pos (u := u) (by rw [hu]; rfl))
  have hdisk : s.disk (s.key b) = m (s.key b) := by
    apply h.disk
    intro d hvd hk
    rw [hl.one (.inr hvd) hused hk, hv] at hvd
    cases hvd
  simp only [Bcache.iderw, hd, Bool.false_eq_true, if_false]
  constructor
  · intro d hd'
    by_cases hdb : d = b
    · subst hdb; simp [goto] at hd'
    · simpa [goto, hdb] using h.pinned d (by simpa [goto, hdb] using hd')
  · intro v d hvd
    by_cases hdb : d = b
    · subst hdb; simp [goto]
    · have hvu : v ≠ u := by
        rintro rfl
        exact hdb (by simpa [goto, BioPc.has, eq_comm] using hvd)
      simpa [goto, hdb] using h.held v d (by simpa [goto, hvu] using hvd)
  · intro d hvd
    by_cases hdb : d = b
    · subst hdb; simpa [goto] using hdisk
    · simpa [goto, hdb] using h.data d (by simpa [goto, hdb] using hvd)
  · intro j hj
    refine h.disk j fun d hvd => ?_
    have hdb : d ≠ b := by rintro rfl; rw [hv] at hvd; cases hvd
    exact hj d (by simpa [goto, hdb] using hvd)
  · intro d hvd hd' hno
    by_cases hdb : d = b
    · subst hdb; simp [goto]
    · have := h.clean d (by simpa [goto, hdb] using hvd) (by simpa [goto, hdb] using hd') fun v j hch => ?_
      · simpa [goto, hdb] using this
      · have hvu : v ≠ u := by rintro rfl; rw [hu] at hch; cases hch
        exact hno v j (by simpa [goto, hvu] using hch)

/-- A dirty buffer is written to the disk. -/
theorem Faithful.write (h : Faithful s m) (hl : Listed s order) (hc : Counted s) (hu : s.pc u = .writing b k) :
    Faithful ((s.iderw b).goto u (.hold b k)) m := by
  have hv : s.valid b = true := h.held u b (by rw [hu]; rfl)
  have hother : ∀ d, d ≠ b → s.valid d = true → s.key d ≠ s.key b :=
    fun d hd hvd hk => hd (hl.one (.inr hvd) (.inr hv) hk)
  have hvalid : Function.update s.valid b true = s.valid := by rw [← hv]; exact Function.update_eq_self _ _
  simp only [Bcache.iderw, hc.writing u b k hu, if_true, hvalid]
  constructor
  · intro d hd'
    have hdb : d ≠ b := by rintro rfl; simp [goto] at hd'
    exact h.pinned d (by simpa [goto, hdb] using hd')
  · intro v d hvd
    by_cases hvu : v = u
    · subst hvu
      have hbd : b = d := by simpa [goto, BioPc.has] using hvd
      exact hbd ▸ hv
    · exact h.held v d (by simpa [goto, hvu] using hvd)
  · exact h.data
  · intro j hj
    have hjb : j ≠ s.key b := fun hjb => hj b hv hjb.symm
    simpa [goto, hjb] using h.disk j hj
  · intro d hvd hd' hno
    by_cases hdb : d = b
    · subst hdb; simp [goto]
    · have := h.clean d hvd (by simpa [goto, hdb] using hd') fun v j hch => ?_
      · simpa [goto, hother d hdb hvd] using this
      · have hvu : v ≠ u := by rintro rfl; rw [hu] at hch; cases hch
        exact hno v j (by simpa [goto, hvu] using hch)

omit [Fintype U] in
/-- The bytes that a step stores for a block. -/
def stored (s : Bcache U D) (l : U × BioAct U D) : Option (BlockId × D) :=
  match s.pc l.1, l.2 with
  | .hold _ k, .modify x | .changed _ k, .modify x => some (k, x)
  | .hold _ k, .copy v | .changed _ k, .copy v => (s.source v).map (k, ·)
  | _, _ => none

theorem step_faithful (h : Faithful s m) (hl : Listed s order) (hc : Counted s) {a : BioAct U D}
    (hs : s.step (u, a) = some s') : Faithful s' (Writes.apply m (s.stored (u, a)).toList) := by
  cases step_move hs with
  | hit hu hb =>
    simp only [stored, hu]
    exact h.stay rfl rfl rfl rfl rfl rfl (by simp [BioPc.has]) (by simp [hu])
  | recycle hu hk hb =>
    simp only [stored, hu]
    exact h.recycle hc (unused_spec hb) hu
  | full hu =>
    simp only [stored, hu]
    exact h.stay rfl rfl rfl rfl rfl rfl (by simp [BioPc.has]) (by simp [hu])
  | @store a b k x hu ha =>
    have hst : s.stored (u, a) = some (k, x) := by
      rcases ha with rfl | ⟨v, rfl, hx⟩ <;> rcases hu with hu | hu <;> simp [stored, *]
    rw [hst]
    exact h.store hl hc hu x
  | logWrite hu =>
    have hst : s.stored (u, .logWrite) = none := by rcases hu with hu | hu <;> simp [stored, hu]
    rw [hst]
    exact h.mark hu rfl
  | @bwrite b k hu =>
    have hst : s.stored (u, .bwrite) = none := by rcases hu with hu | hu <;> simp [stored, hu]
    rw [hst, Bcache.bwrite, if_neg (not_not.2 ((hc.lock b u).2 hu.locks))]
    exact h.mark hu rfl
  | @brelse b k hu =>
    rw [Bcache.brelse, if_neg (not_not.2 ((hc.lock b u).2 (by rw [hu]; rfl)))]
    simp only [stored, hu]
    exact h.stay rfl rfl rfl rfl rfl rfl (by simp [BioPc.has]) (by simp [hu])
  | lock hu hlock =>
    simp only [stored, hu]
    exact h.stay rfl rfl rfl rfl rfl rfl (by simp [BioPc.has]) (by simp [hu])
  | found hu hv =>
    simp only [stored, hu]
    exact h.stay rfl rfl rfl rfl rfl rfl (by simpa [BioPc.has] using hv) (by simp [hu])
  | @read b k hu hv =>
    rw [transfer_eq ((hc.lock b u).2 (by rw [hu]; rfl)) (.inl hv)]
    simp only [stored, hu]
    exact h.read hl hc hu hv
  | @write b k hu =>
    rw [transfer_eq ((hc.lock b u).2 (by rw [hu]; rfl)) (.inr (hc.writing u b k hu))]
    simp only [stored, hu]
    exact h.write hl hc hu
  | @release b hu =>
    obtain ⟨hpc, -, hkey, hdirty, hvalid, hdata, hdisk, -⟩ := s.release_same b
    simp only [stored, hu]
    exact h.stay hpc hkey hvalid hdirty hdata hdisk (by simp [BioPc.has]) (by simp [hu])

omit [Fintype U] in
/-- A dirty buffer is not recycled: it keeps its block, and stays valid. -/
theorem step_dirty {a : BioAct U D} (hd : s.dirty b = true) (hv : s.valid b = true)
    (hs : s.step (u, a) = some s') : s'.key b = s.key b ∧ s'.valid b = true := by
  have hide : ∀ d, (s.iderw d).key = s.key ∧ (s.iderw d).valid b = true := by
    intro d
    refine ⟨(s.iderw_same d).2.2.2.1, ?_⟩
    by_cases hdb : b = d <;> unfold iderw <;> split <;> simp [hdb, hv]
  have htransfer : ∀ d c, (s.transfer u d c).key b = s.key b ∧ (s.transfer u d c).valid b = true := by
    intro d c
    unfold transfer
    split
    · exact ⟨rfl, hv⟩
    · exact ⟨congrFun (hide d).1 b, (hide d).2⟩
  cases step_move hs with
  | hit | full | store | logWrite | lock | found => exact ⟨rfl, hv⟩
  | @recycle d k hu hk hb =>
    have hne : b ≠ d := by
      rintro rfl
      rw [(unused_spec hb).2] at hd
      cases hd
    exact ⟨Function.update_of_ne hne _ _, (Function.update_of_ne hne _ _).trans hv⟩
  | bwrite => unfold Bcache.bwrite; split <;> exact ⟨rfl, hv⟩
  | brelse => unfold Bcache.brelse; split <;> exact ⟨rfl, hv⟩
  | read | write => exact htransfer _ _
  | @release d =>
    obtain ⟨-, -, hkey, -, hvalid, -⟩ := s.release_same d
    exact ⟨congrFun hkey b, (congrFun hvalid b).trans hv⟩

/-! ## The cache from `binit` on -/

variable (disk : BlockId → D) (bytes : Buf → D)

omit [DecidableEq U] in
theorem counted_init : Counted (binit disk bytes : Bcache U D) where
  refs b := by simp [binit, BioPc.share, BioPc.ref]
  lock b u := by simp [binit, BioPc.locks]
  keys u b k h := by cases h
  writing u b k h := by cases h

omit [DecidableEq U] [Fintype U] in
theorem listed_init : Listed (binit disk bytes : Bcache U D) (List.finRange NBUF).reverse where
  ring := by
    have hempty : Links.Ring (⟨fun _ => none, fun _ => none⟩ : Links Buf) [] := ⟨rfl, rfl⟩
    have hnodup : ((List.finRange NBUF).reverse ++ []).Nodup := by simpa using List.nodup_finRange NBUF
    have h := Links.ring_foldl_push hempty hnodup
    rw [List.append_nil] at h
    exact h
  nodup := List.nodup_reverse.2 (List.nodup_finRange NBUF)
  all b := by simp
  first b h := by rcases h with h | h <;> simp [binit] at h

omit [DecidableEq U] [Fintype U] in
theorem faithful_init : Faithful (binit disk bytes : Bcache U D) disk where
  pinned b h := by cases h
  held u b h := by cases h
  data b h := by cases h
  disk k _ := rfl
  clean b h := by cases h

end Bcache

/-- The cache with its past: the bytes stored for blocks, in order. -/
structure Past (U D : Type) where
  cache : Bcache U D
  stores : List (BlockId × D)

namespace Past

variable [DecidableEq U]

def step (h : Past U D) (l : U × BioAct U D) : Option (Past U D) :=
  (h.cache.step l).map fun s => ⟨s, h.stores ++ (h.cache.stored l).toList⟩

def init (disk : BlockId → D) (bytes : Buf → D) : Past U D := ⟨.binit disk bytes, []⟩

end Past

/-- In every run from `binit`: a buffer that `bread` has returned for a block holds the
bytes last stored for it, or those of the disk if there were none; a block has at most one
buffer that is referenced or valid; no step recycles a dirty buffer; and the links form one
ring of all buffers. -/
theorem cache_transparent [DecidableEq U] [Fintype U] {disk : BlockId → D} {bytes : Buf → D} {h : Past U D}
    (hr : Run Past.step (fun _ _ => True) (Past.init disk bytes) h) :
    (∀ u b k, h.cache.pc u = .hold b k →
      h.cache.key b = k ∧ h.cache.data b = Writes.apply disk h.stores k) ∧
    (∀ b b', h.cache.Used b → h.cache.Used b' → h.cache.key b = h.cache.key b' → b = b') ∧
    (∀ l s', h.cache.step l = some s' → ∀ b, h.cache.dirty b = true →
      s'.key b = h.cache.key b ∧ s'.valid b = true) ∧
    ∃ order : List Buf, order.Nodup ∧ (∀ b, b ∈ order) ∧ h.cache.links.Ring order := by
  have hinv := hr.inv (fun h => h.cache.Counted ∧ (∃ order, h.cache.Listed order) ∧
      h.cache.Faithful (Writes.apply disk h.stores)) ?_
    ⟨Bcache.counted_init disk bytes, ⟨_, Bcache.listed_init disk bytes⟩, Bcache.faithful_init disk bytes⟩
  · obtain ⟨hc, ⟨order, hl⟩, hf⟩ := hinv
    refine ⟨?_, fun b b' => hl.one, ?_, order, hl.nodup, hl.all, hl.ring⟩
    · intro u b k hu
      have hkey : h.cache.key b = k := hc.keys u b k (by rw [hu]; exact ⟨rfl, rfl⟩)
      refine ⟨hkey, ?_⟩
      rw [hf.data b (hf.held u b (by rw [hu]; rfl)), hkey]
    · intro l s' hs b hd
      exact Bcache.step_dirty hd (hf.pinned b hd) hs
  · rintro h l h' ⟨hc, ⟨order, hl⟩, hf⟩ - ht
    obtain ⟨s, hs, rfl⟩ := Option.map_eq_some_iff.1 ht
    refine ⟨Bcache.step_counted hc hs, Bcache.step_listed hl hc hs, ?_⟩
    rw [Writes.apply_append]
    exact Bcache.step_faithful hf hl hc hs

/-- A user reads a block, and releases it. -/
def visit (u : U) (k : BlockId) : List (U × BioAct U D) :=
  [(u, .bread k), (u, .next), (u, .next), (u, .brelse), (u, .next)]

/-- A block is changed and written, and read again after as many other blocks as there are
buffers. -/
def evicting : List (Fin 1 × BioAct (Fin 1) Nat) :=
  [(0, .bread (1, 0)), (0, .next), (0, .next), (0, .modify 7), (0, .bwrite), (0, .next), (0, .brelse), (0, .next)] ++
    (List.range' 1 30).flatMap (fun n => visit 0 (1, n)) ++ [(0, .bread (1, 0)), (0, .next), (0, .next)]

theorem evicting_reads_back : ∃ (h : Past (Fin 1) Nat) (b : Buf), h.stores = [((1, 0), 7)] ∧
    h.cache.pc 0 = .hold b (1, 0) ∧ h.cache.data b = 7 ∧
    ∃ order : List Buf, order.Nodup ∧ (∀ b, b ∈ order) ∧ h.cache.links.Ring order := by
  have h : ((exec (checked Past.step fun _ _ => true) (Past.init (fun _ => 0) (fun _ => 0)) evicting).map fun h =>
      (h.stores, (List.finRange NBUF).any fun b => h.cache.pc 0 = .hold b (1, 0))) =
        some ([((1, 0), 7)], true) := by decide +kernel
  obtain ⟨h, hrun, hend⟩ := Option.map_eq_some_iff.1 h
  simp only [Prod.mk.injEq, List.any_eq_true, decide_eq_true_eq] at hend
  obtain ⟨hstores, b, -, hpc⟩ := hend
  have hall := cache_transparent (run_of_checked (fun _ _ _ => trivial) hrun)
  have hdata := (hall.1 0 b (1, 0) hpc).2
  rw [hstores] at hdata
  exact ⟨h, b, hstores, hpc, hdata, hall.2.2.2⟩

end Xv6
