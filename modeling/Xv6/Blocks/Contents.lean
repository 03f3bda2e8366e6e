import Mathlib.Algebra.Order.BigOperators.Group.Finset
import Xv6.Blocks.Alloc
/-!
# The contents of an inode (fs.c)

Byte `p` of an inode is in the block that block `p / BSIZE` of it leads to. The
loop of `writei` goes block by block: `Wrote` says what it has done after some
rounds, and two stretches that follow each other are put together by
`Wrote.trans`. It also counts the blocks that were allocated and logged, since
`writei` must neither run out of blocks nor of log space.
-/

namespace Xv6

open Bytes Outcome

namespace Volume

variable {s s' s₁ : Volume} {T : Nat → Dinode} {i j a : Nat} {ip ip' ip₁ : Dinode} {src : Nat → BitVec 8}
  {off tot n m p : Nat}

/-- Byte `p` of an inode; bytes of a hole are zero. -/
def content (s : Volume) (ip : Dinode) (p : Nat) : BitVec 8 :=
  if ip.ptr s.block (.data (p / BSIZE)) = 0 then 0
  else s.block (ip.ptr s.block (.data (p / BSIZE))) (BitVec.ofNat 9 (p % BSIZE))

/-- The blocks of the bytes from `off` to `off + n`. -/
def touched (off n : Nat) : Finset Nat := (Finset.range n).image fun k => (off + k) / BSIZE

/-- 1 for a block that is not there. -/
def missing (s : Volume) (ip : Dinode) (bn : Nat) : Nat := if ip.ptr s.block (.data bn) = 0 then 1 else 0

theorem mem_touched {bn : Nat} : bn ∈ touched off n ↔ ∃ k, k < n ∧ (off + k) / BSIZE = bn := by
  simp [touched]

theorem touched_add : touched off (m + n) = touched off m ∪ touched (off + m) n := by
  ext bn
  rw [Finset.mem_union, mem_touched, mem_touched, mem_touched]
  constructor
  · rintro ⟨k, hk, rfl⟩
    rcases Nat.lt_or_ge k m with hkm | hkm
    · exact .inl ⟨k, hkm, rfl⟩
    · exact .inr ⟨k - m, by omega, by rw [Nat.add_assoc, Nat.add_sub_cancel' hkm]⟩
  · rintro (⟨k, hk, rfl⟩ | ⟨k, hk, rfl⟩)
    · exact ⟨k, by omega, rfl⟩
    · exact ⟨m + k, by omega, by rw [Nat.add_assoc]⟩

theorem touched_disjoint (h : 0 < n → BSIZE ∣ off + m) : Disjoint (touched off m) (touched (off + m) n) := by
  refine Finset.disjoint_left.2 fun bn hbn hbn' => ?_
  obtain ⟨k, hk, rfl⟩ := mem_touched.1 hbn
  obtain ⟨k', hk', heq⟩ := mem_touched.1 hbn'
  have := h (by omega)
  unfold BSIZE at *
  omega

/-- The bytes of one round are in one block. -/
theorem touched_round (hm : 0 < m) (hblk : off % BSIZE + m ≤ BSIZE) : touched off m = {off / BSIZE} := by
  ext bn
  rw [mem_touched, Finset.mem_singleton]
  unfold BSIZE at *
  constructor
  · rintro ⟨k, hk, rfl⟩
    omega
  · rintro rfl
    exact ⟨0, hm, rfl⟩

theorem touched_lt {bn : Nat} (h : off + n ≤ MAXFILE * BSIZE) (hbn : bn ∈ touched off n) : bn < MAXFILE := by
  obtain ⟨k, hk, rfl⟩ := mem_touched.1 hbn
  unfold BSIZE at *
  omega

/-! ## What a stretch of the loop does -/

structure Wrote (s : Volume) (T : Nat → Dinode) (i : Nat) (src : Nat → BitVec 8) (off tot n : Nat) (ip' : Dinode)
    (s' : Volume) : Prop where
  own : Own s' (Function.update T i ip')
  fields : ∃ addrs, ip' = { T i with addrs }
  sb : s'.sb = s.sb
  dinode : s'.dinode = s.dinode
  keep : ∀ y, (T i).ptr s.block y ≠ 0 → ip'.ptr s'.block y = (T i).ptr s.block y
  there : ∀ bn ∈ touched off n, ip'.ptr s'.block (.data bn) ≠ 0
  rest : ∀ bn, bn < MAXFILE → bn ∉ touched off n → ip'.ptr s'.block (.data bn) = (T i).ptr s.block (.data bn)
  inside : ∀ k, k < n → s'.content ip' (off + k) = src (tot + k)
  outside : ∀ p, p / BSIZE < MAXFILE → p < off ∨ off + n ≤ p → (T i).ptr s.block (.data (p / BSIZE)) ≠ 0 →
    s'.content ip' p = s.content (T i) p
  beyond : ∀ p, p / BSIZE < MAXFILE → off + n ≤ p → (T i).ptr s.block (.data (p / BSIZE)) = 0 → s'.content ip' p = 0
  other : ∀ j, j ≠ i → s.Live T j → ∀ y, (T j).ptr s'.block y = (T j).ptr s.block y
  data : ∀ j y, j ≠ i → s.Live T j → y ≠ .addr indirect → (T j).ptr s.block y ≠ 0 →
    s'.block ((T j).ptr s.block y) = s.block ((T j).ptr s.block y)
  quiet : (∀ bn ∈ touched off n, (T i).ptr s.block (.data bn) ≠ 0) → ip' = T i
  room : s.free.card + ip'.lack ≤ s'.free.card + (T i).lack + ∑ bn ∈ touched off n, s.missing (T i) bn
  logged : ∃ D : Finset Nat, D.card ≤ ∑ bn ∈ touched off n, (1 + s.missing (T i) bn) ∧ ∀ c ∈ s'.logged,
    c ∈ s.logged ∨ c ∈ D ∨
    ip'.addrs indirect ≠ 0 ∧ (c = ip'.addrs indirect ∨ c = s.sb.BBLOCK (ip'.addrs indirect))

/-- Nothing is left to write. -/
theorem Wrote.refl (h : Own s T) : Wrote s T i src off tot 0 (T i) s := by
  refine ⟨by rwa [Function.update_eq_self], ⟨_, rfl⟩, rfl, rfl, fun _ _ => rfl, fun bn hbn => ?_, fun _ _ _ => rfl,
    fun k hk => absurd hk (Nat.not_lt_zero k), fun _ _ _ _ => rfl, fun _ _ _ h0 => if_pos h0, fun _ _ _ _ => rfl,
    fun _ _ _ _ _ _ => rfl, fun _ => rfl, Nat.le_add_right .., ∅, Nat.zero_le _, fun _ => .inl⟩
  obtain ⟨k, hk, -⟩ := mem_touched.1 hbn
  exact absurd hk (Nat.not_lt_zero k)

theorem Wrote.live (h : Wrote s T i src off tot n ip' s') (hj : s.Live T j) : s'.Live (Function.update T i ip') j := by
  obtain ⟨addrs, hip⟩ := h.fields
  rw [hip]
  exact (live_congr h.sb).2 (live_update.2 hj)

/-- The blocks of later bytes are there or missing as before. -/
theorem Wrote.missing_eq {bn : Nat} (h : Wrote s T i src off tot m ip₁ s₁) (hmax : off + m + n ≤ MAXFILE * BSIZE)
    (hdisj : Disjoint (touched off m) (touched (off + m) n)) (hbn : bn ∈ touched (off + m) n) :
    s₁.missing ip₁ bn = s.missing (T i) bn := by
  unfold missing
  rw [h.rest bn (touched_lt hmax hbn) fun hbn' => Finset.disjoint_left.1 hdisj hbn' hbn]

theorem Wrote.sum_missing (h : Wrote s T i src off tot m ip₁ s₁) (hmax : off + m + n ≤ MAXFILE * BSIZE)
    (hdisj : Disjoint (touched off m) (touched (off + m) n)) :
    ∑ bn ∈ touched (off + m) n, s₁.missing ip₁ bn = ∑ bn ∈ touched (off + m) n, s.missing (T i) bn :=
  Finset.sum_congr rfl fun _ hbn => h.missing_eq hmax hdisj hbn

/-- Two stretches, one after the other. -/
theorem Wrote.trans (h₁ : Wrote s T i src off tot m ip₁ s₁)
    (h₂ : Wrote s₁ (Function.update T i ip₁) i src (off + m) (tot + m) n ip' s')
    (hmax : off + (m + n) ≤ MAXFILE * BSIZE) (hdisj : Disjoint (touched off m) (touched (off + m) n)) :
    Wrote s T i src off tot (m + n) ip' s' := by
  have hT : Function.update T i ip₁ i = ip₁ := Function.update_self ..
  have hTne : ∀ j, j ≠ i → Function.update T i ip₁ j = T j := fun j hj => Function.update_of_ne hj ..
  obtain ⟨addrs₁, hip₁⟩ := h₁.fields
  obtain ⟨addrs₂, hip₂⟩ := h₂.fields
  rw [hT, hip₁] at hip₂
  have hkeep₂ : ∀ y, ip₁.ptr s₁.block y ≠ 0 → ip'.ptr s'.block y = ip₁.ptr s₁.block y := by
    have := h₂.keep
    rwa [hT] at this
  have hrest₂ := h₂.rest
  have hout₂ := h₂.outside
  have hroom₂ := h₂.room
  obtain ⟨D₁, hD₁, hlog₁⟩ := h₁.logged
  obtain ⟨D₂, hD₂, hlog₂⟩ := h₂.logged
  rw [hT] at hrest₂ hout₂ hroom₂ hD₂
  refine
    { own := ?_
      fields := ⟨addrs₂, hip₂⟩
      sb := h₂.sb.trans h₁.sb
      dinode := h₂.dinode.trans h₁.dinode
      keep := fun y hy => ?_
      there := fun bn hbn => ?_
      rest := fun bn hlt hbn => ?_
      inside := fun k hk => ?_
      outside := fun p hlt hp hne => ?_
      beyond := fun p hlt hp h0 => ?_
      other := fun j hj hlj y => ?_
      data := fun j y hj hlj hyi hy => ?_
      quiet := fun hthere => ?_
      room := ?_
      logged := ⟨D₁ ∪ D₂, ?_, fun c hc => ?_⟩ }
  · rw [← Function.update_idem]
    exact h₂.own
  · have h := h₁.keep y hy
    rw [hkeep₂ y (h.trans_ne hy), h]
  · rw [touched_add, Finset.mem_union] at hbn
    rcases hbn with hbn | hbn
    · rw [hkeep₂ _ (h₁.there bn hbn)]
      exact h₁.there bn hbn
    · exact h₂.there bn hbn
  · rw [touched_add, Finset.mem_union, not_or] at hbn
    rw [hrest₂ bn hlt hbn.2, h₁.rest bn hlt hbn.1]
  · rcases Nat.lt_or_ge k m with hkm | hkm
    · have hbn : (off + k) / BSIZE ∈ touched off m := mem_touched.2 ⟨k, hkm, rfl⟩
      rw [hout₂ _ (touched_lt (by omega) hbn) (.inl (by omega)) (h₁.there _ hbn)]
      exact h₁.inside k hkm
    · have := h₂.inside (k - m) (by omega)
      rwa [Nat.add_assoc, Nat.add_assoc, Nat.add_sub_cancel' hkm] at this
  · have h := h₁.keep _ hne
    rw [hout₂ p hlt (by omega) (h.trans_ne hne)]
    exact h₁.outside p hlt (by omega) hne
  · have hbeyond₂ := h₂.beyond p hlt (by omega)
    rw [hT] at hbeyond₂
    by_cases h1 : ip₁.ptr s₁.block (.data (p / BSIZE)) = 0
    · exact hbeyond₂ h1
    · rw [hout₂ p hlt (by omega) h1]
      exact h₁.beyond p hlt (by omega) h0
  · have := h₂.other j hj (h₁.live hlj) y
    rw [hTne j hj] at this
    exact this.trans (h₁.other j hj hlj y)
  · have hsame := h₁.other j hj hlj y
    have := h₂.data j y hj (h₁.live hlj) hyi (by rw [hTne j hj, hsame]; exact hy)
    rw [hTne j hj, hsame] at this
    exact this.trans (h₁.data j y hj hlj hyi hy)
  · rw [touched_add] at hthere
    have hip : ip₁ = T i := h₁.quiet fun bn hbn => hthere bn (Finset.mem_union_left _ hbn)
    have hquiet₂ := h₂.quiet
    rw [hT] at hquiet₂
    refine (hquiet₂ fun bn hbn => ?_).trans hip
    have hne := hthere bn (Finset.mem_union_right _ hbn)
    rw [h₁.keep _ hne]
    exact hne
  · rw [touched_add, Finset.sum_union hdisj]
    have hroom₁ := h₁.room
    have hsum := h₁.sum_missing (by omega) hdisj
    omega
  · rw [touched_add, Finset.sum_union hdisj]
    have hcard := Finset.card_union_le D₁ D₂
    have hsum : ∑ bn ∈ touched (off + m) n, (1 + s₁.missing ip₁ bn) =
        ∑ bn ∈ touched (off + m) n, (1 + s.missing (T i) bn) :=
      Finset.sum_congr rfl fun bn hbn => congrArg (1 + ·) (h₁.missing_eq (by omega) hdisj hbn)
    omega
  · rw [h₁.sb] at hlog₂
    rcases hlog₂ c hc with hc | hc | hc
    · rcases hlog₁ c hc with hc | hc | ⟨hne, hc⟩
      · exact .inl hc
      · exact .inr (.inl (Finset.mem_union_left _ hc))
      · have hI : ip'.addrs indirect = ip₁.addrs indirect := hkeep₂ (.addr indirect) hne
        rw [hI]
        exact .inr (.inr ⟨hne, hc⟩)
    · exact .inr (.inl (Finset.mem_union_right _ hc))
    · exact .inr (.inr hc)

/-! ## One round -/

/-- Changing a data block changes no pointer. -/
theorem Own.ptr_logWrite {x y : Place} {data : Block} (h : Own s T) (hi : s.Live T i) (hj : s.Live T j)
    (hx : x ≠ .addr indirect) (hne : (T i).ptr s.block x ≠ 0) :
    (T j).ptr (s.logWrite ((T i).ptr s.block x) data).block y = (T j).ptr s.block y := by
  refine ptr_congr (fun _ => Function.update_of_ne (fun heq => ?_) ..) y
  exact hx (h.place_inj (y := .addr indirect) hi hj hne heq.symm).2

theorem used_logWrite {b c : Nat} {data : Block} (hb : b ∈ s.sb.dataArea) (hc : c < s.sb.size) :
    (s.logWrite b data).used c = s.used c := by
  refine used_congr rfl hc fun d hd => Function.update_of_ne ?_ ..
  rintro rfl
  exact absurd hb.1 (Nat.not_le.2 hd)

theorem Own.logWrite {x : Place} {data : Block} (h : Own s T) (hi : s.Live T i) (hx : x ≠ .addr indirect)
    (hne : (T i).ptr s.block x ≠ 0) : Own (s.logWrite ((T i).ptr s.block x) data) T := by
  have hused : ∀ c, c < s.sb.size → (s.logWrite ((T i).ptr s.block x) data).used c = s.used c :=
    fun c => used_logWrite (h.mem_data hi hne)
  refine ⟨h.toOwns.congr (fun p => ?_) fun c hc => Bool.eq_iff_iff.1 (hused c hc.2), fun c hc hlt => ?_, h.small⟩
  · exact pt_congr (live_congr rfl) fun hj => h.ptr_logWrite hi hj hx hne
  · exact (hused c hlt).trans (h.reserved c hc hlt)

theorem Bmapped.kept {bn : Nat} (h : Bmapped s T i bn a ip₁ s₁) (y : Place) (hy : (T i).ptr s.block y ≠ 0) :
    ip₁.ptr s₁.block y = (T i).ptr s.block y := by
  by_cases hdata : y = .data bn
  · subst hdata
    rw [(h.old hy).1, (h.old hy).2]
  · by_cases hind : y = .addr indirect
    · subst hind
      exact h.keep hy
    · exact h.ptr y hdata hind

theorem toNat_mod_BSIZE (p : Nat) : (BitVec.ofNat 9 (p % BSIZE)).toNat = p % BSIZE :=
  (BitVec.toNat_ofNat ..).trans (Nat.mod_eq_of_lt (Nat.mod_lt _ (by decide)))

/-- A byte of the block that is not among those written. -/
theorem write_byte_outside {b : Block} {p : Nat} {f : Nat → BitVec 8} (hblk : off % BSIZE + m ≤ BSIZE)
    (hp : p / BSIZE = off / BSIZE) (hout : p < off ∨ off + m ≤ p) :
    write b (BitVec.ofNat 9 (off % BSIZE)) m f (BitVec.ofNat 9 (p % BSIZE)) = b (BitVec.ofNat 9 (p % BSIZE)) := by
  refine write_outside (outside_of_toNat ?_ ?_)
  · rw [toNat_mod_BSIZE]
    exact hblk
  · rw [toNat_mod_BSIZE, toNat_mod_BSIZE]
    unfold BSIZE at *
    omega

/-- A round writes the rest of a block, or what is left. -/
theorem Bmapped.wrote (h : Bmapped s T i (off / BSIZE) a ip₁ s₁) (hi : s.Live T i) (hm : 0 < m)
    (hblk : off % BSIZE + m ≤ BSIZE) (hmax : off + m ≤ MAXFILE * BSIZE) :
    Wrote s T i src off tot m ip₁
      (s₁.logWrite a (write (s₁.block a) (BitVec.ofNat 9 (off % BSIZE)) m fun k => src (tot + k))) := by
  have hT : Function.update T i ip₁ i = ip₁ := Function.update_self ..
  have hTne : ∀ j, j ≠ i → Function.update T i ip₁ j = T j := fun j hj => Function.update_of_ne hj ..
  have hlive : ∀ j, s.Live T j → s₁.Live (Function.update T i ip₁) j := fun j hj => by
    obtain ⟨addrs, hip⟩ := h.fields
    rw [hip]
    exact (live_congr h.sb).2 (live_update.2 hj)
  have hnind : Place.data (off / BSIZE) ≠ .addr indirect := Place.data_ne_indirect _
  have hne : (Function.update T i ip₁ i).ptr s₁.block (.data (off / BSIZE)) ≠ 0 := by
    rw [hT, h.addr]
    exact h.there
  generalize hdata : write (s₁.block a) (BitVec.ofNat 9 (off % BSIZE)) m (fun k => src (tot + k)) = data
  generalize hs₂ : s₁.logWrite a data = s₂
  have hs₂' : s₁.logWrite ((Function.update T i ip₁ i).ptr s₁.block (.data (off / BSIZE))) data = s₂ := by
    rw [hT, h.addr, hs₂]
  have hptr : ∀ j y, s.Live T j → (Function.update T i ip₁ j).ptr s₂.block y = (Function.update T i ip₁ j).ptr s₁.block y := by
    intro j y hj
    rw [← hs₂']
    exact h.own.ptr_logWrite (hlive i hi) (hlive j hj) hnind hne
  have hptri : ∀ y, ip₁.ptr s₂.block y = ip₁.ptr s₁.block y := fun y => by
    have := hptr i y hi
    rwa [hT] at this
  have hblock : ∀ c, c ≠ a → s₂.block c = s₁.block c := fun c hc => by
    rw [← hs₂]
    exact Function.update_of_ne hc ..
  have hblocka : s₂.block a = data := by
    rw [← hs₂]
    exact Function.update_self ..
  have hlt : off / BSIZE < MAXFILE := touched_lt hmax (mem_touched.2 ⟨0, hm, rfl⟩)
  have hround := touched_round hm hblk
  -- the other data blocks are not the one that is written
  have hnea : ∀ j y, s.Live T j → (j ≠ i ∨ y ≠ .data (off / BSIZE)) →
      (Function.update T i ip₁ j).ptr s₁.block y ≠ 0 → (Function.update T i ip₁ j).ptr s₁.block y ≠ a := by
    intro j y hj hjy hy heq
    have hpl := h.own.place_inj (y := .data (off / BSIZE)) (hlive j hj) (hlive i hi) hy (by rw [heq, hT, h.addr])
    exact hjy.elim (· hpl.1) (· hpl.2)
  refine
    { own := ?_
      fields := h.fields
      sb := by rw [← hs₂]; exact h.sb
      dinode := by rw [← hs₂]; exact h.dinode
      keep := fun y hy => (hptri y).trans (h.kept y hy)
      there := fun bn hbn => ?_
      rest := fun bn hbn hne => ?_
      inside := fun k hk => ?_
      outside := fun p hp hout hne => ?_
      beyond := fun p hp hout h0 => ?_
      other := fun j hj hlj y => ?_
      data := fun j y hj hlj hyi hy => ?_
      quiet := fun hthere => (h.old (hthere _ (by rw [hround]; exact Finset.mem_singleton_self _))).1
      room := ?_
      logged := ⟨if (T i).ptr s.block (.data (off / BSIZE)) = 0 then {a, s.sb.BBLOCK a} else {a}, ?_, fun c hc => ?_⟩ }
  · rw [← hs₂']
    exact h.own.logWrite (hlive i hi) hnind hne
  · rw [hround, Finset.mem_singleton] at hbn
    rw [hbn, hptri, h.addr]
    exact h.there
  · rw [hround, Finset.mem_singleton] at hne
    rw [hptri]
    exact h.ptr _ (fun heq => hne (Place.data_inj hbn hlt heq)) (Place.data_ne_indirect bn)
  · have hdiv : (off + k) / BSIZE = off / BSIZE := by
      unfold BSIZE at *
      omega
    have hmod : (off + k) % BSIZE = off % BSIZE + k := by
      unfold BSIZE at *
      omega
    unfold content
    rw [hdiv, hmod, hptri, h.addr, if_neg h.there, hblocka, ← hdata, BitVec.ofNat_add]
    exact write_at hk (hk.trans_le ((Nat.le_add_left ..).trans hblk))
  · unfold content
    have hkept := h.kept _ hne
    rw [hptri, hkept, if_neg hne, if_neg hne]
    by_cases hbn : p / BSIZE = off / BSIZE
    · -- the block was there, and the byte is not among those written
      rw [hbn] at hne hkept ⊢
      have ha : (T i).ptr s.block (.data (off / BSIZE)) = a := hkept.symm.trans h.addr
      rw [ha, hblocka, ← hdata, (h.old hne).2]
      exact write_byte_outside hblk hbn hout
    · have hpne : Place.data (p / BSIZE) ≠ .data (off / BSIZE) := fun heq => hbn (Place.data_inj hp hlt heq)
      have hna := hnea i (.data (p / BSIZE)) hi (.inr hpne)
      rw [hT, hkept] at hna
      rw [hblock _ (hna hne), h.data i _ hi (Place.data_ne_indirect _) hne]
  · unfold content
    rw [hptri]
    by_cases hbn : p / BSIZE = off / BSIZE
    · -- the block is a new one, of zeros
      rw [hbn] at h0 ⊢
      rw [h.addr, if_neg h.there, hblocka, ← hdata, h.zero h0]
      exact write_byte_outside hblk hbn (.inr hout)
    · rw [h.ptr _ (fun heq => hbn (Place.data_inj hp hlt heq)) (Place.data_ne_indirect _)]
      exact if_pos h0
  · have := hptr j y hlj
    rw [hTne j hj] at this
    exact this.trans (h.other j hj hlj y)
  · have hsame := h.other j hj hlj y
    have hna := hnea j y hlj (.inl hj)
    rw [hTne j hj, hsame] at hna
    rw [hblock _ (hna hy)]
    exact h.data j y hlj hyi hy
  · have hfree : s₂.free = s₁.free := by
      rw [← hs₂']
      refine Finset.filter_congr fun c hc => ?_
      rw [used_logWrite (h.own.mem_data (hlive i hi) hne) (Finset.mem_range.1 hc)]
    rw [hround, Finset.sum_singleton, hfree]
    exact h.room
  · rw [hround, Finset.sum_singleton, missing]
    split
    · exact Finset.card_le_two
    · exact (Finset.card_singleton a).le
  · rw [← hs₂, Volume.logWrite, Finset.mem_insert] at hc
    rcases hc with rfl | hc
    · refine .inr (.inl ?_)
      split <;> simp
    · rcases h.logged c hc with hc | hc | ⟨h0, hc⟩
      · exact .inl hc
      · exact .inr (.inr hc)
      · rw [if_pos h0]
        exact .inr (.inl (by simpa using hc))

theorem writeLoop_ends (src : Nat → BitVec 8) (fuel : Nat) (h : Own s T) (hi : s.Live T i) (hn : n ≤ fuel)
    (hmax : off + n ≤ MAXFILE * BSIZE) :
    Ends (fun e => e = .balloc ∧ 0 < ∑ bn ∈ touched off n, s.missing (T i) bn ∧
        s.free.card < (T i).lack + ∑ bn ∈ touched off n, s.missing (T i) bn)
      (writeLoop src fuel s (T i) off tot n) fun r => r.1 = off + n ∧ Wrote s T i src off tot n r.2.1 r.2.2 := by
  -- by induction on the fuel: the rounds still to come start from what `bmap` and the copy have left
  induction fuel generalizing s T off tot n with
  | zero =>
    obtain rfl : n = 0 := Nat.le_zero.1 hn
    exact ⟨rfl, Wrote.refl h⟩
  | succ fuel ih =>
    unfold writeLoop
    split
    · rename_i hpos
      have hBS : off % BSIZE < BSIZE := Nat.mod_lt _ (by decide)
      have hlt : off / BSIZE < MAXFILE := touched_lt hmax (mem_touched.2 ⟨0, hpos, rfl⟩)
      obtain ⟨m, hm⟩ : ∃ m, m = min n (BSIZE - off % BSIZE) := ⟨_, rfl⟩
      obtain ⟨k, rfl⟩ : ∃ k, n = m + k := ⟨n - m, by omega⟩
      have hdisj : Disjoint (touched off m) (touched (off + m) k) := touched_disjoint fun hk => by
        unfold BSIZE at *
        omega
      have hsum : ∑ bn ∈ touched off (m + k), s.missing (T i) bn =
          s.missing (T i) (off / BSIZE) + ∑ bn ∈ touched (off + m) k, s.missing (T i) bn := by
        rw [touched_add, Finset.sum_union hdisj, touched_round (by omega) (by omega), Finset.sum_singleton]
      have hbmap := (bmap_ends h hi hlt).weaken (E := fun e => e = .balloc ∧
          0 < ∑ bn ∈ touched off (m + k), s.missing (T i) bn ∧
          s.free.card < (T i).lack + ∑ bn ∈ touched off (m + k), s.missing (T i) bn) fun e he => ⟨he.1, by
        rw [hsum, missing, if_pos he.2.1]
        omega⟩
      refine hbmap.bind fun r hr => ?_
      obtain ⟨addr, ip₁, s₁⟩ := r
      dsimp only at hr ⊢
      rw [← hm, Nat.add_sub_cancel_left]
      have hw : Wrote s T i src off tot m ip₁ _ := hr.wrote hi (by omega) (by omega) (by omega)
      have hrest := @ih _ _ (off + m) (tot + m) k hw.own (hw.live hi) (by omega) (by omega)
      rw [Function.update_self] at hrest
      refine Ends.mono (Ends.weaken hrest ?_) ?_
      · rintro e ⟨rfl, hpos', hfew⟩
        refine ⟨rfl, ?_⟩
        have hroom := hw.room
        rw [hw.sum_missing (by omega) hdisj] at hpos' hfew
        rw [touched_add, Finset.sum_union hdisj]
        omega
      · rintro r ⟨hoff, hw'⟩
        exact ⟨hoff.trans (Nat.add_assoc ..), hw.trans hw' hmax hdisj⟩
    · rename_i hpos
      obtain rfl : n = 0 := by omega
      exact ⟨rfl, Wrote.refl h⟩

/-! ## writei -/

/-- Inode `i` is allocated, is no device and has no holes. -/
structure File (s : Volume) (T : Nat → Dinode) (i : Nat) : Prop where
  own : Own s T
  live : s.Live T i
  plain : (T i).type ≠ .dev
  size : (T i).size ≤ MAXFILE * BSIZE
  backed : ∀ bn, bn * BSIZE < (T i).size → (T i).ptr s.block (.data bn) ≠ 0

/-- A small disk with one empty inode: block 2 is the free map, the data blocks are those from 3 on. -/
def blank (t : FileType) : Volume where
  sb := { size := 16, ninodes := 2, inodestart := 1, bmapstart := 2 }
  block := fun b p => if b = 2 ∧ p = 0 then 7 else 0
  dinode := fun i => ⟨if i = 1 then t else .free, 0, 0, 1, 0, fun _ => 0⟩
  logged := ∅

theorem blank_used (t : FileType) {c : Nat} (hc : c < 16) : (blank t).used c = decide (c < 3) :=
  (show ∀ c, c < 16 → (blank .free).used c = decide (c < 3) by decide) c hc

theorem blank_file {t : FileType} (hfree : t ≠ .free) (hdev : t ≠ .dev) : File (blank t) (blank t).dinode 1 := by
  have hptr : ∀ j y, ((blank t).dinode j).ptr (blank t).block y = 0 := fun j y => by cases y <;> rfl
  have hpt : ∀ p, (blank t).pt (blank t).dinode p = 0 := fun p => by
    unfold pt
    rw [hptr, ite_self]
  have hfirst : (blank t).sb.first = 3 := show (blank .free).sb.first = 3 by decide
  refine ⟨⟨⟨fun p hp => absurd (hpt p) hp, fun p q _ hp => absurd (hpt p) hp, fun b hb => ?_⟩, fun b hb hlt => ?_,
    show 16 < 2 ^ 32 by decide⟩, ⟨show 1 < 2 by decide, hfree⟩, hdev, Nat.zero_le _,
    fun bn hbn => absurd hbn (Nat.not_lt_zero _)⟩
  · have hge : 3 ≤ b := hfirst ▸ hb.1
    refine ⟨fun hused => ?_, fun ⟨p, hp⟩ => ?_⟩
    · have : (blank t).used b = true := hused
      rw [blank_used t hb.2, decide_eq_true_eq] at this
      omega
    · rw [hpt] at hp
      omega
  · rw [hfirst] at hb
    exact (blank_used t hlt).trans (decide_eq_true hb)

theorem wraps_iff {off n : BitVec 32} : off + n < off ↔ 2 ^ 32 ≤ off.toNat + n.toNat := by
  rw [BitVec.lt_def, BitVec.toNat_add]
  omega

theorem toNat_add_of_not_wraps {off n : BitVec 32} (h : off.toNat + n.toNat < 2 ^ 32) :
    (off + n).toNat = off.toNat + n.toNat := by
  rw [BitVec.toNat_add, Nat.mod_eq_of_lt h]

/-- Pointers do not depend on the other fields of an inode. -/
theorem Own.same {T' : Nat → Dinode} (h : Own s T) (hsb : s'.sb = s.sb) (hblk : s'.block = s.block)
    (hpt : ∀ p, s'.pt T' p = s.pt T p) : Own s' T' := by
  have hused : ∀ c, s'.used c = s.used c := fun c => by
    unfold used
    rw [hsb, hblk]
  have hmark : s'.marked = s.marked := by
    unfold marked
    simp only [hused]
  refine ⟨?_, ?_, ?_⟩
  · rw [hsb, hmark, funext hpt]
    exact h.toOwns
  · rw [hsb, hmark]
    exact h.reserved
  · rw [hsb]
    exact h.small

theorem Own.congr {T' : Nat → Dinode} (h : Own s T) (hsb : s'.sb = s.sb) (hblk : s'.block = s.block)
    (hT : ∀ j, (T' j).type = (T j).type ∧ (T' j).addrs = (T j).addrs) : Own s' T' := by
  refine h.same hsb hblk fun p => ?_
  have hptr : (T' p.1).ptr s'.block p.2 = (T p.1).ptr s.block p.2 := by
    unfold Dinode.ptr
    rw [hblk, (hT p.1).2]
  refine pt_congr ?_ fun _ => hptr
  unfold Live
  rw [hsb, (hT p.1).1]

/-- What `writei` has done when it does not return -1. -/
structure Written (s : Volume) (T : Nat → Dinode) (i : Nat) (src : Nat → BitVec 8) (off n : Nat) (ip' : Dinode)
    (s' : Volume) : Prop where
  file : File s' (Function.update T i ip') i
  sb : s'.sb = s.sb
  fields : ∃ addrs, ip' = { T i with addrs, size := max (T i).size (off + n) }
  inside : ∀ k, k < n → s'.content ip' (off + k) = src k
  outside : ∀ p, p < (T i).size → p < off ∨ off + n ≤ p → s'.content ip' p = s.content (T i) p
  rest : ∀ bn, bn < MAXFILE → bn ∉ touched off n → ip'.ptr s'.block (.data bn) = (T i).ptr s.block (.data bn)
  tail : ∀ p, p / BSIZE < MAXFILE → off + n ≤ p → s.content (T i) p = 0 → s'.content ip' p = 0
  other : ∀ j, j ≠ i → s.Live T j → s'.content (T j) = s.content (T j)
  dinode : ∀ j, j ≠ i → s'.dinode j = s.dinode j
  ptr : ∀ j, j ≠ i → s.Live T j → ∀ y, (T j).ptr s'.block y = (T j).ptr s.block y
  update : s.dinode i = T i → s'.dinode i = ip'
  room : s.free.card + ip'.lack ≤ s'.free.card + (T i).lack + ∑ bn ∈ touched off n, s.missing (T i) bn
  logged : s'.logged.card ≤ s.logged.card + 3 + ∑ bn ∈ touched off n, (1 + s.missing (T i) bn)

/-- After the loop only the size is changed. -/
theorem Wrote.written {b : Nat} (h : Wrote s T i src off 0 n ip₁ s₁) (hf : File s T i) (hmax : off + n ≤ MAXFILE * BSIZE)
    (hoff : off ≤ (T i).size) (hip : ip' = { ip₁ with size := max (T i).size (off + n) }) (hsb : s'.sb = s₁.sb)
    (hblk : s'.block = s₁.block) (hdin : ∀ j, j ≠ i → s'.dinode j = s₁.dinode j)
    (hupd : s'.dinode i = ip' ∨ off + n ≤ (T i).size ∧ s'.dinode i = s₁.dinode i)
    (hlog : s'.logged ⊆ insert b s₁.logged) : Written s T i src off n ip' s' := by
  obtain ⟨addrs₁, hip₁⟩ := h.fields
  have htype : ip'.type = ip₁.type := by rw [hip]
  have haddrs : ip'.addrs = ip₁.addrs := by rw [hip]
  have hsize : ip'.size = max (T i).size (off + n) := by rw [hip]
  have hptr : ip'.ptr s'.block = ip₁.ptr s₁.block := funext fun y => by
    unfold Dinode.ptr
    rw [hblk, haddrs]
  have hcontent : s'.content ip' = s₁.content ip₁ := by
    unfold content
    rw [hptr, hblk]
  have hlt : ∀ p, p < (T i).size → p / BSIZE < MAXFILE := fun p hp => by
    have := hf.size
    unfold BSIZE at *
    omega
  refine
    { file := ⟨?_, ?_, ?_, ?_, fun bn hbn => ?_⟩
      sb := hsb.trans h.sb
      fields := ⟨addrs₁, by rw [hip, hip₁]⟩
      inside := fun k hk => ?_
      outside := fun p hp hout => ?_
      rest := fun bn hbn hne => by rw [hptr]; exact h.rest bn hbn hne
      tail := fun p hp hout h0 => ?_
      other := fun j hj hlj => funext fun p => ?_
      dinode := fun j hj => by rw [hdin j hj, h.dinode]
      ptr := fun j hj hlj y => by rw [hblk]; exact h.other j hj hlj y
      update := fun hdisk => ?_
      room := ?_
      logged := ?_ }
  · refine h.own.congr hsb hblk fun j => ?_
    by_cases hj : j = i
    · rw [hj, Function.update_self, Function.update_self]
      exact ⟨htype, haddrs⟩
    · rw [Function.update_of_ne hj, Function.update_of_ne hj]
      exact ⟨rfl, rfl⟩
  · have hlive := h.live hf.live
    unfold Live at hlive ⊢
    rw [Function.update_self] at hlive ⊢
    rwa [hsb, htype]
  · rw [Function.update_self, htype, hip₁]
    exact hf.plain
  · rw [Function.update_self, hsize]
    exact Nat.max_le.2 ⟨hf.size, hmax⟩
  · rw [Function.update_self, hsize] at hbn
    rw [Function.update_self, hptr]
    by_cases hold : bn * BSIZE < (T i).size
    · rw [h.keep _ (hf.backed bn hold)]
      exact hf.backed bn hold
    · -- behind the old end every block was written to
      refine h.there bn (mem_touched.2 ⟨bn * BSIZE - off, by omega, ?_⟩)
      rw [Nat.add_sub_cancel' (by omega), Nat.mul_div_cancel _ (by decide)]
  · rw [hcontent, h.inside k hk, Nat.zero_add]
  · rw [hcontent]
    exact h.outside p (hlt p hp) hout (hf.backed _ ((Nat.div_mul_le_self ..).trans_lt hp))
  · rw [hcontent]
    by_cases hold : (T i).ptr s.block (.data (p / BSIZE)) = 0
    · exact h.beyond p hp hout hold
    · rw [h.outside p hp (.inr hout) hold, h0]
  · have hsame := h.other j hj hlj (.data (p / BSIZE))
    unfold content
    rw [hblk, hsame]
    by_cases h0 : (T j).ptr s.block (.data (p / BSIZE)) = 0
    · rw [if_pos h0, if_pos h0]
    · rw [if_neg h0, if_neg h0, h.data j _ hj hlj (Place.data_ne_indirect _) h0]
  · rcases hupd with hupd | ⟨hle, hupd⟩
    · exact hupd
    · -- without growing no block was missing
      have hquiet : ip₁ = T i := h.quiet fun bn hbn => by
        obtain ⟨k, hk, rfl⟩ := mem_touched.1 hbn
        exact hf.backed _ ((Nat.div_mul_le_self ..).trans_lt (by omega))
      rw [hupd, h.dinode, hdisk, hip, hquiet, Nat.max_eq_left hle]
  · have hfree : s'.free = s₁.free := by
      unfold free used
      rw [hsb, hblk]
    have hlack : ip'.lack = ip₁.lack := by
      unfold Dinode.lack
      rw [haddrs]
    rw [hfree, hlack]
    exact h.room
  · obtain ⟨D, hD, hmem⟩ := h.logged
    have hsub : s₁.logged ⊆ (s.logged ∪ D) ∪ {ip₁.addrs indirect, s.sb.BBLOCK (ip₁.addrs indirect)} := by
      intro c hc
      rw [Finset.mem_union, Finset.mem_union, Finset.mem_insert, Finset.mem_singleton]
      rcases hmem c hc with hc | hc | ⟨-, hc⟩
      · exact .inl (.inl hc)
      · exact .inl (.inr hc)
      · exact .inr hc
    have hcard := Finset.card_le_card hsub
    have hunion := Finset.card_union_le (s.logged ∪ D) {ip₁.addrs indirect, s.sb.BBLOCK (ip₁.addrs indirect)}
    have hunion' := Finset.card_union_le s.logged D
    have htwo : ({ip₁.addrs indirect, s.sb.BBLOCK (ip₁.addrs indirect)} : Finset Nat).card ≤ 2 := Finset.card_le_two
    have hins := (Finset.card_le_card hlog).trans (Finset.card_insert_le ..)
    omega

theorem Written.size (h : Written s T i src off n ip' s') : ip'.size = max (T i).size (off + n) := by
  obtain ⟨addrs, hip⟩ := h.fields
  rw [hip]

/-- `writei` in all cases. -/
theorem writei_ends (src : Nat → BitVec 8) (off n : BitVec 32) (hf : File s T i) :
    (off.toNat ≤ (T i).size ∧ off.toNat + n.toNat < 2 ^ 32 ∧ off.toNat + n.toNat ≤ MAXFILE * BSIZE →
      Ends (fun e => e = .balloc ∧ 0 < ∑ bn ∈ touched off.toNat n.toNat, s.missing (T i) bn ∧
          s.free.card < (T i).lack + ∑ bn ∈ touched off.toNat n.toNat, s.missing (T i) bn)
        (s.writei i (T i) src off n) fun r => r.1 = true ∧ Written s T i src off.toNat n.toNat r.2.1 r.2.2) ∧
    (¬(off.toNat ≤ (T i).size ∧ off.toNat + n.toNat < 2 ^ 32 ∧ off.toNat + n.toNat ≤ MAXFILE * BSIZE) →
      s.writei i (T i) src off n = .ok (false, T i, s)) := by
  constructor
  · rintro ⟨hoff, hwrap, hmax⟩
    have hno : ¬((T i).size < off.toNat ∨ off + n < off) := by
      rw [wraps_iff]
      omega
    unfold writei
    rw [if_neg hno, toNat_add_of_not_wraps hwrap, if_neg (Nat.not_lt.2 hmax)]
    refine (writeLoop_ends src _ hf.own hf.live le_rfl hmax).bind fun r hr => ?_
    obtain ⟨off', ip₁, s₁⟩ := r
    obtain ⟨hoff', hw⟩ := hr
    dsimp only at hoff' hw ⊢
    rw [hoff']
    obtain ⟨addrs, hip₁⟩ := hw.fields
    have hsize : ip₁.size = (T i).size := by rw [hip₁]
    split
    · rename_i hgrow
      refine ⟨rfl, hw.written (b := s₁.sb.IBLOCK i) hf hmax hoff ?_ rfl rfl ?_ (.inl (Function.update_self ..))
        (Finset.Subset.refl _)⟩
      · rw [Nat.max_eq_right (by omega)]
      · intro j hj
        exact Function.update_of_ne hj ..
    · rename_i hgrow
      refine ⟨rfl, hw.written (b := 0) hf hmax hoff ?_ rfl rfl (fun _ _ => rfl) (.inr ⟨by omega, rfl⟩)
        (Finset.subset_insert ..)⟩
      rw [Nat.max_eq_left (by omega), ← hsize]
  · intro hbad
    unfold writei
    by_cases hno : (T i).size < off.toNat ∨ off + n < off
    · rw [if_pos hno]
    · rw [if_neg hno]
      rw [wraps_iff] at hno
      rw [toNat_add_of_not_wraps (by omega), if_pos (by omega)]

end Volume

end Xv6
