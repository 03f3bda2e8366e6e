import Xv6.Blocks.ByteArray
/-!
# Freeing blocks (fs.c)

`bfree` panics if the block it is given is not marked. `itrunc` gives back the
blocks of an inode one by one and leaves the words in the indirect block as they
are, so between two of its steps the pointers that count are not those one can
read from the disk. `Holds s f` therefore speaks of any map `f` from places to
blocks.
-/

namespace Xv6

open Outcome Owners

namespace Volume

variable {s s' s₁ : Volume} {T : Nat → Dinode} {f : Nat × Place → Nat} {i j b c : Nat} {ip ip' : Dinode}
  {p : Nat × Place}

/-- The marked blocks are those that `f` has a place for. -/
structure Holds (s : Volume) (f : Nat × Place → Nat) : Prop extends Owns s.sb.dataArea s.marked f where
  reserved : ∀ b, b < s.sb.first → b < s.sb.size → b ∈ s.marked

theorem Own.holds (h : Own s T) : Holds s (s.pt T) := ⟨h.toOwns, h.reserved⟩

/-- One block less is marked. -/
structure Released (s : Volume) (b : Nat) (s' : Volume) : Prop where
  sb : s'.sb = s.sb
  dinode : s'.dinode = s.dinode
  marked : ∀ c, c < s.sb.size → (c ∈ s'.marked ↔ c ∈ s.marked \ {b})
  block : ∀ c ∈ s.sb.dataArea, s'.block c = s.block c

theorem bfree_ends (hb : b ∈ s.sb.dataArea) (hused : b ∈ s.marked) :
    Ends (fun _ => False) (s.bfree b) fun s' => Released s b s' := by
  unfold bfree
  have hused' : s.used b = true := hused
  rw [hused', if_neg (by decide)]
  refine ⟨rfl, rfl, fun c hc => ?_, fun c hc => Function.update_of_ne (data_ne_BBLOCK hc hb.2) ..⟩
  have hmod (a : Nat) : a % BPB < BPB := Nat.mod_lt _ (by decide)
  rw [Set.mem_sdiff, Set.mem_singleton_iff]
  change Block.bit (Function.update s.block (s.sb.BBLOCK b) _ (s.sb.BBLOCK c)) (c % BPB) = true ↔ s.used c = true ∧ c ≠ b
  rw [Function.update_apply]
  unfold used
  split
  · rename_i heq
    rw [Block.bit_clearBit (hmod b) (hmod c), heq, Bool.and_eq_true, Bool.not_eq_true', decide_eq_false_iff_not,
      and_comm]
    exact and_congr Iff.rfl (not_congr ⟨fun h => bit_inj heq h, fun h => by rw [h]⟩)
  · rename_i hne
    exact (and_iff_left fun h => hne (by rw [h])).symm

/-- The place of the block is empty then. -/
theorem Holds.released (h : Holds s f) (hne : f p ≠ 0) (hr : Released s (f p) s') :
    Holds s' (Function.update f p 0) := by
  have htake := h.toOwns.take hne (zero_not_data _)
  have hdata := h.area p hne
  refine ⟨?_, fun c hc hlt => ?_⟩
  · rw [hr.sb]
    exact htake.congr (fun _ => rfl) fun c hc => hr.marked c hc.2
  · rw [hr.sb] at hc hlt
    exact (hr.marked c hlt).2 ⟨h.reserved c hc hlt, fun hcb => absurd (hcb ▸ hdata.1) (Nat.not_le.2 hc)⟩

theorem Holds.bfree_ends (h : Holds s f) (hne : f p ≠ 0) :
    Ends (fun _ => False) (s.bfree (f p)) fun s' => Released s (f p) s' ∧ Holds s' (Function.update f p 0) :=
  (Volume.bfree_ends (h.area p hne) (h.held hne)).mono fun _ hr => ⟨hr, h.released hne hr⟩

/-! ## itrunc -/

/-- Blocks have been freed: nothing else of the disk has changed. -/
structure Freed (s s' : Volume) : Prop where
  sb : s'.sb = s.sb
  dinode : s'.dinode = s.dinode
  block : ∀ c ∈ s.sb.dataArea, s'.block c = s.block c

theorem Freed.refl (s : Volume) : Freed s s := ⟨rfl, rfl, fun _ _ => rfl⟩

theorem Released.freed (h : Released s b s₁) : Freed s s₁ := ⟨h.sb, h.dinode, h.block⟩

theorem Freed.trans (h : Freed s s₁) (h' : Freed s₁ s') : Freed s s' :=
  ⟨h'.sb.trans h.sb, h'.dinode.trans h.dinode,
    fun c hc => (h'.block c (by rw [h.sb]; exact hc)).trans (h.block c hc)⟩

/-- A map without the places in `ps`. -/
def without (f : Nat × Place → Nat) (i : Nat) (ps : List Place) (p : Nat × Place) : Nat :=
  if p.1 = i ∧ p.2 ∈ ps then 0 else f p

theorem without_nil (f : Nat × Place → Nat) (i : Nat) : without f i [] = f := by
  funext p
  exact if_neg fun h => absurd h.2 List.not_mem_nil

theorem without_cons (f : Nat × Place → Nat) (i : Nat) (x : Place) (ps : List Place) :
    without f i (x :: ps) = without (Function.update f (i, x) 0) i ps := by
  funext p
  unfold without
  by_cases hps : p.1 = i ∧ p.2 ∈ ps
  · rw [if_pos hps, if_pos ⟨hps.1, List.mem_cons_of_mem _ hps.2⟩]
  · rw [if_neg hps]
    by_cases hx : p = (i, x)
    · rw [hx, Function.update_self, if_pos ⟨rfl, List.mem_cons_self⟩]
    · rw [Function.update_of_ne hx, if_neg]
      rintro ⟨hi, hmem⟩
      rcases List.mem_cons.1 hmem with heq | hmem
      · exact hx (Prod.ext hi heq)
      · exact hps ⟨hi, hmem⟩

theorem truncDirect_ends (ks : List (Fin (NDIRECT + 1))) (hks : ks.Nodup) (h : Holds s f)
    (hf : ∀ k ∈ ks, f (i, .addr k) = ip.addrs k) :
    Ends (fun _ => False) (truncDirect ks ip s) fun r =>
      Holds r.2 (without f i (ks.map .addr)) ∧ Freed s r.2 ∧
      r.1 = { ip with addrs := fun k => if k ∈ ks then 0 else ip.addrs k } := by
  induction ks generalizing ip s f with
  | nil =>
    refine ⟨?_, Freed.refl s, ?_⟩
    · rw [List.map_nil, without_nil]
      exact h
    · simp only [List.not_mem_nil, if_false]
  | cons k ks ih =>
    obtain ⟨hk, hnodup⟩ := List.nodup_cons.1 hks
    unfold truncDirect
    rw [List.map_cons, without_cons]
    have hfk := hf k List.mem_cons_self
    have hother : ∀ k' ∈ ks, Function.update f (i, .addr k) 0 (i, .addr k') = ip.addrs k' := fun k' hk' => by
      have hne : k' ≠ k := fun heq => hk (heq ▸ hk')
      rw [Function.update_of_ne (fun heq => hne (Place.addr.inj (Prod.mk.inj heq).2))]
      exact hf k' (List.mem_cons_of_mem _ hk')
    split
    · rename_i h0
      have hsame : Function.update f (i, .addr k) 0 = f := by
        rw [← h0, ← hfk]
        exact Function.update_eq_self ..
      rw [hsame] at hother ⊢
      refine (ih hnodup h hother).mono fun r hr => ⟨hr.1, hr.2.1, ?_⟩
      rw [hr.2.2]
      refine congrArg (fun a => { ip with addrs := a }) (funext fun k' => ?_)
      by_cases heq : k' = k
      · subst heq
        simp [h0]
      · simp [heq]
    · rename_i hne
      rw [← hfk] at hne ⊢
      refine (h.bfree_ends hne).bind fun s₁ hs₁ => ?_
      have hsame : ∀ k' ∈ ks, Function.update f (i, .addr k) 0 (i, .addr k') = (ip.setAddr k 0).addrs k' := fun k' hk' => by
        rw [hother k' hk']
        exact (Function.update_of_ne (fun heq : k' = k => hk (heq ▸ hk')) ..).symm
      refine (ih hnodup hs₁.2 hsame).mono fun r hr => ⟨hr.1, hs₁.1.freed.trans hr.2.1, ?_⟩
      rw [hr.2.2]
      refine congrArg (fun a => { ip with addrs := a }) (funext fun k' => ?_)
      by_cases heq : k' = k
      · subst heq
        simp [Dinode.setAddr]
      · simp [Dinode.setAddr, heq]

theorem truncIndirect_ends {m : Block} (js : List Nat) (hjs : js.Nodup) (hlt : ∀ j ∈ js, j < NINDIRECT) (h : Holds s f)
    (hf : ∀ j ∈ js, f (i, .inner (Fin.ofNat NINDIRECT j)) = m.word j) :
    Ends (fun _ => False) (truncIndirect m js s) fun s' =>
      Holds s' (without f i (js.map fun j => .inner (Fin.ofNat NINDIRECT j))) ∧ Freed s s' := by
  induction js generalizing s f with
  | nil =>
    refine ⟨?_, Freed.refl s⟩
    rw [List.map_nil, without_nil]
    exact h
  | cons j js ih =>
    obtain ⟨hj, hnodup⟩ := List.nodup_cons.1 hjs
    unfold truncIndirect
    rw [List.map_cons, without_cons]
    have hfj := hf j List.mem_cons_self
    have hlt' : ∀ j' ∈ js, j' < NINDIRECT := fun j' hj' => hlt j' (List.mem_cons_of_mem _ hj')
    have hother : ∀ j' ∈ js, Function.update f (i, .inner (Fin.ofNat NINDIRECT j)) 0
        (i, .inner (Fin.ofNat NINDIRECT j')) = m.word j' := fun j' hj' => by
      rw [Function.update_of_ne, hf j' (List.mem_cons_of_mem _ hj')]
      intro heq
      have hmod : j' % NINDIRECT = j % NINDIRECT := congrArg Fin.val (Place.inner.inj (Prod.mk.inj heq).2)
      rw [Nat.mod_eq_of_lt (hlt' j' hj'), Nat.mod_eq_of_lt (hlt j List.mem_cons_self)] at hmod
      exact hj (hmod ▸ hj')
    split
    · rename_i h0
      have hsame : Function.update f (i, .inner (Fin.ofNat NINDIRECT j)) 0 = f := by
        rw [← h0, ← hfj]
        exact Function.update_eq_self ..
      rw [hsame] at hother ⊢
      exact ih hnodup hlt' h hother
    · rename_i hne
      rw [← hfj] at hne ⊢
      refine (h.bfree_ends hne).bind fun s₁ hs₁ => ?_
      exact (ih hnodup hlt' hs₁.2 hother).mono fun s' hs' => ⟨hs'.1, hs₁.1.freed.trans hs'.2⟩

/-- Inode `i` has no blocks any more. -/
structure Emptied (s : Volume) (T : Nat → Dinode) (i : Nat) (s' : Volume) : Prop where
  freed : Freed s s'
  holds : ∃ g, Holds s' g ∧ (∀ x, g (i, x) = 0) ∧ ∀ p, p.1 ≠ i → g p = s.pt T p

theorem direct_or_indirect (k : Fin (NDIRECT + 1)) :
    k ∈ (List.finRange NDIRECT).map Fin.castSucc ∨ k = indirect := by
  induction k using Fin.lastCases with
  | last => exact .inr rfl
  | cast k => exact .inl (List.mem_map_of_mem (List.mem_finRange k))

theorem indirect_not_direct : indirect ∉ (List.finRange NDIRECT).map Fin.castSucc := by
  intro h
  obtain ⟨k, -, hk⟩ := List.mem_map.1 h
  exact absurd hk (Fin.castSucc_ne_last k)

/-- The part of `itrunc` for the indirect block, after the direct ones. -/
theorem truncRest_ends (h : Own s T) (hi : s.Live T i) (hfreed : Freed s s₁)
    (hind : ip.addrs indirect = (T i).addrs indirect)
    (hholds : Holds s₁ (without (s.pt T) i (((List.finRange NDIRECT).map Fin.castSucc).map .addr))) :
    Ends (fun _ => False) (truncRest ip s₁) fun r =>
      Emptied s T i r.2 ∧ r.1 = { ip with addrs := Function.update ip.addrs indirect 0 } := by
  generalize hf₁ : without (s.pt T) i (((List.finRange NDIRECT).map Fin.castSucc).map .addr) = f₁ at hholds
  have hother : ∀ p, p.1 ≠ i → f₁ p = s.pt T p := fun p hp => by
    rw [← hf₁]
    exact if_neg fun hpi => hp hpi.1
  have hdirect : ∀ k, k ≠ indirect → f₁ (i, .addr k) = 0 := fun k hk => by
    rw [← hf₁]
    exact if_pos ⟨rfl, List.mem_map_of_mem ((direct_or_indirect k).resolve_right hk)⟩
  have hindirect : f₁ (i, .addr indirect) = ip.addrs indirect := by
    rw [← hf₁, hind]
    refine (if_neg fun hpi => ?_).trans (pt_of_live hi)
    obtain ⟨k, hk, heq⟩ := List.mem_map.1 hpi.2
    exact indirect_not_direct (Place.addr.inj heq ▸ hk)
  have hinner : ∀ j, f₁ (i, .inner j) = (T i).ptr s.block (.inner j) := fun j => by
    rw [← hf₁]
    refine (if_neg fun hpi => ?_).trans (pt_of_live hi)
    obtain ⟨k, hk, heq⟩ := List.mem_map.1 hpi.2
    cases heq
  unfold truncRest
  split
  · rename_i h0
    refine ⟨⟨hfreed, f₁, hholds, fun x => ?_, hother⟩, ?_⟩
    · cases x with
      | addr k =>
        by_cases hk : k = indirect
        · rw [hk, hindirect, h0]
        · exact hdirect k hk
      | inner j =>
        rw [hinner j]
        exact if_pos (hind ▸ h0)
    · rw [show Function.update ip.addrs indirect 0 = ip.addrs by rw [← h0]; exact Function.update_eq_self ..]
  · rename_i hne
    have hblk : s₁.block (ip.addrs indirect) = s.block ((T i).addrs indirect) := by
      rw [hind] at hne ⊢
      exact hfreed.block _ (h.mem_data (x := .addr indirect) hi hne)
    have hwords : ∀ j ∈ List.range NINDIRECT, f₁ (i, .inner (Fin.ofNat NINDIRECT j)) = (s₁.block (ip.addrs indirect)).word j :=
      fun j hj => by
        have hlt := List.mem_range.1 hj
        rw [hinner, hblk]
        refine (if_neg (hind ▸ hne)).trans ?_
        rw [show ((Fin.ofNat NINDIRECT j : Fin NINDIRECT) : Nat) = j from Nat.mod_eq_of_lt hlt]
    refine (truncIndirect_ends (List.range NINDIRECT) List.nodup_range (fun j => List.mem_range.1) hholds hwords).bind
      fun s₂ hs₂ => ?_
    generalize hf₂ : without f₁ i ((List.range NINDIRECT).map fun j => .inner (Fin.ofNat NINDIRECT j)) = f₂ at hs₂
    have haddr₂ : ∀ k, f₂ (i, .addr k) = f₁ (i, .addr k) := fun k => by
      rw [← hf₂]
      refine if_neg fun hpi => ?_
      obtain ⟨j, -, heq⟩ := List.mem_map.1 hpi.2
      cases heq
    have hinner₂ : ∀ j, f₂ (i, .inner j) = 0 := fun j => by
      rw [← hf₂]
      refine if_pos ⟨rfl, List.mem_map.2 ⟨j, List.mem_range.2 j.2, ?_⟩⟩
      exact congrArg Place.inner (Fin.ext (Nat.mod_eq_of_lt j.2))
    have hheld : f₂ (i, .addr indirect) = ip.addrs indirect := (haddr₂ _).trans hindirect
    rw [← hheld] at hne ⊢
    refine (hs₂.1.bfree_ends hne).bind fun s₃ hs₃ => ?_
    refine ⟨⟨hfreed.trans (hs₂.2.trans hs₃.1.freed), _, hs₃.2, fun x => ?_, fun p hp => ?_⟩, rfl⟩
    · by_cases hx : x = .addr indirect
      · rw [hx, Function.update_self]
      · rw [Function.update_of_ne (fun heq => hx (Prod.mk.inj heq).2)]
        cases x with
        | addr k => rw [haddr₂, hdirect k fun hk => hx (congrArg Place.addr hk)]
        | inner j => exact hinner₂ j
    · rw [Function.update_of_ne (fun heq => hp (congrArg Prod.fst heq)), ← hother p hp, ← hf₂]
      exact if_neg fun hpi => hp hpi.1

/-- What `itrunc` has done. -/
structure Truncated (s : Volume) (T : Nat → Dinode) (i : Nat) (ip' : Dinode) (s' : Volume) : Prop where
  ip : ip' = { T i with addrs := fun _ => 0, size := 0 }
  own : Own s' (Function.update T i ip')
  sb : s'.sb = s.sb
  dinode : s'.dinode = Function.update s.dinode i ip'
  block : ∀ c ∈ s.sb.dataArea, s'.block c = s.block c

/-- An inode without blocks, and the others as before. -/
theorem Emptied.own (h : Own s T) (he : Emptied s T i s₁) (hsb : s'.sb = s₁.sb) (hblk : s'.block = s₁.block)
    (hzero : ip'.addrs = fun _ => 0) : Own s' (Function.update T i ip') := by
  obtain ⟨g, hg, hgi, hgo⟩ := he.holds
  have hused : ∀ c, s'.used c = s₁.used c := fun c => by
    unfold used
    rw [hsb, hblk]
  have hmark : s'.marked = s₁.marked := by
    unfold marked
    simp only [hused]
  have hpt : ∀ p, s'.pt (Function.update T i ip') p = g p := by
    rintro ⟨j, x⟩
    by_cases hj : j = i
    · subst hj
      rw [hgi]
      unfold pt
      dsimp only
      rw [Function.update_self]
      have hptr : ip'.ptr s'.block x = 0 := by
        unfold Dinode.ptr
        rw [hzero]
        split
        · rfl
        · exact if_pos rfl
      rw [hptr, ite_self]
    · rw [hgo _ hj]
      refine pt_congr ?_ fun hlj => ?_
      · unfold Live
        rw [Function.update_of_ne hj, hsb, he.freed.sb]
      · rw [Function.update_of_ne hj]
        refine ptr_congr (fun hne => ?_) x
        rw [hblk]
        exact he.freed.block _ (h.mem_data (x := .addr indirect) hlj hne)
  refine ⟨?_, fun c hc hlt => ?_, ?_⟩
  · rw [hsb]
    exact hg.toOwns.congr hpt fun c _ => by rw [hmark]
  · rw [hsb] at hc hlt
    rw [hmark]
    exact hg.reserved c hc hlt
  · rw [hsb, he.freed.sb]
    exact h.small

theorem itrunc_ends (h : Own s T) (hi : s.Live T i) :
    Ends (fun _ => False) (s.itrunc i (T i)) fun r => Truncated s T i r.1 r.2 := by
  unfold itrunc
  have hnodup : ((List.finRange NDIRECT).map Fin.castSucc).Nodup :=
    (List.nodup_finRange NDIRECT).map (Fin.castSucc_injective NDIRECT)
  refine (truncDirect_ends _ hnodup h.holds fun k _ => pt_of_live hi).bind fun r hr => ?_
  obtain ⟨ip₁, s₁⟩ := r
  obtain ⟨hholds, hfreed, hip₁⟩ := hr
  dsimp only at hholds hfreed hip₁ ⊢
  have hind : ip₁.addrs indirect = (T i).addrs indirect := by
    rw [hip₁]
    dsimp only
    rw [if_neg indirect_not_direct]
  refine (truncRest_ends h hi hfreed hind hholds).bind fun r hr => ?_
  obtain ⟨ip₂, s₂⟩ := r
  obtain ⟨hempty, hip₂⟩ := hr
  dsimp only at hempty hip₂ ⊢
  have hzero : ip₂.addrs = fun _ => 0 := by
    funext k
    rw [hip₂]
    dsimp only
    by_cases hk : k = indirect
    · rw [hk, Function.update_self]
    · rw [Function.update_of_ne hk, hip₁]
      exact if_pos ((direct_or_indirect k).resolve_right hk)
  refine ⟨?_, hempty.own h rfl rfl hzero, hempty.freed.sb, ?_, hempty.freed.block⟩
  · rw [show ({ ip₂ with size := 0 } : Dinode) = { T i with addrs := ip₂.addrs, size := 0 } by rw [hip₂, hip₁], hzero]
  · rw [← hempty.freed.dinode]
    rfl

end Volume

end Xv6
