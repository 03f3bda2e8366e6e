import Xv6.Umalloc.Free
/-!
# Taking a block

`malloc` walks once around the circle from `freep`. If no block is large enough
it asks for more memory, which gives a block that is, and walks again. Over
any calls of `malloc` and `free` the headers represent a heap of disjoint
blocks that together are what `sbrk` gave.
-/

namespace Xv6.Umalloc

open Blk Runs

variable {E : Type} {W : World E} {base k top : Nat} {h : Heap E} {fl l₁ l₂ live : List Blk} {b c : Blk}

/-! ## Taking a block out -/

section
variable {prevp nunits : Nat}

/-- The last node before a free block is its only predecessor. -/
theorem Rep.pred (hr : Rep W base k top h (l₁ ++ b :: l₂) live) (hprev : prevp ∈ base :: (l₁ ++ b :: l₂).map Blk.start)
    (hptr : h.ptr prevp = b.start) : ∃ A, base :: l₁.map Blk.start = A ++ [prevp] := by
  obtain ⟨A, p, hA⟩ : ∃ A p, base :: l₁.map Blk.start = A ++ [p] :=
    (List.eq_nil_or_concat' (base :: l₁.map Blk.start)).resolve_left (List.cons_ne_nil _ _)
  have hall : base :: (l₁ ++ b :: l₂).map Blk.start = A ++ p :: b.start :: l₂.map Blk.start := by
    rw [List.map_append, ← List.cons_append, hA, List.append_assoc]
    rfl
  have hwalk := hr.walk
  have hnodup : (base :: (l₁ ++ b :: l₂).map Blk.start).Nodup := hr.lay.sorted.imp fun hlt => Nat.ne_of_lt hlt
  have hp : h.ptr p = b.start := (hall ▸ hwalk).after.1
  obtain rfl : p = prevp := hwalk.next_inj hnodup (by rw [hall]; simp) hprev (hp.trans hptr.symm)
  exact ⟨A, hA⟩

/-- A block of the right size is unlinked. -/
theorem Rep.takeAll (hr : Rep W base k top h (l₁ ++ b :: l₂) live)
    (hprev : prevp ∈ base :: (l₁ ++ b :: l₂).map Blk.start) (hptr : h.ptr prevp = b.start) :
    Rep W base k top { h with ptr := Function.update h.ptr prevp (h.ptr b.start), freep := prevp } (l₁ ++ l₂)
      (b :: live) := by
  obtain ⟨A, hA⟩ := hr.pred hprev hptr
  have hall : base :: (l₁ ++ b :: l₂).map Blk.start = A ++ prevp :: b.start :: l₂.map Blk.start := by
    rw [List.map_append, ← List.cons_append, hA, List.append_assoc]
    rfl
  have hall' : base :: (l₁ ++ l₂).map Blk.start = A ++ prevp :: l₂.map Blk.start := by
    rw [List.map_append, ← List.cons_append, hA, List.append_assoc]
    rfl
  have hsort := hr.lay.sorted
  have hwalk := hr.walk
  rw [hall] at hsort hwalk
  obtain ⟨-, hsort', hcross⟩ := List.pairwise_append.1 hsort
  have hpA : ∀ x ∈ A, x ≠ prevp := fun x hx => (hcross x hx _ List.mem_cons_self).ne
  have hpl₂ : ∀ x ∈ l₂.map Blk.start, x ≠ prevp := fun x hx =>
    ((List.pairwise_cons.1 hsort').1 x (List.mem_cons_of_mem _ hx)).ne'
  refine ⟨hr.lay.take, ?_, by rw [hall']; simp, (hr.holds.perm ?_).setPtr _ _⟩
  · rw [hall']
    refine (hwalk.before.congr fun x hx => Function.update_of_ne (hpA x hx) ..).append ⟨rfl, ?_⟩
    dsimp only
    rw [Function.update_self]
    exact hwalk.after.2.congr fun x hx => Function.update_of_ne (hpl₂ x hx) ..
  · simp only [List.append_assoc, List.cons_append]
    exact (List.Perm.append_left l₁ (List.perm_middle.symm))

/-- The end of a larger block is cut off. -/
theorem Rep.takeEnd {m : Nat} (hk : k ∣ 8) (hr : Rep W base k top h (l₁ ++ b :: l₂) live)
    (hprev : prevp ∈ base :: (l₁ ++ b :: l₂).map Blk.start) (hm : b.size = m + nunits) (hpos : 0 < m) (hn : 0 < nunits) :
    Rep W base k top { h with size := Function.update (Function.update h.size b.start m) (b.start + 8 * m) nunits
                              freep := prevp } (l₁ ++ ⟨b.start, m⟩ :: l₂) (⟨b.start + 8 * m, nunits⟩ :: live) := by
  have hb := hr.lay.free b (List.mem_append_right _ List.mem_cons_self)
  obtain ⟨-, hbl, hcross⟩ := List.pairwise_append.1 hr.lay.below
  have hbl₂ := (List.pairwise_cons.1 hbl).1
  have hall : base :: (l₁ ++ ⟨b.start, m⟩ :: l₂).map Blk.start = base :: (l₁ ++ b :: l₂).map Blk.start := by
    rw [List.map_append, List.map_append]
    rfl
  have hapart : ∀ d ∈ l₁ ++ l₂ ++ live, 0 < d.size ∧ d.Apart b := by
    intro d hd
    rcases List.mem_append.1 hd with hd | hd
    · rcases List.mem_append.1 hd with hd | hd
      · exact ⟨(hr.lay.free d (List.mem_append_left _ hd)).pos, (hcross d hd b List.mem_cons_self).apart⟩
      · have hmem : d ∈ l₁ ++ b :: l₂ := List.mem_append_right _ (List.mem_cons_of_mem _ hd)
        exact ⟨(hr.lay.free d hmem).pos, (hbl₂ d hd).apart.symm⟩
    · exact ⟨(hr.lay.used d hd).pos, (hr.lay.across b (List.mem_append_right _ List.mem_cons_self) d hd).symm⟩
  have hne : ∀ d ∈ l₁ ++ l₂ ++ live, d.start ≠ b.start ∧ d.start ≠ b.start + 8 * m := by
    intro d hd
    obtain ⟨hd₁, hd₂⟩ := hapart d hd
    unfold Apart stop at hd₂
    omega
  have hperm : (l₁ ++ b :: l₂ ++ live).Perm (b :: (l₁ ++ l₂ ++ live)) := List.perm_middle.append_right live
  have hholds := (hr.holds.perm hperm).cut hm hn hpos hne hb.base_lt
  refine ⟨(hr.lay.take.cut hk hm hpos hn).insert (fun c hc => hcross c hc b List.mem_cons_self) fun c hc => ?_, ?_, ?_,
    (hholds.perm ?_).setPtr _ _⟩
  · have := hbl₂ c hc
    unfold Below stop at *
    dsimp only
    omega
  · rw [hall]
    exact hr.walk
  · rw [hall]
    exact hprev
  · simp only [List.append_assoc, List.cons_append]
    refine List.Perm.trans ?_ List.perm_middle.symm
    refine List.Perm.cons _ ?_
    rw [← List.append_assoc, ← List.append_assoc]
    exact List.perm_middle.symm

theorem Rep.take (hk : k ∣ 8) (htop : top < WORD) (hr : Rep W base k top h fl live) (hn : 0 < nunits) (hb : b ∈ fl)
    (hprev : prevp ∈ base :: fl.map Blk.start) (hptr : h.ptr prevp = b.start) (hle : nunits ≤ b.size) :
    ∃ c h' fl', take W h nunits prevp b.start = .ok (c.start + 8, h') ∧ h'.env = h.env ∧ c.size = nunits ∧
      Rep W base k top h' fl' (c :: live) := by
  obtain ⟨l₁, l₂, rfl⟩ := List.append_of_mem hb
  have hfit := hr.lay.free b hb
  have hbmap : W.mapped h.env b.start = true := hr.mapped_node (List.mem_cons_of_mem _ (List.mem_map_of_mem hb))
  have hpmap : W.mapped h.env prevp = true := hr.mapped_node hprev
  have hbsize : h.size b.start = b.size := hr.holds.sizes b (List.mem_append_left _ hb)
  have hstop := hfit.le
  unfold stop at hstop
  by_cases heq : b.size = nunits
  · refine ⟨b, _, _, ?_, ?_, heq, hr.takeAll hprev hptr⟩
    · have hplus : plus b.start 1 = b.start + 8 := Nat.mod_eq_of_lt (by omega)
      simp only [Umalloc.take, Heap.at, Heap.setPtr, hbmap, hpmap, hbsize, heq, if_true, ok_bind, hplus]
    · rfl
  · obtain ⟨m, hm⟩ := Nat.exists_eq_add_of_le' hle
    refine ⟨⟨b.start + 8 * m, nunits⟩, _, _, ?_, ?_, rfl, hr.takeEnd hk hprev hm (by omega) hn⟩
    · have hsub : b.size - nunits = m := by omega
      have hplus : plus b.start m = b.start + 8 * m := Nat.mod_eq_of_lt (by omega)
      have hplus' : plus (b.start + 8 * m) 1 = b.start + 8 * m + 8 := Nat.mod_eq_of_lt (by omega)
      have hmmap : W.mapped h.env (b.start + 8 * m) = true := hr.holds.mapped b (List.mem_append_left _ hb) m (by omega)
      simp only [Umalloc.take, Heap.at, Heap.setSize, hbmap, hmmap, hbsize, heq, if_true, if_false, ok_bind, hsub, hplus,
        hplus']
    · rfl

end

/-! ## The search -/

section
variable {nunits : Nat}

/-- The walk from `p` on to `freep`, along `seg`: a block is large enough, or none is. -/
theorem Rep.search (hr : Rep W base k top h fl live) (hn : 0 < nunits) {seg : List Nat} {prevp p n : Nat}
    (hwalk : Walk h.ptr p seg h.freep) (hseg : ∀ x ∈ seg, x ∈ base :: fl.map Blk.start ∧ x ≠ h.freep)
    (hprev : prevp ∈ base :: fl.map Blk.start) (hptr : h.ptr prevp = p) :
    (∃ q b, b ∈ fl ∧ nunits ≤ b.size ∧ q ∈ base :: fl.map Blk.start ∧ h.ptr q = b.start ∧
        Umalloc.mallocLoop W nunits (n + (seg.length + 1)) h prevp p = Umalloc.take W h nunits q b.start) ∨
      (∀ x ∈ seg ++ [h.freep], h.size x < nunits) ∧ Umalloc.mallocLoop W nunits (n + (seg.length + 1)) h prevp p = (do
        let (p, h) ← Umalloc.morecore W h nunits
        if p = 0 then .ok (0, h)
        else
          let q ← h.at W p (h.ptr p)
          Umalloc.mallocLoop W nunits n h p q) := by
  -- a node that is large enough is a block
  have hfound : ∀ m prevp p, p ∈ base :: fl.map Blk.start → prevp ∈ base :: fl.map Blk.start → h.ptr prevp = p →
      nunits ≤ h.size p → ∃ q b, b ∈ fl ∧ nunits ≤ b.size ∧ q ∈ base :: fl.map Blk.start ∧ h.ptr q = b.start ∧
        Umalloc.mallocLoop W nunits (m + 1) h prevp p = Umalloc.take W h nunits q b.start := by
    intro m prevp p hp hprev hptr hle
    rcases List.mem_cons.1 hp with rfl | hp'
    · rw [hr.holds.base0] at hle
      omega
    · obtain ⟨b, hb, rfl⟩ := List.mem_map.1 hp'
      have hsize := hr.holds.sizes b (List.mem_append_left _ hb)
      refine ⟨prevp, b, hb, hsize ▸ hle, hprev, hptr, ?_⟩
      rw [Umalloc.mallocLoop, at_ok (hr.mapped_node hp)]
      exact if_pos hle
  induction seg generalizing prevp p n with
  | nil =>
    obtain rfl : p = h.freep := hwalk
    by_cases hle : nunits ≤ h.size h.freep
    · exact .inl (hfound n prevp _ hr.freep hprev hptr hle)
    · refine .inr ⟨by simpa using hle, ?_⟩
      rw [List.length_nil, Umalloc.mallocLoop, at_ok (hr.mapped_node hr.freep)]
      exact (if_neg hle).trans (if_pos rfl)
  | cons x seg ih =>
    obtain rfl : p = x := hwalk.1
    obtain ⟨hp, hne⟩ := hseg p List.mem_cons_self
    by_cases hle : nunits ≤ h.size p
    · exact .inl (hfound _ prevp p hp hprev hptr hle)
    · have hnext : Umalloc.mallocLoop W nunits (n + ((p :: seg).length + 1)) h prevp p =
          Umalloc.mallocLoop W nunits (n + (seg.length + 1)) h p (h.ptr p) := by
        rw [List.length_cons, ← Nat.add_assoc, Umalloc.mallocLoop, at_ok (hr.mapped_node hp)]
        refine (if_neg hle).trans ((if_neg hne).trans ?_)
        rw [at_ok (hr.mapped_node hp)]
        rfl
      rw [hnext]
      rcases ih hwalk.2 (fun y hy => hseg y (List.mem_cons_of_mem _ hy)) hp rfl with hin | ⟨hsmall, hmore⟩
      · exact .inl hin
      · refine .inr ⟨fun y hy => ?_, hmore⟩
        rcases List.mem_cons.1 hy with rfl | hy
        · exact Nat.lt_of_not_le hle
        · exact hsmall y hy

/-- The circle from `freep` back to it. -/
theorem Rep.circle (hr : Rep W base k top h fl live) :
    ∃ seg, Walk h.ptr (h.ptr h.freep) seg h.freep ∧ (∀ x ∈ seg, x ∈ base :: fl.map Blk.start ∧ x ≠ h.freep) ∧
      (∀ x ∈ base :: fl.map Blk.start, x ∈ seg ++ [h.freep]) ∧ seg.length = fl.length := by
  obtain ⟨u, v, huv⟩ := List.append_of_mem hr.freep
  have hwalk := hr.walk
  have hnodup : (base :: fl.map Blk.start).Nodup := hr.lay.sorted.imp fun hlt => Nat.ne_of_lt hlt
  rw [huv] at hwalk hnodup
  have hnot : h.freep ∉ u ++ v := (List.nodup_cons.1 (List.nodup_middle.1 hnodup)).1
  refine ⟨v ++ u, hwalk.after.append hwalk.before, fun x hx => ⟨?_, ?_⟩, fun x hx => ?_, ?_⟩
  · rw [huv]
    simp only [List.mem_append, List.mem_cons] at hx ⊢
    tauto
  · rintro rfl
    simp only [List.mem_append] at hx hnot
    tauto
  · rw [huv] at hx
    simp only [List.mem_append, List.mem_cons, List.not_mem_nil, or_false] at hx ⊢
    tauto
  · have := congrArg List.length huv
    simp only [List.length_cons, List.length_map, List.length_append] at this ⊢
    omega

variable {I : E → Prop} {top : E → Nat}

/-- The loop of `malloc`: it gives a block of the size asked for, or 0 when there is no more
memory. -/
theorem Rep.mallocLoop (hW : Grants W I top base k) (hk : k ∣ 8) (hpos : 0 < base) (hn : 0 < nunits)
    (hlt : nunits * 8 < 2 ^ 31) (hI : I h.env) (hr : Rep W base k (top h.env) h fl live) :
    ∃ ap h' fl', Umalloc.mallocLoop W nunits rounds h h.freep (h.ptr h.freep) = .ok (ap, h') ∧ I h'.env ∧
      (ap = 0 ∧ Rep W base k (top h'.env) h' fl' live ∨
        ∃ c, ap = c.start + 8 ∧ c.size = nunits ∧ Rep W base k (top h'.env) h' fl' (c :: live)) := by
  have htake : ∀ {h : Heap E} {fl : List Blk} {q : Nat} {b : Blk}, I h.env → Rep W base k (top h.env) h fl live →
      b ∈ fl → nunits ≤ b.size → q ∈ base :: fl.map Blk.start → h.ptr q = b.start →
      ∃ ap h' fl', Umalloc.take W h nunits q b.start = .ok (ap, h') ∧ I h'.env ∧
        ∃ c, ap = c.start + 8 ∧ c.size = nunits ∧ Rep W base k (top h'.env) h' fl' (c :: live) := by
    intro h fl q b hI hr hb hle hq hptr
    obtain ⟨c, h', fl', heq, henv, hsize, hrep⟩ := hr.take hk (hW.bounded _ hI) hn hb hq hptr hle
    exact ⟨_, h', fl', heq, henv ▸ hI, c, rfl, hsize, henv.symm ▸ hrep⟩
  obtain ⟨seg, hwalk, hseg, -, hlen⟩ := hr.circle
  have hfl := hr.lay.length_lt (hW.bounded _ hI).le
  have hfuel : rounds = (rounds - (seg.length + 1)) + (seg.length + 1) := by omega
  rw [hfuel]
  rcases hr.search hn hwalk hseg hr.freep rfl with ⟨q, b, hb, hle, hq, hptr, heq⟩ | ⟨-, heq⟩
  · rw [heq]
    obtain ⟨ap, h', fl', htake, hI', hc⟩ := htake hI hr hb hle hq hptr
    exact ⟨ap, h', fl', htake, hI', .inr hc⟩
  · obtain ⟨p, h₁, fl₁, hmore, hI₁, hr₁, hres⟩ := hr.morecore hW hpos hlt hI
    rw [heq, hmore]
    rcases hres with ⟨rfl, rfl⟩ | ⟨rfl, b, hb, hbn⟩
    · exact ⟨0, h₁, fl₁, rfl, hI₁, .inl ⟨rfl, hr₁⟩⟩
    · have hfreep : h₁.freep ≠ 0 := by
        have := List.mem_cons.1 hr₁.freep
        have hsort := (List.pairwise_cons.1 hr₁.lay.sorted).1
        rcases this with he | hm
        · omega
        · have := hsort _ hm
          omega
      -- the second walk finds a block
      obtain ⟨seg₁, hwalk₁, hseg₁, hcover, hlen₁⟩ := hr₁.circle
      have hfl₁ := hr₁.lay.length_lt (hW.bounded _ hI₁).le
      have hfuel₁ : rounds - (seg.length + 1) = (rounds - (seg.length + 1) - (seg₁.length + 1)) + (seg₁.length + 1) := by
        omega
      rw [hfuel₁]
      change ∃ ap h' fl', (if h₁.freep = 0 then _ else _) = _ ∧ _
      rw [if_neg hfreep, at_ok (hr₁.mapped_node hr₁.freep), ok_bind]
      rcases hr₁.search hn hwalk₁ hseg₁ hr₁.freep rfl with ⟨q, b, hb, hle, hq, hptr, heq⟩ | ⟨hsmall, -⟩
      · rw [heq]
        obtain ⟨ap, h', fl', htake, hI', hc⟩ := htake hI₁ hr₁ hb hle hq hptr
        exact ⟨ap, h', fl', htake, hI', .inr hc⟩
      · have hlt := hsmall b.start (hcover _ (List.mem_cons_of_mem _ (List.mem_map_of_mem hb)))
        rw [hr₁.holds.sizes b (List.mem_append_left _ hb)] at hlt
        omega

/-- The allocator before its first call, with nothing in use, or with a free list. -/
def Ready (W : World E) (base k top : Nat) (h : Heap E) (live : List Blk) : Prop :=
  h.freep = 0 ∧ live = [] ∧ h.units = 0 ∧ W.mapped h.env base = true ∨ ∃ fl, Rep W base k top h fl live

theorem Rep.freep_ne (hpos : 0 < base) {top : Nat} (hr : Rep W base k top h fl live) : h.freep ≠ 0 := by
  rcases List.mem_cons.1 hr.freep with he | hm
  · omega
  · have := (List.pairwise_cons.1 hr.lay.sorted).1 _ hm
    omega

/-- The first call makes a circle of `base` alone. -/
theorem Ready.start (hpos : 0 < base) {top : Nat} (hr : Ready W base k top h live) :
    ∃ h' fl, start W h base = .ok h' ∧ h'.env = h.env ∧ Rep W base k top h' fl live := by
  rcases hr with ⟨hz, rfl, hunits, hmap⟩ | ⟨fl, hr⟩
  · refine ⟨{ h with ptr := Function.update h.ptr base base, freep := base, size := Function.update h.size base 0 }, [], ?_,
      rfl, ⟨nofun, nofun, .nil, .nil, nofun⟩, ⟨rfl, Function.update_self ..⟩, List.mem_cons_self,
      ⟨nofun, nofun, Function.update_self .., hmap, hunits.symm⟩⟩
    simp only [Umalloc.start, hz, if_true, Heap.setPtr, Heap.setSize, Heap.at, hmap, ok_bind]
  · exact ⟨h, fl, if_neg (hr.freep_ne hpos), rfl, hr⟩

/-- The size of the request is one that `sbrk` takes as a positive number. -/
abbrev Small (nbytes : Nat) : Prop := ((nbytes + 7) / 8 + 1) * 8 < 2 ^ 31

theorem Ready.malloc (hW : Grants W I top base k) (hk : k ∣ 8) (hpos : 0 < base) {nbytes : Nat} (hn : Small nbytes)
    (hI : I h.env) (hr : Ready W base k (top h.env) h live) :
    ∃ ap h' fl, malloc W h base nbytes = .ok (ap, h') ∧ I h'.env ∧
      (ap = 0 ∧ Rep W base k (top h'.env) h' fl live ∨
        ∃ c, ap = c.start + 8 ∧ c.size = (nbytes + 7) / 8 + 1 ∧ Rep W base k (top h'.env) h' fl (c :: live)) := by
  have hunits : Umalloc.nunits nbytes = (nbytes + 7) / 8 + 1 := by
    unfold Small at hn
    unfold Umalloc.nunits WORD
    omega
  obtain ⟨h₁, fl, hstart, henv, hr₁⟩ := hr.start hpos
  have hI₁ : I h₁.env := henv.symm ▸ hI
  rw [← henv] at hr₁
  obtain ⟨ap, h', fl', hloop, hI', hres⟩ := hr₁.mallocLoop hW hk hpos (Nat.succ_pos _) hn hI₁
  refine ⟨ap, h', fl', ?_, hI', hres⟩
  simp only [Umalloc.malloc, hstart, ok_bind, Heap.at, hr₁.mapped_node hr₁.freep, if_true, hunits, hloop]

end

/-! ## Programs -/

/-- A program with its allocator; `live` are the blocks it holds. -/
structure Prog (E : Type) where
  heap : Heap E
  live : List Blk

/-- What a program does: it takes a block, gives one back, or stores into its blocks. -/
inductive Call where
  | malloc (nbytes : Nat)
  | free (b : Blk)
  | use (ptr size : Nat → Nat)

namespace Prog

variable {base : Nat}

def step (W : World E) (base : Nat) (s : Prog E) : Call → Option (Prog E)
  | .malloc nbytes =>
    match malloc W s.heap base nbytes with
    | .ok (ap, h) => some (if ap = 0 then { s with heap := h } else ⟨h, ⟨ap - 8, h.size (ap - 8)⟩ :: s.live⟩)
    | .error _ => none
  | .free b =>
    if b ∈ s.live then
      match free W s.heap (plus b.start 1) with
      | .ok h => some ⟨h, s.live.erase b⟩
      | .error _ => none
    else none
  | .use ptr size => some { s with heap := { s.heap with ptr, size } }

/-- Requests are small enough, and a program stores inside its own blocks only. -/
def Allowed (s : Prog E) : Call → Prop
  | .malloc nbytes => Small nbytes
  | .free _ => True
  | .use ptr size => ∀ a, (∀ b ∈ s.live, ¬(b.start < a ∧ a < b.stop)) → ptr a = s.heap.ptr a ∧ size a = s.heap.size a

end Prog

theorem Rep.perm {top : Nat} {live' : List Blk} (hp : live.Perm live') (hr : Rep W base k top h fl live) :
    Rep W base k top h fl live' :=
  ⟨hr.lay.perm hp, hr.walk, hr.freep, hr.holds.perm (hp.append_left fl)⟩

/-- What a program stores in its blocks does not matter to the allocator. -/
theorem Rep.use {top : Nat} {ptr size : Nat → Nat} (hr : Rep W base k top h fl live)
    (hsame : ∀ a, (∀ b ∈ live, ¬(b.start < a ∧ a < b.stop)) → ptr a = h.ptr a ∧ size a = h.size a) :
    Rep W base k top { h with ptr, size } fl live := by
  have hbase : ∀ b ∈ live, ¬(b.start < base ∧ base < b.stop) := by
    intro b hb
    have := (hr.lay.used b hb).above
    omega
  have hfree : ∀ c ∈ fl, ∀ b ∈ live, ¬(b.start < c.start ∧ c.start < b.stop) := by
    intro c hc b hb
    have := hr.lay.across c hc b hb
    unfold Apart stop at *
    omega
  have hlive : ∀ c ∈ live, ∀ b ∈ live, ¬(b.start < c.start ∧ c.start < b.stop) := by
    intro c hc b hb hin
    by_cases hne : c = b
    · subst hne
      omega
    · have := hr.lay.disjoint.forall hc hb hne
      unfold Apart stop at *
      omega
  refine ⟨hr.lay, hr.walk.congr fun a ha => ?_, hr.freep, ?_, hr.holds.mapped, ?_, hr.holds.baseMapped, hr.holds.units⟩
  · rcases List.mem_cons.1 ha with rfl | ha
    · exact (hsame _ hbase).1
    · obtain ⟨c, hc, rfl⟩ := List.mem_map.1 ha
      exact (hsame _ (hfree c hc)).1
  · intro c hc
    refine Eq.trans (hsame _ ?_).2 (hr.holds.sizes c hc)
    rcases List.mem_append.1 hc with hc | hc
    · exact hfree c hc
    · exact hlive c hc
  · exact (hsame _ hbase).2.trans hr.holds.base0

section
variable {I : E → Prop} {top : E → Nat} (hW : Grants W I top base k) (hk : k ∣ 8) (hpos : 0 < base)

include hW hpos

theorem Ready.free (hI : I h.env) (hr : Ready W base k (top h.env) h live) (hb : b ∈ live) :
    ∃ h' fl, free W h (plus b.start 1) = .ok h' ∧ h'.env = h.env ∧ Rep W base k (top h.env) h' fl (live.erase b) := by
  rcases hr with ⟨-, rfl, -⟩ | ⟨fl, hr⟩
  · cases hb
  · obtain ⟨h', fl', hfree, henv, -, hrep⟩ := (hr.perm (List.perm_cons_erase hb)).free hpos (hW.bounded _ hI).le
    exact ⟨h', fl', hfree, henv, hrep⟩

include hk in
theorem ready_step (s : Prog E) (l : Call) (u : Prog E)
    (hs : I s.heap.env ∧ Ready W base k (top s.heap.env) s.heap s.live) (hl : s.Allowed l)
    (hstep : s.step W base l = some u) : I u.heap.env ∧ Ready W base k (top u.heap.env) u.heap u.live := by
  obtain ⟨hI, hr⟩ := hs
  cases l with
  | malloc nbytes =>
    obtain ⟨ap, h', fl, hmalloc, hI', hres⟩ := hr.malloc hW hk hpos hl hI
    simp only [Prog.step, hmalloc, Option.some.injEq] at hstep
    subst hstep
    rcases hres with ⟨rfl, hrep⟩ | ⟨c, rfl, -, hrep⟩
    · exact ⟨hI', .inr ⟨fl, hrep⟩⟩
    · have hsize : h'.size c.start = c.size := hrep.holds.sizes c (List.mem_append_right _ List.mem_cons_self)
      rw [if_neg (Nat.succ_ne_zero _), Nat.add_sub_cancel, hsize]
      exact ⟨hI', .inr ⟨fl, hrep⟩⟩
  | free b =>
    simp only [Prog.step] at hstep
    split at hstep
    · next hb =>
      obtain ⟨h', fl, hfree, henv, hrep⟩ := hr.free hW hpos hI hb
      simp only [hfree, Option.some.injEq] at hstep
      subst hstep
      dsimp only
      rw [henv]
      exact ⟨hI, .inr ⟨fl, hrep⟩⟩
    · cases hstep
  | use ptr size =>
    cases hstep
    refine ⟨hI, ?_⟩
    rcases hr with hr | ⟨fl, hr⟩
    · exact .inl hr
    · exact .inr ⟨fl, hr.use hl⟩

end

/-- Over every run of a program, the headers are a circle of free blocks in the order of their
addresses, disjoint and not touching, disjoint from the blocks in use and from `base`, and
free and used units are those that `sbrk` gave; `malloc` ends and returns 0 or a new block
that is large enough, and `free` ends. -/
theorem malloc_free_invariant {I : E → Prop} {top : E → Nat} (hW : Grants W I top base 8) (hpos : 0 < base) {h₀ : Heap E}
    (hI : I h₀.env) (hfreep : h₀.freep = 0) (hunits : h₀.units = 0) (hmap : W.mapped h₀.env base = true) {s : Prog E}
    (hrun : Run (Prog.step W base) Prog.Allowed ⟨h₀, []⟩ s) :
    Ready W base 8 (top s.heap.env) s.heap s.live ∧
      (∀ nbytes, Small nbytes → ∃ ap h' fl, malloc W s.heap base nbytes = .ok (ap, h') ∧
        (ap = 0 ∧ Rep W base 8 (top h'.env) h' fl s.live ∨
          8 ∣ ap ∧ ∃ c, ap = c.start + 8 ∧ nbytes ≤ 8 * (c.size - 1) ∧ Rep W base 8 (top h'.env) h' fl (c :: s.live))) ∧
      ∀ b ∈ s.live, ∃ h' fl, free W s.heap (b.start + 8) = .ok h' ∧
        Rep W base 8 (top h'.env) h' fl (s.live.erase b) := by
  have hinv := hrun.inv (fun s => I s.heap.env ∧ Ready W base 8 (top s.heap.env) s.heap s.live)
    (ready_step hW (dvd_refl 8) hpos) ⟨hI, .inl ⟨hfreep, rfl, hunits, hmap⟩⟩
  obtain ⟨hI', hr⟩ := hinv
  refine ⟨hr, fun nbytes hn => ?_, fun b hb => ?_⟩
  · obtain ⟨ap, h', fl, hmalloc, -, hres⟩ := hr.malloc hW (dvd_refl 8) hpos hn hI'
    refine ⟨ap, h', fl, hmalloc, hres.imp_right ?_⟩
    rintro ⟨c, rfl, hsize, hrep⟩
    have halign := (hrep.lay.used c List.mem_cons_self).aligned
    exact ⟨Nat.dvd_add halign (dvd_refl 8), c, rfl, by omega, hrep⟩
  · obtain ⟨h', fl, hfree, henv, hrep⟩ := hr.free hW hpos hI' hb
    have hplus : plus b.start 1 = b.start + 8 := by
      rcases hr with ⟨-, hlive, -⟩ | ⟨fl, hr⟩
      · rw [hlive] at hb
        cases hb
      · have hfit := hr.lay.used b hb
        have := hfit.le
        have := hfit.pos
        have := hW.bounded _ hI'
        unfold stop at *
        exact Nat.mod_eq_of_lt (by omega)
    rw [hplus] at hfree
    exact ⟨h', fl, hfree, henv ▸ hrep⟩

/-- Memory that grows up to an end, for fixed inputs. -/
def bump : World Nat where
  sbrk e n := .ok (if e + n.toNat < 2 ^ 31 then (e + n.toNat, e) else (e, FAILED))
  mapped e a := decide (a < e)

theorem bump_grants : Grants bump (fun e => 8 ∣ e ∧ 16 ≤ e ∧ e < 2 ^ 31) (fun e => e) 8 8 := by
  refine ⟨fun e he => he.2.1, fun e he => he.2.2.trans (by decide), fun e n he hn hdvd => ?_⟩
  have hpos : 0 < n.toNat := by
    rw [BitVec.toInt_eq_toNat_cond] at hn
    split at hn <;> omega
  by_cases hlt : e + n.toNat < 2 ^ 31
  · refine ⟨e + n.toNat, e, congrArg Except.ok (if_pos hlt), ⟨Nat.dvd_add he.1 hdvd, by omega, hlt⟩, fun a ha => ?_,
      Nat.le_add_right .., .inr ⟨he.1, le_rfl, le_rfl, fun j hj => decide_eq_true (by omega)⟩⟩
    have : a < e := of_decide_eq_true ha
    exact decide_eq_true (by omega)
  · exact ⟨e, FAILED, congrArg Except.ok (if_neg hlt), he, fun _ ha => ha, le_rfl, .inl rfl⟩

/-- A request of 10 bytes takes 3 units from the end of the first region. -/
theorem bump_malloc :
    ∃ s, Run (Prog.step bump 8) Prog.Allowed ⟨⟨16, fun _ => 0, fun _ => 0, 0, 0⟩, []⟩ s ∧ s.live = [⟨32760, 3⟩] ∧
      Ready bump 8 8 s.heap.env s.heap s.live := by
  have hrun : (Prog.step bump 8 ⟨⟨16, fun _ => 0, fun _ => 0, 0, 0⟩, []⟩ (.malloc 10)).map (·.live) =
      some [⟨32760, 3⟩] := by
    decide +kernel
  obtain ⟨s, hs, hlive⟩ := Option.map_eq_some_iff.1 hrun
  have hsmall : Small 10 := by decide
  have hr : Run (Prog.step bump 8) Prog.Allowed _ s := .single (l := .malloc 10) hsmall hs
  exact ⟨s, hr, hlive, (malloc_free_invariant bump_grants (by decide) (by decide) rfl rfl rfl hr).1⟩

end Xv6.Umalloc
