import Xv6.Umalloc.Blocks
/-!
# Giving a block back

The loop of `free` walks from `freep` along the circle to the node behind which
the block belongs, at most once around past `base`. The block is then joined
to the free block above it if they touch, and to the one below it.
-/

namespace Xv6.Umalloc

open Blk

variable {E : Type} {W : World E} {base k top : Nat} {h : Heap E} {fl l₁ l₂ live : List Blk} {b c d : Blk}

/-! ## The loop -/

section
variable {a bp n : Nat} {rest : List Nat}

/-- From a node below `bp` the loop goes up to the last node below it. -/
theorem freeLoop_up (hwalk : Walk h.ptr a (a :: rest) base) (hsort : (a :: rest).Pairwise (· < ·))
    (hmap : ∀ x ∈ a :: rest, W.mapped h.env x = true) (hbase : base ≤ a) (ha : a < bp) (hbp : bp ∉ rest)
    (hn : rest.length < n) :
    ∃ u p v, a :: rest = u ++ p :: v ∧ (∀ x ∈ u ++ [p], x < bp) ∧ (∀ y ∈ v, bp < y) ∧ freeLoop W h bp n a = .ok p := by
  obtain ⟨n, rfl⟩ := Nat.exists_eq_add_one_of_ne_zero (Nat.ne_zero_of_lt hn)
  induction rest generalizing a n with
  | nil =>
    have hq : h.ptr a = base := hwalk.2
    refine ⟨[], a, [], rfl, by simpa using ha, nofun, ?_⟩
    rw [freeLoop, at_ok (hmap a List.mem_cons_self), hq]
    refine (if_neg (by omega)).trans (if_pos ⟨hbase, .inl ha⟩)
  | cons q rest ih =>
    have hq : h.ptr a = q := hwalk.2.1
    obtain ⟨hlt, hsort'⟩ := List.pairwise_cons.1 hsort
    have haq := hlt q List.mem_cons_self
    have hne : bp ≠ q := fun he => hbp (he ▸ List.mem_cons_self)
    have hstep : freeLoop W h bp (n + 1) a = if bp < q then .ok a else freeLoop W h bp n q := by
      rw [freeLoop, at_ok (hmap a List.mem_cons_self), hq]
      change (if a < bp ∧ bp < q then _ else if q ≤ a ∧ _ then _ else _) = _
      rw [if_neg (show ¬(q ≤ a ∧ (a < bp ∨ bp < q)) by omega)]
      simp only [ha, true_and]
    rw [hstep]
    by_cases hbq : bp < q
    · refine ⟨[], a, q :: rest, rfl, by simpa using ha, fun y hy => ?_, if_pos hbq⟩
      rcases List.mem_cons.1 hy with rfl | hy
      · exact hbq
      · exact hbq.trans ((List.pairwise_cons.1 hsort').1 y hy)
    · have hlen : rest.length < n := Nat.lt_of_succ_lt_succ hn
      obtain ⟨n, rfl⟩ := Nat.exists_eq_add_one_of_ne_zero (Nat.ne_zero_of_lt hlen)
      have hwalk' : Walk h.ptr q (q :: rest) base := ⟨rfl, hwalk.2.2⟩
      obtain ⟨u, p, v, hsplit, hlow, hhigh, hloop⟩ := ih hwalk' hsort' (fun x hx => hmap x (List.mem_cons_of_mem _ hx))
        (by omega) (by omega) (fun hm => hbp (List.mem_cons_of_mem _ hm)) n hlen
      refine ⟨a :: u, p, v, by rw [hsplit]; rfl, fun x hx => ?_, hhigh, by rw [if_neg hbq, hloop]⟩
      rcases List.mem_cons.1 hx with rfl | hx
      · exact ha
      · exact hlow x hx

/-- From a node above `bp` the loop goes around to `base`. -/
theorem freeLoop_around (hwalk : Walk h.ptr a (a :: rest) base) (hsort : (a :: rest).Pairwise (· < ·))
    (hmap : ∀ x ∈ a :: rest, W.mapped h.env x = true) (ha : bp < a) (hbase : base < bp) :
    freeLoop W h bp (n + (rest.length + 1)) a = freeLoop W h bp n base := by
  induction rest generalizing a with
  | nil =>
    have hq : h.ptr a = base := hwalk.2
    rw [List.length_nil, freeLoop, at_ok (hmap a List.mem_cons_self), hq]
    exact (if_neg (by omega)).trans (if_neg (by omega))
  | cons q rest ih =>
    have hq : h.ptr a = q := hwalk.2.1
    obtain ⟨hlt, hsort'⟩ := List.pairwise_cons.1 hsort
    have haq := hlt q List.mem_cons_self
    rw [List.length_cons, ← Nat.add_assoc, freeLoop, at_ok (hmap a List.mem_cons_self), hq]
    refine (if_neg (by omega)).trans ((if_neg (by omega)).trans ?_)
    exact ih ⟨rfl, hwalk.2.2⟩ hsort' (fun x hx => hmap x (List.mem_cons_of_mem _ hx)) (by omega)

end

/-- The nodes of the circle, in order. -/
theorem Lay.sorted (hl : Lay base k top fl live) : (base :: fl.map Blk.start).Pairwise (· < ·) := by
  refine List.pairwise_cons.2 ⟨fun x hx => ?_, List.pairwise_map.2 (hl.below.imp fun {b c} hbc => ?_)⟩
  · obtain ⟨b, hb, rfl⟩ := List.mem_map.1 hx
    have := (hl.free b hb).above
    omega
  · unfold Below stop at hbc
    omega

theorem length_le {m : Nat} (hfl : ∀ b ∈ fl, m ≤ b.start ∧ 0 < b.size ∧ b.stop ≤ top) (hbelow : fl.Pairwise Below)
    (hm : m ≤ top) : m + 8 * fl.length ≤ top := by
  induction fl generalizing m with
  | nil => exact hm
  | cons b fl ih =>
    obtain ⟨hb, hfl'⟩ := List.pairwise_cons.1 hbelow
    obtain ⟨h₁, h₂, h₃⟩ := hfl b List.mem_cons_self
    have := ih (m := b.stop) (fun c hc => ⟨Nat.le_of_lt (hb c hc), (hfl c (List.mem_cons_of_mem _ hc)).2⟩) hfl' h₃
    rw [List.length_cons]
    unfold stop at this
    omega

/-- There are fewer nodes than half of the rounds. -/
theorem Lay.length_lt (hl : Lay base k top fl live) (htop : top ≤ WORD) : 2 * (fl.length + 2) < rounds := by
  have h₁ : WORD = 4294967296 := rfl
  have h₂ : rounds = 2147483648 := rfl
  have := length_le (fun b hb => ⟨Nat.zero_le _, (hl.free b hb).pos, (hl.free b hb).le⟩) hl.below (Nat.zero_le top)
  omega

theorem Rep.mapped_node (hr : Rep W base k top h fl live) {x : Nat} (hx : x ∈ base :: fl.map Blk.start) :
    W.mapped h.env x = true := by
  rcases List.mem_cons.1 hx with rfl | hx
  · exact hr.holds.baseMapped
  · obtain ⟨b, hb, rfl⟩ := List.mem_map.1 hx
    exact hr.holds.start_mapped (List.mem_append_left _ hb) (hr.lay.free b hb).pos

/-- A node of the circle, and the blocks up to it and behind it. -/
theorem split_nodes {u v : List Nat} {p : Nat} (hs : base :: fl.map Blk.start = u ++ p :: v) :
    ∃ l₁ l₂, fl = l₁ ++ l₂ ∧ base :: l₁.map Blk.start = u ++ [p] ∧ l₂.map Blk.start = v := by
  cases u with
  | nil =>
    obtain ⟨rfl, rfl⟩ := List.cons.inj hs
    exact ⟨[], fl, rfl, rfl, rfl⟩
  | cons x u =>
    obtain ⟨rfl, hs'⟩ := List.cons.inj hs
    obtain ⟨l₁, l', rfl, rfl, hl'⟩ := List.map_eq_append_iff.1 hs'
    obtain ⟨c, l₂, rfl, rfl, rfl⟩ := List.map_eq_cons_iff.1 hl'
    exact ⟨l₁ ++ [c], l₂, by simp, by simp, rfl⟩

/-- The loop finds the node behind which a block in use belongs. -/
theorem Rep.freeLoop (hr : Rep W base k top h fl (b :: live)) (htop : top ≤ WORD) :
    ∃ A p l₁ l₂, fl = l₁ ++ l₂ ∧ base :: l₁.map Blk.start = A ++ [p] ∧ (∀ c ∈ l₁, c.start < b.start) ∧
      (∀ c ∈ l₂, b.start < c.start) ∧ freeLoop W h b.start rounds h.freep = .ok p := by
  have hsort := hr.lay.sorted
  have hlen := hr.lay.length_lt htop
  have hbfit := hr.lay.used b List.mem_cons_self
  have hbase : base < b.start := by
    have := hbfit.above
    omega
  have hbp : b.start ∉ base :: fl.map Blk.start := by
    rintro hm
    rcases List.mem_cons.1 hm with he | hm
    · omega
    · obtain ⟨c, hc, he⟩ := List.mem_map.1 hm
      exact (hr.lay.across c hc b List.mem_cons_self).start_ne (hr.lay.free c hc).pos hbfit.pos he
  have hup : ∀ n, fl.length < n → ∃ u p v, base :: fl.map Blk.start = u ++ p :: v ∧ (∀ x ∈ u ++ [p], x < b.start) ∧
      (∀ y ∈ v, b.start < y) ∧ Umalloc.freeLoop W h b.start n base = .ok p := by
    intro n hn
    exact freeLoop_up hr.walk hsort (fun x hx => hr.mapped_node hx) le_rfl hbase
      (fun hm => hbp (List.mem_cons_of_mem _ hm)) (by rwa [List.length_map])
  suffices hloop : ∃ u p v, base :: fl.map Blk.start = u ++ p :: v ∧ (∀ x ∈ u ++ [p], x < b.start) ∧
      (∀ y ∈ v, b.start < y) ∧ Umalloc.freeLoop W h b.start rounds h.freep = .ok p by
    obtain ⟨u, p, v, hsplit, hlow, hhigh, hloop⟩ := hloop
    obtain ⟨l₁, l₂, rfl, hA, rfl⟩ := split_nodes hsplit
    refine ⟨u, p, l₁, l₂, rfl, hA, fun c hc => hlow _ ?_, fun c hc => hhigh _ (List.mem_map_of_mem hc), hloop⟩
    rw [← hA]
    exact List.mem_cons_of_mem _ (List.mem_map_of_mem hc)
  obtain ⟨u, v, huv⟩ := List.append_of_mem hr.freep
  have hlen' : u.length + (v.length + 1) = fl.length + 1 := by
    have := congrArg List.length huv
    simp only [List.length_cons, List.length_map, List.length_append] at this
    omega
  have hwalk : Walk h.ptr h.freep (h.freep :: v) base := ⟨rfl, (huv ▸ hr.walk).after⟩
  have hmap : ∀ x ∈ h.freep :: v, W.mapped h.env x = true := by
    intro x hx
    apply hr.mapped_node
    rw [huv]
    exact List.mem_append_right _ hx
  obtain ⟨-, hsort', hcross⟩ := List.pairwise_append.1 (huv ▸ hsort)
  have hge : base ≤ h.freep := by
    rcases List.mem_cons.1 hr.freep with he | hm
    · exact he.symm.le
    · exact ((List.pairwise_cons.1 hsort).1 _ hm).le
  have hne : h.freep ≠ b.start := fun he => hbp (he ▸ hr.freep)
  rcases Nat.lt_or_gt_of_ne hne with hlt | hgt
  · have hv : b.start ∉ v := fun hm => hbp (by rw [huv]; exact List.mem_append_right _ (List.mem_cons_of_mem _ hm))
    obtain ⟨u', p, v', hsplit, hlow, hhigh, hloop⟩ := freeLoop_up hwalk hsort' hmap hge hlt hv (by omega : v.length < rounds)
    refine ⟨u ++ u', p, v', by rw [huv, hsplit, List.append_assoc], fun x hx => ?_, hhigh, hloop⟩
    rw [List.append_assoc] at hx
    rcases List.mem_append.1 hx with hx | hx
    · exact (hcross x hx _ List.mem_cons_self).trans hlt
    · exact hlow x hx
  · have hfuel : rounds = (rounds - (v.length + 1)) + (v.length + 1) := by omega
    rw [hfuel, freeLoop_around hwalk hsort' hmap hgt hbase]
    exact hup _ (by omega)

/-! ## Joining -/

/-- A block is linked to the free blocks above it, but not yet to the node `p` below it. -/
structure Mid (W : World E) (base k top : Nat) (h : Heap E) (A : List Nat) (p : Nat) (l₁ : List Blk) (b : Blk)
    (l₂ live : List Blk) : Prop where
  lay : Lay base k top (l₁ ++ l₂) (b :: live)
  nodes : base :: l₁.map Blk.start = A ++ [p]
  front : Walk h.ptr base A p
  back : Walk h.ptr (h.ptr b.start) (l₂.map Blk.start) base
  holds : Holds W base h (b :: (l₁ ++ l₂ ++ live))
  low : ∀ c ∈ l₁, c.stop ≤ b.start
  high : ∀ c ∈ l₂, b.Below c

theorem plus_eq_iff (htop : b.stop ≤ WORD) {q : Nat} (hpos : 0 < q) (hq : q < WORD) :
    plus b.start b.size = q ↔ b.stop = q := by
  change b.stop % WORD = q ↔ _
  rcases Nat.lt_or_eq_of_le htop with hlt | heq
  · rw [Nat.mod_eq_of_lt hlt]
  · rw [heq, Nat.mod_self]
    omega

/-- The size of two blocks that touch does not wrap. -/
theorem Blk.Fits.join_mod (hb : b.Fits base k top) (hc : c.Fits base k top) (htop : top ≤ WORD) (h : b.stop = c.start) :
    (b.size + c.size) % WORD = b.size + c.size := by
  apply Nat.mod_eq_of_lt
  have : b.start + 8 * (b.size + c.size) ≤ top := (hb.join hc h).le
  have := hb.pos
  omega

/-- The nodes of the list, cut behind `p`. -/
theorem nodes_append {A : List Nat} {p : Nat} (hnodes : base :: l₁.map Blk.start = A ++ [p]) (l : List Blk) :
    base :: (l₁ ++ l).map Blk.start = A ++ p :: l.map Blk.start := by
  rw [List.map_append, ← List.cons_append, hnodes, List.append_assoc]
  rfl

/-- No other block begins where a block in use does. -/
theorem Lay.start_ne (hl : Lay base k top fl (b :: live)) (hc : c ∈ fl ++ live) : c.start ≠ b.start := by
  have hb := hl.used b List.mem_cons_self
  rcases List.mem_append.1 hc with hc | hc
  · exact (hl.across c hc b List.mem_cons_self).start_ne (hl.free c hc).pos hb.pos
  · have hapart := (List.pairwise_cons.1 hl.disjoint).1 c hc
    exact (hapart.start_ne hb.pos (hl.used c (List.mem_cons_of_mem _ hc)).pos).symm

theorem Lay.start_not_mem (hl : Lay base k top fl (b :: live)) : b.start ∉ base :: fl.map Blk.start := by
  intro hm
  rcases List.mem_cons.1 hm with he | hm
  · have := (hl.used b List.mem_cons_self).above
    omega
  · obtain ⟨c, hc, he⟩ := List.mem_map.1 hm
    exact hl.start_ne (List.mem_append_left _ hc) he

section
variable {A : List Nat} {p : Nat} (hpos : 0 < base) (htop : top ≤ WORD)

include hpos htop

theorem Rep.joinUpper (hr : Rep W base k top h (l₁ ++ l₂) (b :: live)) (hnodes : base :: l₁.map Blk.start = A ++ [p])
    (hlow : ∀ c ∈ l₁, c.start < b.start) (hhigh : ∀ c ∈ l₂, b.start < c.start) :
    ∃ h' b' l₂', joinUpper W h p b.start = .ok h' ∧ h'.env = h.env ∧ b'.start = b.start ∧ b.size ≤ b'.size ∧
      Mid W base k top h' A p l₁ b' l₂' live := by
  have hb := hr.lay.used b List.mem_cons_self
  have hbmap : W.mapped h.env b.start = true :=
    hr.holds.start_mapped (List.mem_append_right _ List.mem_cons_self) hb.pos
  have hbsize : h.size b.start = b.size := hr.holds.sizes b (List.mem_append_right _ List.mem_cons_self)
  have hall := nodes_append hnodes l₂
  have hwalk := hr.walk
  rw [hall] at hwalk
  have hpmap : W.mapped h.env p = true := hr.mapped_node (by rw [hall]; simp)
  have hbnode := hr.lay.start_not_mem
  rw [hall] at hbnode
  have hbA : ∀ x ∈ A, x ≠ b.start := fun x hx he => hbnode (List.mem_append_left _ (he ▸ hx))
  have hbl₂ : ∀ x ∈ l₂.map Blk.start, x ≠ b.start := fun x hx he => hbnode (by simp [he ▸ hx])
  have hholds : Holds W base h (b :: (l₁ ++ l₂ ++ live)) := hr.holds.perm List.perm_middle
  have hlow' : ∀ c ∈ l₁, c.stop ≤ b.start := fun c hc => hr.lay.stop_le (List.mem_append_left _ hc) (hlow c hc)
  have hhigh' : ∀ c ∈ l₂, b.stop ≤ c.start := fun c hc => hr.lay.le_start (List.mem_append_right _ hc) (hhigh c hc)
  -- the block is linked to what follows it
  have hlink : (∀ c ∈ l₂, b.Below c) →
      Mid W base k top { h with ptr := Function.update h.ptr b.start (h.ptr p) } A p l₁ b l₂ live := by
    intro hbelow
    refine ⟨hr.lay, hnodes, hwalk.before.congr fun x hx => Function.update_of_ne (hbA x hx) .., ?_, hholds.setPtr _ _,
      hlow', hbelow⟩
    dsimp only
    rw [Function.update_self]
    exact hwalk.after.congr fun x hx => Function.update_of_ne (hbl₂ x hx) ..
  have hq := hwalk.after
  unfold Umalloc.joinUpper
  rw [at_ok hbmap, at_ok hpmap, hbsize]
  change ∃ h' b' l₂', (if plus b.start b.size = h.ptr p then _ else _) = _ ∧ _
  cases l₂ with
  | nil =>
    have hq : h.ptr p = base := hq
    have hne : plus b.start b.size ≠ base := by
      rw [Ne, plus_eq_iff (hb.le.trans htop) hpos (hb.base_lt.trans (hb.start_lt.trans_le htop))]
      have := hb.above
      unfold stop
      omega
    rw [hq, if_neg hne, setPtr_ok hbmap]
    rw [hq] at hlink
    exact ⟨_, b, [], rfl, rfl, rfl, le_rfl, hlink nofun⟩
  | cons c l₂ =>
    have hc := hr.lay.free c (List.mem_append_right _ List.mem_cons_self)
    have hqc : h.ptr p = c.start := hq.1
    have hcl₂ := (List.pairwise_cons.1 (List.pairwise_append.1 hr.lay.below).2.1).1
    have hiff := plus_eq_iff (hb.le.trans htop) (Nat.zero_lt_of_lt hc.base_lt) (hc.start_lt.trans_le htop)
    by_cases hbc : b.stop = c.start
    · have hcmap : W.mapped h.env c.start = true := hr.mapped_node (by simp)
      have hcsize : h.size c.start = c.size := hr.holds.sizes c (by simp)
      have hmod := hb.join_mod hc htop hbc
      have hperm : (b :: (l₁ ++ c :: l₂ ++ live)).Perm (b :: c :: (l₁ ++ l₂ ++ live)) :=
        (List.perm_middle.append_right live).cons b
      have hne : ∀ d ∈ l₁ ++ l₂ ++ live, d.start ≠ b.start := by
        intro d hd
        apply hr.lay.start_ne
        simp only [List.mem_append, List.mem_cons] at hd ⊢
        tauto
      refine ⟨{ h with size := Function.update h.size b.start (b.size + c.size)
                       ptr := Function.update h.ptr b.start (h.ptr c.start) }, b.join c, l₂, ?_, rfl, rfl, Nat.le_add_right ..,
        hr.lay.joinUpper hbc, hnodes, ?_, ?_, ((hholds.perm hperm).join hbc hne hb.base_lt.ne).setPtr _ _, hlow', fun d hd => ?_⟩
      · simp only [hqc, hiff.2 hbc, if_true, Heap.at, Heap.setSize, Heap.setPtr, hcmap, hbmap, ok_bind, hcsize, hmod]
      · exact hwalk.before.congr fun x hx => Function.update_of_ne (hbA x hx) ..
      · have hself : Function.update h.ptr b.start (h.ptr c.start) b.start = h.ptr c.start := Function.update_self ..
        change Walk _ (Function.update h.ptr b.start (h.ptr c.start) b.start) _ _
        rw [hself]
        exact hq.2.congr fun x hx => Function.update_of_ne (hbl₂ x (List.mem_cons_of_mem _ hx)) ..
      · have := hcl₂ d hd
        unfold Below at *
        rwa [join_stop hbc]
    · rw [hqc, if_neg (fun he => hbc (hiff.1 he)), setPtr_ok hbmap]
      rw [hqc] at hlink
      refine ⟨_, b, c :: l₂, rfl, rfl, rfl, le_rfl, hlink fun d hd => ?_⟩
      have hd' := hhigh' d hd
      rcases List.mem_cons.1 hd with rfl | hd
      · exact Nat.lt_of_le_of_ne hd' hbc
      · have := hcl₂ d hd
        have := hhigh' c List.mem_cons_self
        have := hc.pos
        unfold Below stop at *
        omega

theorem Mid.joinLower (hm : Mid W base k top h A p l₁ b l₂ live) :
    ∃ h' fl', joinLower W h p b.start = .ok h' ∧ h'.env = h.env ∧ (∃ c ∈ fl', b.size ≤ c.size) ∧
      Rep W base k top { h' with freep := p } fl' live := by
  have hb := hm.lay.used b List.mem_cons_self
  have hbmap : W.mapped h.env b.start = true := hm.holds.start_mapped List.mem_cons_self hb.pos
  have hbsize : h.size b.start = b.size := hm.holds.sizes b List.mem_cons_self
  have hall := nodes_append hm.nodes l₂
  have hbnode := hm.lay.start_not_mem
  have hsort := hm.lay.sorted
  rw [hall] at hbnode hsort
  have hpA : ∀ x ∈ A, x ≠ p := fun x hx => ((List.pairwise_append.1 hsort).2.2 x hx p List.mem_cons_self).ne
  have hpl₂ : ∀ x ∈ l₂.map Blk.start, x ≠ p := fun x hx =>
    ((List.pairwise_cons.1 (List.pairwise_append.1 hsort).2.1).1 x hx).ne'
  have hbp : b.start ≠ p := fun he => hbnode (by simp [he])
  -- the node below is linked to the block, if they do not touch
  have hlink : (∀ c ∈ l₁, c.Below b) →
      Rep W base k top { h with ptr := Function.update h.ptr p b.start, freep := p } (l₁ ++ b :: l₂) live := by
    intro hbelow
    have hall' : base :: (l₁ ++ b :: l₂).map Blk.start = A ++ p :: b.start :: l₂.map Blk.start :=
      nodes_append hm.nodes (b :: l₂)
    refine ⟨hm.lay.insert hbelow hm.high, ?_, ?_, (hm.holds.perm ?_).setPtr _ _⟩
    · rw [hall']
      refine (hm.front.congr fun x hx => Function.update_of_ne (hpA x hx) ..).append ⟨rfl, ?_⟩
      refine ⟨Function.update_self .., ?_⟩
      dsimp only
      rw [Function.update_of_ne hbp]
      exact hm.back.congr fun x hx => Function.update_of_ne (hpl₂ x hx) ..
    · rw [hall']
      simp
    · rw [List.append_assoc, List.append_assoc]
      exact List.perm_middle.symm
  rcases List.eq_nil_or_concat' l₁ with rfl | ⟨l, d, rfl⟩
  · obtain ⟨rfl, rfl⟩ : A = [] ∧ p = base := by
      have := hm.nodes
      cases A with
      | nil => exact ⟨rfl, (List.cons.inj this).1.symm⟩
      | cons x A => simp at this
    have hne : plus p 0 ≠ b.start := by
      have := hb.above
      have := hb.le
      unfold plus stop at *
      rw [Nat.mod_eq_of_lt (by omega)]
      omega
    refine ⟨{ h with ptr := Function.update h.ptr p b.start }, [] ++ b :: l₂, ?_, rfl, ⟨b, by simp, le_rfl⟩, hlink nofun⟩
    simp only [Umalloc.joinLower, Heap.at, Heap.setPtr, hm.holds.baseMapped, hm.holds.base0, if_true, ok_bind, hne, if_false]
  · obtain ⟨rfl, hdp⟩ : base :: l.map Blk.start = A ∧ [d.start] = [p] := by
      have := hm.nodes
      rw [List.map_append, ← List.cons_append] at this
      exact List.append_inj' this rfl
    obtain rfl : d.start = p := List.singleton_inj.1 hdp
    have hmem : d ∈ l ++ [d] ++ l₂ := by simp
    have hd := hm.lay.free d hmem
    have hdmap : W.mapped h.env d.start = true :=
      hm.holds.start_mapped (List.mem_cons_of_mem _ (List.mem_append_left _ hmem)) hd.pos
    have hdsize : h.size d.start = d.size := hm.holds.sizes d (List.mem_cons_of_mem _ (List.mem_append_left _ hmem))
    have hiff := plus_eq_iff (hd.le.trans htop) (Nat.zero_lt_of_lt hb.base_lt) (hb.start_lt.trans_le htop)
    by_cases hdb : d.stop = b.start
    · have hlay := hm.lay
      rw [List.append_assoc] at hlay
      have hmod := hd.join_mod hb htop hdb
      have hne : ∀ x ∈ l ++ l₂ ++ live, x.start ≠ d.start := by
        intro x hx
        rcases List.mem_append.1 hx with hx | hx
        · rcases List.mem_append.1 hx with hx | hx
          · exact hpA x.start (List.mem_cons_of_mem _ (List.mem_map_of_mem hx))
          · exact hpl₂ x.start (List.mem_map_of_mem hx)
        · have hx' := hm.lay.used x (List.mem_cons_of_mem _ hx)
          exact ((hm.lay.across d hmem x (List.mem_cons_of_mem _ hx)).start_ne hd.pos hx'.pos).symm
      have hperm : (b :: (l ++ [d] ++ l₂ ++ live)).Perm (d :: b :: (l ++ l₂ ++ live)) := by
        refine (List.Perm.cons b ?_).trans (List.Perm.swap d b _)
        simp
      have hperm' : (d.join b :: (l ++ l₂ ++ live)).Perm (l ++ d.join b :: l₂ ++ live) :=
        List.perm_middle.symm.append_right live
      have hall' : base :: (l ++ d.join b :: l₂).map Blk.start = base :: l.map Blk.start ++ d.start :: l₂.map Blk.start := by
        rw [List.map_append]
        rfl
      refine ⟨{ h with size := Function.update h.size d.start (d.size + b.size)
                       ptr := Function.update h.ptr d.start (h.ptr b.start) }, l ++ d.join b :: l₂, ?_, rfl,
        ⟨d.join b, by simp, Nat.le_add_left ..⟩, hlay.joinLower hdb hm.high, ?_, ?_,
        (((hm.holds.perm hperm).join hdb hne hd.base_lt.ne).perm hperm').setPtr _ _⟩
      · simp only [Umalloc.joinLower, Heap.at, Heap.setSize, Heap.setPtr, hdmap, hbmap, hdsize, hbsize, if_true, ok_bind,
          hiff.2 hdb, hmod]
      · rw [hall']
        refine (hm.front.congr fun x hx => Function.update_of_ne (hpA x hx) ..).append ⟨rfl, ?_⟩
        dsimp only
        rw [Function.update_self]
        exact hm.back.congr fun x hx => Function.update_of_ne (hpl₂ x hx) ..
      · rw [hall']
        simp
    · refine ⟨{ h with ptr := Function.update h.ptr d.start b.start }, l ++ [d] ++ b :: l₂, ?_, rfl, ⟨b, by simp, le_rfl⟩,
        hlink fun c hc => ?_⟩
      · simp only [Umalloc.joinLower, Heap.at, Heap.setPtr, hdmap, hdsize, if_true, ok_bind, hiff, hdb, if_false]
      · have hcb := hm.low c hc
        rcases List.mem_append.1 hc with hc | hc
        · have hcd := (List.pairwise_append.1 (List.pairwise_append.1 hm.lay.below).1).2.2 c hc d List.mem_cons_self
          have := hm.low d (by simp)
          unfold Below stop at *
          omega
        · obtain rfl := List.mem_singleton.1 hc
          exact Nat.lt_of_le_of_ne hcb hdb

/-- A block in use becomes free, as a part of a free block. -/
theorem Rep.free (hr : Rep W base k top h fl (b :: live)) :
    ∃ h' fl', free W h (plus b.start 1) = .ok h' ∧ h'.env = h.env ∧ (∃ c ∈ fl', b.size ≤ c.size) ∧
      Rep W base k top h' fl' live := by
  have hb := hr.lay.used b List.mem_cons_self
  have hbp : (plus b.start 1 + WORD - 8) % WORD = b.start := by
    have := hb.le
    have := hb.pos
    unfold plus stop WORD at *
    omega
  obtain ⟨A, p, l₁, l₂, rfl, hnodes, hlow, hhigh, hloop⟩ := hr.freeLoop htop
  obtain ⟨h₁, b', l₂', hupper, henv, hstart, hsize, hmid⟩ := hr.joinUpper hpos htop hnodes hlow hhigh
  obtain ⟨h₂, fl', hlower, henv', ⟨c, hc, hle⟩, hrep⟩ := hmid.joinLower hpos htop
  refine ⟨{ h₂ with freep := p }, fl', ?_, henv'.trans henv, ⟨c, hc, hsize.trans hle⟩, hrep⟩
  rw [hstart] at hlower
  simp only [Umalloc.free, hbp, hloop, hupper, hlower, ok_bind]

end

/-! ## More memory -/

/-- What the allocator needs of `sbrk`, in the states `I` of the process: it fails, or gives a
region above all memory so far, which ends at `top`; and it takes nothing away. -/
structure Grants (W : World E) (I : E → Prop) (top : E → Nat) (base k : Nat) : Prop where
  above : ∀ e, I e → base + 8 ≤ top e
  bounded : ∀ e, I e → top e < WORD
  sbrk : ∀ e (n : BitVec 32), I e → 0 < n.toInt → 8 ∣ n.toNat → ∃ e' p, W.sbrk e n = .ok (e', p) ∧ I e' ∧
    (∀ a, W.mapped e a = true → W.mapped e' a = true) ∧ top e ≤ top e' ∧
    (p = FAILED ∨ k ∣ p ∧ top e ≤ p ∧ p + n.toNat ≤ top e' ∧ ∀ j, 8 * j < n.toNat → W.mapped e' (p + 8 * j) = true)

theorem Lay.mono {top' : Nat} (hl : Lay base k top fl live) (htop : top ≤ top') : Lay base k top' fl live :=
  ⟨fun b hb => { hl.free b hb with le := (hl.free b hb).le.trans htop },
    fun b hb => { hl.used b hb with le := (hl.used b hb).le.trans htop }, hl.below, hl.disjoint, hl.across⟩

theorem Rep.setEnv {e : E} {top' : Nat} (hr : Rep W base k top h fl live) (htop : top ≤ top')
    (hmap : ∀ a, W.mapped h.env a = true → W.mapped e a = true) : Rep W base k top' { h with env := e } fl live :=
  ⟨hr.lay.mono htop, hr.walk, hr.freep, hr.holds.sizes, fun b hb j hj => hmap _ (hr.holds.mapped b hb j hj), hr.holds.base0,
    hmap _ hr.holds.baseMapped, hr.holds.units⟩

/-- A new region is one more block in use. -/
theorem Rep.grow {top' : Nat} (hr : Rep W base k top h fl live) (htop : top ≤ b.start) (hb : b.Fits base k top')
    (hmap : ∀ j < b.size, W.mapped h.env (b.start + 8 * j) = true) :
    Rep W base k top' { h with units := h.units + b.size, size := Function.update h.size b.start b.size } fl (b :: live) := by
  have htop' : top ≤ top' := htop.trans ((Nat.le_add_right ..).trans hb.le)
  have hlt : ∀ c ∈ fl ++ live, c.stop ≤ b.start ∧ c.start ≠ b.start := by
    intro c hc
    have hfit : c.Fits base k top := by
      rcases List.mem_append.1 hc with hc | hc
      · exact hr.lay.free c hc
      · exact hr.lay.used c hc
    have := hfit.le
    have := hfit.pos
    unfold stop at *
    omega
  have hmem : ∀ c ∈ fl ++ b :: live, c = b ∨ c ∈ fl ++ live := by
    intro c hc
    simp only [List.mem_append, List.mem_cons] at hc ⊢
    tauto
  have hbase := hb.base_lt.ne
  obtain ⟨hfree, hused, hbelow, hdis, hacross⟩ := hr.lay.mono htop'
  refine ⟨⟨hfree, ?_, hbelow, ?_, ?_⟩, hr.walk, hr.freep, ?_, ?_, ?_, hr.holds.baseMapped, ?_⟩
  · intro c hc
    rcases List.mem_cons.1 hc with rfl | hc
    · exact hb
    · exact hused c hc
  · exact List.pairwise_cons.2 ⟨fun c hc => .inr (hlt c (List.mem_append_right _ hc)).1, hdis⟩
  · intro c hc d hd
    rcases List.mem_cons.1 hd with rfl | hd
    · exact .inl (hlt c (List.mem_append_left _ hc)).1
    · exact hacross c hc d hd
  · intro c hc
    rcases hmem c hc with rfl | hc
    · exact Function.update_self ..
    · exact (Function.update_of_ne (hlt c hc).2 ..).trans (hr.holds.sizes c hc)
  · intro c hc
    rcases hmem c hc with rfl | hc
    · exact hmap
    · exact hr.holds.mapped c hc
  · exact (Function.update_of_ne hbase ..).trans hr.holds.base0
  · have := hr.holds.units
    simp only [List.map_append, List.map_cons, List.sum_append, List.sum_cons] at this ⊢
    omega

/-- `morecore` fails and changes nothing, or there is then a free block that is large enough. -/
theorem Rep.morecore {I : E → Prop} {top : E → Nat} (hW : Grants W I top base k) (hpos : 0 < base) {nu : Nat}
    (hnu : nu * 8 < 2 ^ 31) (hI : I h.env) (hr : Rep W base k (top h.env) h fl live) :
    ∃ p h' fl', morecore W h nu = .ok (p, h') ∧ I h'.env ∧ Rep W base k (top h'.env) h' fl' live ∧
      (p = 0 ∧ fl' = fl ∨ p = h'.freep ∧ ∃ c ∈ fl', nu ≤ c.size) := by
  obtain ⟨m, hm, hle⟩ : ∃ m, (if nu < 4096 then 4096 else nu) = m ∧ nu ≤ m ∧ 0 < m ∧ m * 8 < 2 ^ 31 := by
    refine ⟨_, rfl, ?_⟩
    split <;> omega
  have hn : (BitVec.ofNat 32 (m * 8)).toNat = m * 8 := by
    rw [BitVec.toNat_ofNat, Nat.mod_eq_of_lt (by omega)]
  have hint : 0 < (BitVec.ofNat 32 (m * 8)).toInt := by
    rw [BitVec.toInt_eq_toNat_cond, hn, if_pos (by omega)]
    omega
  obtain ⟨e, p, hsbrk, hIe, hkeep, htop, hres⟩ :=
    hW.sbrk h.env _ hI hint (by rw [hn]; exact Nat.dvd_mul_left 8 m)
  rw [hn] at hres
  unfold Umalloc.morecore
  simp only [hm, hsbrk, ok_bind]
  rcases hres with rfl | ⟨hk, hp, hend, hmap⟩
  · rw [if_pos rfl]
    exact ⟨0, _, fl, rfl, hIe, hr.setEnv htop hkeep, .inl ⟨rfl, rfl⟩⟩
  · have hbound := hW.bounded e hIe
    have hW' : WORD = 4294967296 := rfl
    have hne : p ≠ FAILED := by
      unfold FAILED
      omega
    have habove := hW.above h.env hI
    have hfit : (⟨p, m⟩ : Blk).Fits base k (top e) := ⟨by dsimp only; omega, hk, hle.2.1, by unfold stop; dsimp only; omega⟩
    have hmap' : ∀ j < m, W.mapped e (p + 8 * j) = true := fun j hj => hmap j (by omega)
    have hmapp : W.mapped e p = true := by
      have := hmap' 0 hle.2.1
      rwa [Nat.mul_zero, Nat.add_zero] at this
    have hgrow : Rep W base k (top e) { h with env := e, units := h.units + m, size := Function.update h.size p m } fl
        (⟨p, m⟩ :: live) := (hr.setEnv le_rfl hkeep).grow hp hfit hmap'
    obtain ⟨h', fl', hfree, henv, ⟨c, hc, hcm⟩, hrep⟩ := hgrow.free hpos hbound.le
    have henv' : h'.env = e := henv
    refine ⟨h'.freep, h', fl', ?_, henv' ▸ hIe, henv' ▸ hrep, .inr ⟨rfl, c, hc, hle.1.trans hcm⟩⟩
    rw [if_neg hne]
    simp only [Heap.setSize, Heap.at, hmapp, if_true, ok_bind, hfree]

end Xv6.Umalloc
