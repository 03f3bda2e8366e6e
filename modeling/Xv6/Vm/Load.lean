import Xv6.Vm.Elf
/-!
# What exec loads

The new address space has the bytes of the file's segments, in the order of the
program headers, over zeroes. `Filled` says so of a directory that is being
filled; `allocuvm` keeps it with new pages of zeroes, and `loaduvm` with the
bytes of a segment.
-/

namespace Xv6

open Outcome

variable {L : Layout} {k k' : Kmem} {d d' : Pgdir} {e : Pte} {n m o u v sz : Nat} {img : Nat → BitVec 8}
  {f : Nat → BitVec 8}

/-! ## Bytes in pages -/

/-- The `n` bytes of `f` over those of `img`, from address `a` on. -/
def overlay (img : Nat → BitVec 8) (a n : Nat) (f : Nat → BitVec 8) (x : Nat) : BitVec 8 :=
  if a ≤ x ∧ x < a + n then f (x - a) else img x

theorem overlay_zero (a : Nat) : overlay img a 0 f = img := by
  funext x
  exact if_neg (by omega)

/-- Two pieces that follow one another. -/
theorem overlay_append (a : Nat) :
    overlay (overlay img a m f) (a + m) n (fun j => f (m + j)) = overlay img a (m + n) f := by
  funext x
  unfold overlay
  by_cases hlow : a ≤ x ∧ x < a + m
  · rw [if_neg (by omega), if_pos hlow, if_pos (by omega)]
  · by_cases hhigh : a + m ≤ x ∧ x < a + m + n
    · rw [if_pos hhigh, if_pos (by omega)]
      exact congrArg f (by omega)
    · rw [if_neg hhigh, if_neg hlow, if_neg (by omega)]

theorem overlay_congr {g : Nat → BitVec 8} {a : Nat} (h : ∀ j, j < n → f j = g j) :
    overlay img a n f = overlay img a n g := by
  funext x
  unfold overlay
  split
  · exact h _ (by omega)
  · rfl

/-- The first `n` pages of user memory are mapped and have the bytes `img`. -/
def Shows (k : Kmem) (d : Pgdir) (n : Nat) (img : Nat → BitVec 8) : Prop :=
  ∀ u, u < n → ∃ e, d.get u = some e ∧ ∀ j : Fin PGSIZE, k.content e.page j = img (u * PGSIZE + j.val)

namespace Shows

/-- A store in page `u`. -/
theorem store (h : Shows k d n img) (hnd : d.owned.Nodup) (hn : n ≤ KERNBASE / PGSIZE) (hu : u < n)
    (he : d.get u = some e) (hom : o + m ≤ PGSIZE) :
    Shows (k.store e.page o m f) d n (overlay img (u * PGSIZE + o) m f) := by
  intro v hv
  obtain ⟨e', he', hc⟩ := h v hv
  refine ⟨e', he', fun j => ?_⟩
  have hj := j.isLt
  unfold Kmem.store overlay
  dsimp only
  by_cases huv : v = u
  · subst huv
    obtain rfl : e = e' := Option.some.inj (he.symm.trans he')
    rw [Function.update_self]
    by_cases hin : o ≤ j.val ∧ j.val < o + m
    · rw [if_pos hin, if_pos (by omega), show v * PGSIZE + j.val - (v * PGSIZE + o) = j.val - o by omega]
    · rw [if_neg hin, if_neg (by omega)]
      exact hc j
  · have hne := Pgdir.page_ne hnd he he' (by omega) (by omega) huv
    rw [Function.update_of_ne hne, if_neg]
    · exact hc j
    · unfold PGSIZE at *
      omega

/-- A byte of the address space. -/
theorem byte {a : Nat} {s : BitVec 32} (h : Shows k d n img) (ha : a / PGSIZE < n) :
    Space.byte k ⟨d, s⟩ a = some (img a) := by
  obtain ⟨e, he, hc⟩ := h _ ha
  unfold Space.byte
  dsimp only
  rw [he, Option.map_some, hc, Fin.val_ofNat, Nat.div_add_mod']

/-- Other pages were written. -/
theorem congr (h : Shows k d n img) (hcont : ∀ v e, v < n → d.get v = some e → k'.content e.page = k.content e.page) :
    Shows k' d n img := by
  intro v hv
  obtain ⟨e, he, hc⟩ := h v hv
  exact ⟨e, he, fun j => by rw [hcont v e hv he, hc]⟩

end Shows

/-! ## allocuvm -/

theorem mappages_pde (hv : v < KERNBASE / PGSIZE) :
    Ends (fun _ => True) (mappages k d v e 1) fun r => ∀ i, ¬ Pgdir.IsUser i → r.2.1.pde i = d.pde i := by
  unfold mappages
  split
  · exact fun _ _ => rfl
  · rename_i d₁ k₁ hw
    split
    · trivial
    · intro i hi
      have hne : i ≠ PDX v := by
        rintro rfl
        exact hi (Pgdir.isUser_of_lt hv)
      rw [← walkpgdir_pde hw hne]
      exact Function.update_of_ne hne ..

/-- New pages of zeroes for user memory. -/
structure NewPages (d : Pgdir) (v n : Nat) (r : Pgdir × Kmem) : Prop where
  inside : ∀ u, v ≤ u → u < v + n → ∃ p, r.1.get u = some ⟨p, true, true⟩ ∧ r.2.content p = fun _ => 0
  outside : ∀ u, u < NPAGES → ¬(v ≤ u ∧ u < v + n) → r.1.get u = d.get u
  kernel : ∀ i, ¬ Pgdir.IsUser i → r.1.pde i = d.pde i

theorem allocLoop_new {oldsz newsz : Nat} (n v : Nat) (hv : v + n ≤ KERNBASE / PGSIZE) (hnd : k.free.Nodup) :
    Ends (fun _ => True) (allocLoop L oldsz newsz n k d v) fun r => r.1 ≠ 0 → NewPages d v n r.2 := by
  induction n generalizing k d v with
  | zero => exact fun _ => ⟨fun u hu hlt => absurd hlt (by omega), fun _ _ _ => rfl, fun _ _ => rfl⟩
  | succ n ih =>
    unfold allocLoop
    split
    · exact Ends.trivial.bind fun _ _ hne => absurd rfl hne
    · rename_i p k₁ hk
      have hfree := (Kmem.kalloc_some hk).1
      rw [hfree, Multiset.nodup_cons] at hnd
      refine ((((mappages_one _ (by omega)).weaken fun _ _ => trivial).and (mappages_untouched 1 v _)).and
        (mappages_pde (by omega))).bind fun r hr => ?_
      obtain ⟨ok, d₂, k₂⟩ := r
      obtain ⟨⟨⟨hle, hcont, hget⟩, htouch⟩, hpde⟩ := hr
      cases ok with
      | false =>
        exact Ends.trivial.bind fun _ _ => Ends.trivial.bind fun _ _ hne => absurd rfl hne
      | true =>
        have hget₂ : ∀ u, u < NPAGES → d₂.get u = if u = v then some ⟨p, true, true⟩ else d.get u := hget.1
        have hle₂ : k₂.free ≤ k₁.free := hle
        have hzero : k₂.content p = fun _ => 0 := (hcont p hnd.1).trans (Function.update_self ..)
        have hNP : KERNBASE / PGSIZE ≤ NPAGES := by decide
        refine ((ih (v + 1) (by omega) (Multiset.nodup_of_le hle₂ hnd.2)).and (allocLoop_untouched n (v + 1))).mono
          fun r hr hne => ?_
        obtain ⟨hnew, hkeep⟩ := hr
        refine ⟨fun u hu hlt => ?_, fun u hu hout => ?_, fun i hi => ?_⟩
        · by_cases huv : u = v
          · refine ⟨p, ?_, ?_⟩
            · rw [huv, (hnew hne).outside v (by omega) (by omega), hget₂ v (by omega), if_pos rfl]
            · rw [(hkeep hne).2 p fun hin => hnd.1 (Multiset.mem_of_le hle₂ hin), hzero]
          · exact (hnew hne).inside u (by omega) (by omega)
        · rw [(hnew hne).outside u hu (by omega), hget₂ u hu, if_neg (by omega)]
        · rw [(hnew hne).kernel i hi]
          exact hpde i hi

theorem allocuvm_new {oldsz newsz : Nat} (hnd : k.free.Nodup) :
    Ends (fun _ => True) (allocuvm L k d oldsz newsz) fun r => r.1 ≠ 0 →
      NewPages d (pagesUp oldsz) (pagesUp newsz - pagesUp oldsz) r.2 ∧ Untouched k r.2.2 := by
  unfold allocuvm
  split
  · exact fun h => absurd rfl h
  · rename_i hnew
    split
    · rename_i hlt
      have hmono := pagesUp_mono hlt.le
      exact fun _ => ⟨⟨fun u hu hlt' => absurd hlt' (by omega), fun _ _ _ => rfl, fun _ _ => rfl⟩, .refl k⟩
    · rename_i hge
      have hle := pagesUp_le (n := newsz) (by omega)
      have hmono := pagesUp_mono (Nat.le_of_not_lt hge)
      exact ((allocLoop_new _ _ (by omega) hnd).and (allocLoop_untouched _ _)).mono fun r hr hne => ⟨hr.1 hne, hr.2 hne⟩

/-- Nothing but pages of the free list and of the directory is written, even if it fails. -/
theorem allocuvm_confined {oldsz newsz : Nat} (hs : Sound L k d.owned)
    (hnone : ∀ u, pagesUp oldsz ≤ u → u < KERNBASE / PGSIZE → d.get u = none) :
    Ends (fun _ => True) (allocuvm L k d oldsz newsz) fun r => Confined k d.owned r.2.2 := by
  unfold allocuvm
  split
  · exact fun _ _ => rfl
  · rename_i hnew
    split
    · exact fun _ _ => rfl
    · rename_i hge
      have hle := pagesUp_le (n := newsz) (by omega)
      have hmono := pagesUp_mono (Nat.le_of_not_lt hge)
      refine ((allocLoop_ends _ _ _ _ (by omega) (by omega) le_rfl (fun u hu hlt => hnone u hu (by omega)) hs.valid).weaken
        fun _ h => h.elim).mono fun r hr q hq => ?_
      have hfree : q ∉ k.free := fun hin => hq (Multiset.mem_add.2 (.inl hin))
      obtain ⟨-, hg⟩ | ⟨-, hg⟩ := hr
      · exact hg.content q hfree
      · refine hg.content q hfree fun u e hu hlt he => ?_
        rw [hnone u hu (by omega)] at he
        cases he

/-! ## A directory that is being filled -/

/-- A step keeps the pages together, writes to no page of anyone else, and leaves the
kernel's half as it is. -/
structure Worked (k : Kmem) (d d' : Pgdir) (k' : Kmem) : Prop where
  pages : k'.free + d'.owned = k.free + d.owned
  content : Confined k d.owned k'
  kernel : ∀ u, KERNBASE / PGSIZE ≤ u → u < NPAGES → d'.get u = d.get u

namespace Worked

theorem refl (k : Kmem) (d : Pgdir) : Worked k d d k := ⟨rfl, fun _ _ => rfl, fun _ _ _ => rfl⟩

theorem trans {k'' : Kmem} {d'' : Pgdir} (h : Worked k d d' k') (h' : Worked k' d' d'' k'') : Worked k d d'' k'' :=
  ⟨h'.pages.trans h.pages, h.content.trans h.pages h'.content,
    fun u hu hlt => (h'.kernel u hu hlt).trans (h.kernel u hu hlt)⟩

theorem sound (h : Worked k d d' k') (hs : Sound L k d.owned) : Sound L k' d'.owned := hs.of_eq h.pages

end Worked

/-- User memory up to `sz` has the bytes `img`, and above it is the kernel's half. -/
structure Filled (L : Layout) (k : Kmem) (d : Pgdir) (sz : Nat) (img : Nat → BitVec 8) : Prop where
  image : Image d sz
  user : ∀ u e, u < KERNBASE / PGSIZE → d.get u = some e → e.user = true
  shows : Shows k d (pagesUp sz) img
  zero : ∀ a, sz ≤ a → img a = 0
  kernel : ∀ u, KERNBASE / PGSIZE ≤ u → u < NPAGES → d.get u = kernelPte L u
  gap : ∀ u, (KERNBASE + PHYSTOP) / PGSIZE ≤ u → u < DEVSPACE / PGSIZE → d.pde (PDX u) = none

namespace Filled

theorem of_fresh (h : Fresh L d) : Filled L k d 0 fun _ => 0 := by
  refine ⟨.of_fresh h, fun u e hu he => ?_, fun u hu => absurd hu (Nat.not_lt_zero u), fun _ _ => rfl,
    fun u _ hlt => h.kernel u hlt, h.gap⟩
  rw [h.user u hu] at he
  cases he

/-- After `allocuvm`, which may be told the size rounded up to a page. -/
theorem alloc {oldsz : Nat} (h : Filled L k d sz img) (newsz : Nat) (hs : Sound L k d.owned) (hle : sz ≤ oldsz)
    (hup : pagesUp oldsz = pagesUp sz) (hold : newsz < KERNBASE → oldsz < KERNBASE) :
    Ends (fun _ => False) (allocuvm L k d oldsz newsz) fun r =>
      Worked k d r.2.1 r.2.2 ∧ (r.1 ≠ 0 → r.1 = max oldsz newsz ∧ Filled L r.2.2 r.2.1 r.1 img) := by
  have hnone : ∀ u, pagesUp oldsz ≤ u → u < KERNBASE / PGSIZE → d.get u = none :=
    fun u hu hlt => h.image.none (hup ▸ hu) hlt
  have hfree : k.free.Nodup := (Multiset.nodup_add.1 hs.nodup).1
  refine (((allocuvm_ends hs hnone).and (allocuvm_confined hs hnone)).and (allocuvm_new hfree)).mono fun r hr => ?_
  obtain ⟨⟨hr, hconf⟩, hnew⟩ := hr
  have hNP : KERNBASE / PGSIZE ≤ NPAGES := by decide
  have hkernel : ∀ u, KERNBASE / PGSIZE ≤ u → u < NPAGES → r.2.1.get u = d.get u := by
    intro u hu hlt
    by_cases hz : r.1 = 0
    · exact hr.failed hz u hlt
    · have := pagesUp_le (hr.size hz).2.le
      exact hr.outside u hlt (by omega)
  refine ⟨⟨hr.pages, hconf, hkernel⟩, fun hne => ?_⟩
  obtain ⟨hsize, hlt⟩ := hr.size hne
  obtain ⟨hpages, htouch⟩ := hnew hne
  have hround : Image d oldsz := by
    refine ⟨fun u hu => ?_, h.image.devices, hold hlt⟩
    rw [hup]
    exact h.image.mapped u hu
  have himg : Image r.2.1 r.1 := hround.grown hr hne
  have hnd : d.owned.Nodup := (Multiset.nodup_add.1 hs.nodup).2.1
  have hmax : pagesUp r.1 ≤ pagesUp oldsz + (pagesUp newsz - pagesUp oldsz) := by
    obtain hle' | hle' := le_total oldsz newsz
    · rw [hsize, max_eq_right hle']
      omega
    · rw [hsize, max_eq_left hle']
      omega
  have hbound := pagesUp_le himg.size.le
  refine ⟨hsize, himg, fun u e hu he => ?_, fun u hu => ?_, fun a ha => h.zero a (by omega), fun u hu hlt' => ?_,
    fun u hu hlt' => ?_⟩
  · by_cases hin : pagesUp oldsz ≤ u ∧ u < pagesUp oldsz + (pagesUp newsz - pagesUp oldsz)
    · obtain ⟨p, hp, -⟩ := hpages.inside u hin.1 hin.2
      rw [hp] at he
      cases he
      rfl
    · rw [hpages.outside u (by omega) hin] at he
      exact h.user u e hu he
  · by_cases hin : pagesUp oldsz ≤ u
    · obtain ⟨p, hp, hzero⟩ := hpages.inside u hin (by omega)
      refine ⟨_, hp, fun j => ?_⟩
      dsimp only
      rw [hzero, h.zero]
      have hge : sz ≤ pagesUp sz * PGSIZE := by
        unfold pagesUp PGSIZE
        omega
      rw [hup] at hin
      have := Nat.mul_le_mul_right PGSIZE hin
      omega
    · obtain ⟨e, he, hc⟩ := h.shows u (by omega)
      have hfree' : e.page ∉ k.free := hs.not_free (Pgdir.mem_owned he (by omega))
      refine ⟨e, ?_, fun j => ?_⟩
      · rw [hpages.outside u (by omega) (by omega), he]
      · rw [htouch.2 _ hfree', hc]
  · rw [hkernel u hu hlt', h.kernel u hu hlt']
  · have hu' : KERNBASE / PGSIZE ≤ u := le_trans (by decide) hu
    rw [hpages.kernel _ (not_isUser hu' (hlt'.trans (by decide))), h.gap u hu hlt']

end Filled

/-! ## loaduvm -/

/-- The pages of a segment, if they are all read, are its bytes `g`. -/
def Pages (data : Nat → Option (Nat → BitVec 8)) (size : Nat) (g : Nat → BitVec 8) : Prop :=
  ∀ i f, i * PGSIZE < size → (∀ i', i' < i → (data i').isSome) → data i = some f →
    ∀ j, j < min PGSIZE (size - i * PGSIZE) → f j = g (i * PGSIZE + j)

theorem loadLoop_shows {data : Nat → Option (Nat → BitVec 8)} {size : Nat} {g : Nat → BitVec 8}
    (hdata : Pages data size g) (n i : Nat) (himg : Image d sz) (hs : Sound L k d.owned)
    (hi : i + n = pagesUp size) (hin : v + pagesUp size ≤ pagesUp sz) (hdone : ∀ i', i' < i → (data i').isSome)
    (hshows : Shows k d (pagesUp sz) (overlay img (v * PGSIZE) (min size (i * PGSIZE)) g)) :
    Ends (fun _ => False) (loadLoop d v size data n i k) fun r => Confined k d.owned r.2 ∧
      (r.1 = true → Shows r.2 d (pagesUp sz) (overlay img (v * PGSIZE) size g)) := by
  induction n generalizing k i with
  | zero =>
    refine ⟨fun _ _ => rfl, fun _ => ?_⟩
    have hall : size ≤ i * PGSIZE := by
      unfold pagesUp PGSIZE at *
      omega
    rwa [Nat.min_eq_left hall] at hshows
  | succ n ih =>
    obtain ⟨e, he, hlt⟩ := himg.some (u := v + i) (by omega)
    obtain ⟨t, ht, hte⟩ := Pgdir.table_of_get he
    have hmem := Pgdir.mem_owned he hlt
    have hmore : i * PGSIZE < size := by
      unfold pagesUp PGSIZE at *
      omega
    unfold loadLoop
    rw [ht]
    dsimp only
    split
    · exact ⟨fun _ _ => rfl, nofun⟩
    · rename_i f hf
      rw [hte]
      have hsame := store_sameList (k := k) (o := 0) (n := min PGSIZE (size - i * PGSIZE)) (f := f) (hs.not_free hmem)
      have hconf : Confined k d.owned (k.store e.page 0 (min PGSIZE (size - i * PGSIZE)) f) := by
        intro q hq
        refine Function.update_of_ne ?_ ..
        rintro rfl
        exact hq (Multiset.mem_add.2 (.inr hmem))
      refine (ih (i + 1) (hsame.sound hs) (by omega) (fun i' hi' => ?_) ?_).mono fun r hr => ?_
      · obtain hlt' | rfl := Nat.lt_succ_iff_lt_or_eq.1 hi'
        · exact hdone i' hlt'
        · rw [hf]
          rfl
      · have hstore := hshows.store (f := f) (o := 0) (m := min PGSIZE (size - i * PGSIZE))
          (Multiset.nodup_add.1 hs.nodup).2.1 (pagesUp_le himg.size.le) (by omega) he (by omega)
        rw [Nat.min_eq_right hmore.le, overlay_congr (hdata i f hmore hdone hf), Nat.add_zero, Nat.add_mul,
          overlay_append] at hstore
        rwa [show i * PGSIZE + min PGSIZE (size - i * PGSIZE) = min size ((i + 1) * PGSIZE) by
          rw [Nat.add_mul]; omega] at hstore
      · refine ⟨hconf.trans ?_ hr.1, hr.2⟩
        exact congrArg (· + d.owned) hsame.free

namespace Exec

variable {file : List (BitVec 8)} {off : BitVec 32} {l : List (BitVec 8)}

/-! ## The segments of a file -/

theorem readAll_some {n : BitVec 32} (h : readAll file off n = some l) :
    off.toNat + n.toNat < 2 ^ 32 ∧ l.length = n.toNat ∧ l = (file.drop off.toNat).take n.toNat := by
  unfold readAll at h
  rw [readi_eq] at h
  split at h
  · rename_i hok
    rw [Option.bind_some] at h
    split at h
    · rename_i hlen
      cases h
      exact ⟨hok.2, hlen, rfl⟩
    · cases h
  · cases h

/-- The byte of the file that goes to byte `j` of a segment. -/
def Phdr.byte (file : List (BitVec 8)) (ph : Phdr) (j : Nat) : BitVec 8 := file.getD (ph.off.toNat + j) 0

theorem Phdr.page_some {ph : Phdr} {i : Nat} (h : ph.page file i = some f) (hi : i * PGSIZE < ph.filesz.toNat)
    (hoff : ph.off.toNat + i * PGSIZE < 2 ^ 32) :
    ph.off.toNat + i * PGSIZE + min PGSIZE (ph.filesz.toNat - i * PGSIZE) < 2 ^ 32 ∧
      ∀ j, j < min PGSIZE (ph.filesz.toNat - i * PGSIZE) → f j = ph.byte file (i * PGSIZE + j) := by
  have hfile := ph.filesz.isLt
  have hn : (if ph.filesz.toNat - i * PGSIZE < PGSIZE then ph.filesz.toNat - i * PGSIZE else PGSIZE) =
      min PGSIZE (ph.filesz.toNat - i * PGSIZE) := by
    split <;> omega
  unfold Phdr.page at h
  rw [hn] at h
  obtain ⟨l, hl, rfl⟩ := Option.map_eq_some_iff.1 h
  obtain ⟨hwrap, hlen, hl⟩ := readAll_some hl
  have hcount : (BitVec.ofNat 32 (min PGSIZE (ph.filesz.toNat - i * PGSIZE))).toNat =
      min PGSIZE (ph.filesz.toNat - i * PGSIZE) := by
    rw [BitVec.toNat_ofNat, Nat.mod_eq_of_lt (by omega)]
  have hstart : (ph.off + BitVec.ofNat 32 (i * PGSIZE)).toNat = ph.off.toNat + i * PGSIZE :=
    Bytes.toNat_add_ofNat hoff
  rw [hstart, hcount] at hwrap
  rw [hcount] at hlen
  refine ⟨hwrap, fun j hj => ?_⟩
  rw [hl, hstart, hcount] at hlen
  dsimp only
  rw [hl, hstart, hcount, Phdr.byte, List.getD_eq_getElem?_getD, List.getD_eq_getElem?_getD,
    List.getElem?_take_of_lt hj, List.getElem?_drop, Nat.add_assoc]

theorem Phdr.page_pages (ph : Phdr) : Pages (ph.page file) ph.filesz.toNat (ph.byte file) := by
  -- no offset wraps around: a page before it would not have been read
  have hnowrap : ∀ i, i * PGSIZE < ph.filesz.toNat → (∀ i', i' < i → (ph.page file i').isSome) →
      ph.off.toNat + i * PGSIZE < 2 ^ 32 := by
    intro i
    induction i with
    | zero =>
      intro _ _
      rw [Nat.zero_mul, Nat.add_zero]
      exact ph.off.isLt
    | succ i ih =>
      intro hi hdone
      rw [Nat.add_mul] at hi ⊢
      obtain ⟨f, hf⟩ := Option.isSome_iff_exists.1 (hdone i (Nat.lt_succ_self i))
      have hlt := ih (by omega) fun i' hi' => hdone i' (by omega)
      have := (Phdr.page_some hf (by omega) hlt).1
      omega
  intro i f hi hdone hf
  exact (Phdr.page_some hf hi (hnowrap i hi hdone)).2

/-- A segment over what was loaded before it. -/
def laid (file : List (BitVec 8)) (img : Nat → BitVec 8) : Option Phdr → Nat → BitVec 8
  | none => img
  | some ph => if ph.type = ELF_PROG_LOAD then overlay img ph.vaddr.toNat ph.filesz.toNat (ph.byte file) else img

/-- The segments of a file in order, over zeroes. -/
def fileImage (file : List (BitVec 8)) (elf : Elfhdr) : Nat → BitVec 8 :=
  (phdrs file elf.phnum.toNat elf.phoff).foldl (laid file) fun _ => 0

theorem loadSegs_fills (phs : List (Option Phdr)) (h : Filled L k d sz img) (hs : Sound L k d.owned) :
    Ends (fun _ => False) (loadSegs L (phs.map (segment file)) k d sz) fun r => Worked k d r.2.1 r.2.2 ∧
      ∀ sz', r.1 = some sz' → Filled L r.2.2 r.2.1 sz' (phs.foldl (laid file) img) := by
  induction phs generalizing k d sz img with
  | nil =>
    refine ⟨.refl k d, ?_⟩
    rintro _ ⟨⟩
    exact h
  | cons x phs ih =>
    rw [List.map_cons, List.foldl_cons]
    cases x with
    | none => exact ⟨.refl k d, fun _ h => by cases h⟩
    | some ph =>
      unfold loadSegs
      dsimp only [segment]
      split
      · rename_i htype
        have hlaid : laid file img (some ph) = img := if_neg (by simpa using htype)
        rw [hlaid]
        exact ih h hs
      · rename_i htype
        have hlaid : laid file img (some ph) = overlay img ph.vaddr.toNat ph.filesz.toNat (ph.byte file) :=
          if_pos (by simpa using htype)
        rw [hlaid]
        split
        · exact ⟨.refl k d, fun _ h => by cases h⟩
        · split
          · exact ⟨.refl k d, fun _ h => by cases h⟩
          · rename_i hmem hwrap
            refine (h.alloc _ hs le_rfl rfl fun _ => h.image.size).bind fun r hr => ?_
            obtain ⟨sz', d₁, k₁⟩ := r
            obtain ⟨hwork, hr⟩ := hr
            dsimp only at hwork hr ⊢
            split
            · exact ⟨hwork, fun _ h => by cases h⟩
            · rename_i hne
              obtain ⟨hsize, hfill⟩ := hr hne
              split
              · exact ⟨hwork, fun _ h => by cases h⟩
              · rename_i halign
                have hend : ph.vaddr.toNat + ph.filesz.toNat ≤ sz' := by
                  have hv := ph.vaddr.isLt
                  have hm := ph.memsz.isLt
                  rw [BitVec.toNat_add] at hwrap hsize
                  omega
                have hvaddr : ph.vaddr.toNat / PGSIZE * PGSIZE = ph.vaddr.toNat := by
                  unfold PGSIZE at *
                  omega
                have hin : ph.vaddr.toNat / PGSIZE + pagesUp ph.filesz.toNat ≤ pagesUp sz' := by
                  unfold pagesUp PGSIZE at *
                  omega
                have hstart : Shows k₁ d₁ (pagesUp sz')
                    (overlay img (ph.vaddr.toNat / PGSIZE * PGSIZE) (min ph.filesz.toNat (0 * PGSIZE)) (ph.byte file)) := by
                  rw [Nat.zero_mul, Nat.min_zero, overlay_zero]
                  exact hfill.shows
                have hs₁ := hwork.sound hs
                refine ((loadLoop_ends _ 0 hfill.image (by omega) hs₁).and (loadLoop_shows ph.page_pages _ 0 hfill.image hs₁
                  (Nat.zero_add _) hin (fun i' hi' => absurd hi' (Nat.not_lt_zero i')) hstart)).bind fun r hr₂ => ?_
                obtain ⟨ok, k₂⟩ := r
                obtain ⟨hsame, hconf, hshows⟩ := hr₂
                dsimp only at hsame hconf hshows ⊢
                have hwork₂ : Worked k₁ d₁ d₁ k₂ := ⟨congrArg (· + d₁.owned) hsame.free, hconf, fun _ _ _ => rfl⟩
                cases ok with
                | false => exact ⟨hwork.trans hwork₂, fun _ h => by cases h⟩
                | true =>
                  have hfill₂ : Filled L k₂ d₁ sz' (overlay img ph.vaddr.toNat ph.filesz.toNat (ph.byte file)) := by
                    refine ⟨hfill.image, hfill.user, hvaddr ▸ hshows rfl, fun a ha => ?_, hfill.kernel, hfill.gap⟩
                    exact (if_neg (by omega)).trans (hfill.zero a ha)
                  exact (ih hfill₂ (hwork₂.sound hs₁)).mono fun r hr' => ⟨(hwork.trans hwork₂).trans hr'.1, hr'.2⟩

/-! ## The stack -/

theorem kernelPte_user (h : kernelPte L u = some e) : e.user = false := by
  obtain ⟨x, -, rfl⟩ := Option.map_eq_some_iff.1 h
  rfl

/-- All of physical memory is mapped above `KERNBASE`. -/
theorem kernelPte_low (L : Layout) (hle : KERNBASE / PGSIZE ≤ u) (hlt : u < (KERNBASE + PHYSTOP) / PGSIZE) :
    ∃ e, kernelPte L u = some e := by
  have hsome : ((kmap L).find? fun x => x.virt ≤ u ∧ u < x.virt + x.n).isSome := by
    rw [List.find?_isSome]
    simp only [kmap, List.mem_cons, List.not_mem_nil, or_false, exists_eq_or_imp, exists_eq_left, decide_eq_true_eq]
    have hdata := L.low
    have hlast := L.le.trans_lt L.high
    unfold KERNBASE PHYSTOP EXTMEM PGSIZE at *
    omega
  obtain ⟨x, hx⟩ := Option.isSome_iff_exists.1 hsome
  unfold kernelPte
  rw [hx]
  exact ⟨_, rfl⟩

/-- The new address space when `exec` comes to the arguments: `sz` bytes, of which the last
page is the stack and the page below it is closed. -/
structure Built (L : Layout) (d : Pgdir) (sz : Nat) : Prop where
  image : Image d sz
  round : ∃ n, sz = (n + 2) * PGSIZE
  stack : ∃ e, d.get (sz / PGSIZE - 1) = some e ∧ e.user = true
  guard : ∃ e, d.get (sz / PGSIZE - 2) = some e ∧ e.user = false
  kernel : ∀ u, KERNBASE / PGSIZE ≤ u → u < NPAGES → d.get u = kernelPte L u
  gap : ∀ u, (KERNBASE + PHYSTOP) / PGSIZE ≤ u → u < DEVSPACE / PGSIZE → d.pde (PDX u) = none

theorem clearpteu_guard (h : Filled L k d sz img) (hsz : sz = (n + 2) * PGSIZE) :
    Ends (fun _ => False) (clearpteu d (sz / PGSIZE - 2)) fun d' => Worked k d d' k ∧
      Built L d' sz ∧ Shows k d' (pagesUp sz) img := by
  have hup : pagesUp sz = n + 2 := by rw [hsz, pagesUp_mul]
  have hdiv : sz / PGSIZE = n + 2 := by rw [hsz, Nat.mul_div_cancel _ (by decide)]
  obtain ⟨e, he, hlt⟩ := h.image.some (u := n) (by omega)
  obtain ⟨e₁, he₁, hlt₁⟩ := h.image.some (u := n + 1) (by omega)
  obtain ⟨t, ht, -⟩ := Pgdir.table_of_get he
  have hNP : KERNBASE / PGSIZE ≤ NPAGES := by decide
  have hset : clearpteu d n = .ok (d.set n (some { e with user := false })) := by
    unfold clearpteu
    rw [if_pos (by rw [ht]; rfl), he]
    rfl
  have hget : ∀ u, u < NPAGES →
      (d.set n (some { e with user := false })).get u = if u = n then some { e with user := false } else d.get u :=
    fun u hu => Pgdir.get_set hu (by omega) ht
  have hends := clearpteu_ends h.image (v := n) (by omega)
  rw [hset] at hends
  obtain ⟨howned, himg, hsome⟩ := hends
  rw [hdiv, Nat.add_sub_cancel, hset]
  refine ⟨⟨by rw [howned], fun _ _ => rfl, fun u hu hlt' => ?_⟩, ⟨himg, ⟨n, hsz⟩, ?_, ?_, fun u hu hlt' => ?_,
    fun u hu hlt' => ?_⟩, fun u hu => ?_⟩
  · rw [hget u hlt', if_neg (by omega)]
  · refine ⟨e₁, ?_, h.user _ e₁ hlt₁ he₁⟩
    rw [hdiv, hget _ (by omega), if_neg (by omega)]
    exact he₁
  · refine ⟨{ e with user := false }, ?_, rfl⟩
    rw [hdiv, hget _ (by omega), if_pos (by omega)]
  · rw [hget u hlt', if_neg (by omega), h.kernel u hu hlt']
  · rw [← Option.not_isSome_iff_eq_none, hsome, h.gap u hu hlt']
    decide
  · obtain ⟨e', he', hc⟩ := h.shows u hu
    have hbound := pagesUp_le h.image.size.le
    rw [hget u (by omega)]
    by_cases hun : u = n
    · rw [if_pos hun]
      rw [hun, he] at he'
      cases he'
      exact ⟨_, rfl, hc⟩
    · rw [if_neg hun]
      exact ⟨e', he', hc⟩

theorem loadImage_ends (file : List (BitVec 8)) (elf : Elfhdr) (hfresh : Fresh L d) (hs : Sound L k d.owned) :
    Ends (fun _ => False) (loadImage L (segments file elf) k d) fun r => Worked k d r.2.1 r.2.2 ∧
      ∀ sz, r.1 = some sz → Built L r.2.1 sz ∧ Shows r.2.2 r.2.1 (pagesUp sz) (fileImage file elf) := by
  unfold loadImage
  refine (loadSegs_fills _ (.of_fresh hfresh) hs).bind fun r hr => ?_
  obtain ⟨x, d₁, k₁⟩ := r
  obtain ⟨hwork, hr⟩ := hr
  dsimp only at hwork hr
  cases x with
  | none => exact ⟨hwork, nofun⟩
  | some sz =>
    have hfill : Filled L k₁ d₁ sz (fileImage file elf) := hr sz rfl
    have hle : sz ≤ PGROUNDUP sz := by
      unfold PGROUNDUP PGSIZE
      omega
    refine (hfill.alloc _ (hwork.sound hs) hle (pagesUp_roundup sz) fun hlt => by omega).bind fun r hr₂ => ?_
    obtain ⟨sz₂, d₂, k₂⟩ := r
    obtain ⟨hwork₂, hr₂⟩ := hr₂
    dsimp only at hwork₂ hr₂ ⊢
    split
    · exact ⟨hwork.trans hwork₂, nofun⟩
    · rename_i hne
      obtain ⟨hsize, hfill₂⟩ := hr₂ hne
      have hround : sz₂ = (pagesUp sz + 2) * PGSIZE := by
        rw [hsize, max_eq_right (Nat.le_add_right ..), Nat.add_mul]
        rfl
      refine (clearpteu_guard hfill₂ hround).bind fun d₃ hd₃ => ?_
      refine ⟨(hwork.trans hwork₂).trans hd₃.1, ?_⟩
      rintro _ ⟨⟩
      exact hd₃.2

end Exec

end Xv6
