import Xv6.Lib.Runs
import Xv6.File.Counts
import Xv6.Vm.Image
import Xv6.Vm.Machine
/-!
# No page is lost, shared or freed twice

After every call the free list, the pages of the processes, the pages of the
pipes and what was taken at boot for good make up the memory behind the
kernel, each page once. Every call moves pages between these and loses none,
wherever its allocations fail.
-/

namespace Xv6

open Outcome Runs

/-- The frames that `kinit1` and `kinit2` hand to `kfree`. -/
def Layout.frames (L : Layout) : Multiset Page := (List.range' L.first (PHYSTOP / PGSIZE - L.first) : List Page)

theorem Layout.frames_nodup (L : Layout) : L.frames.Nodup := List.nodup_range'

theorem Layout.frames_valid {L : Layout} {p : Page} (h : p ∈ L.frames) : L.Valid p := by
  have hhigh := L.high
  obtain ⟨hle, hlt⟩ := List.mem_range'_1.1 h
  exact ⟨hle, hlt.trans_eq (Nat.add_sub_cancel' hhigh.le)⟩

/-- A process has nothing mapped above its size, and no open files once it has exited. -/
structure Mproc.Tidy {P : Type} (x : Mproc P) : Prop where
  sized : x.space.Sized
  closed : x.zombie = true → x.ofile.slots = []

namespace Machine

variable {P : Type}

def procPages : Option (Mproc P) → Multiset Page
  | none => 0
  | some x => x.kstack ::ₘ x.space.pgdir.owned

def slotsOf : Option (Mproc P) → FileId → Nat
  | none, _ => 0
  | some x, f => x.ofile.slots.count f

variable [Fintype P]

/-- The pages of the processes that are not reaped yet. -/
@[irreducible] def processes (s : Machine P) : Multiset Page := ∑ p, procPages (s.proc p)

@[irreducible] def slots (s : Machine P) (f : FileId) : Nat := ∑ p, slotsOf (s.proc p) f

/-- All the pages that are not on the free list, `o` of them since boot. -/
def used (o : Multiset Page) (s : Machine P) : Multiset Page := s.processes + s.ft.livePipes.val + o

/-- The call in progress holds the files `h` besides the descriptors. -/
structure Inv (L : Layout) (o : Multiset Page) (s : Machine P) (h : List FileId) : Prop where
  pages : s.kmem.free + s.used o = L.frames
  procs : ∀ p x, s.proc p = some x → x.Tidy
  files : s.ft.Inv fun f => s.slots f + h.count f

variable {L : Layout} {o : Multiset Page} {s : Machine P} {h h' : List FileId} {p q : P} {x : Mproc P} {f : FileId}

theorem Inv.sound (hs : Inv L o s h) : Sound L s.kmem (s.used o) :=
  ⟨hs.pages ▸ L.frames_nodup, fun _ hp => Layout.frames_valid (hs.pages ▸ hp)⟩

theorem procPages_le (hp : s.proc p = some x) : x.kstack ::ₘ x.space.pgdir.owned ≤ s.used o := by
  have hle := Finset.single_le_sum_of_canonicallyOrdered (f := fun q => procPages (s.proc q)) (Finset.mem_univ p)
  have hx : procPages (s.proc p) = x.kstack ::ₘ x.space.pgdir.owned := by rw [hp]; rfl
  rw [hx] at hle
  have hproc : x.kstack ::ₘ x.space.pgdir.owned ≤ s.processes := by
    unfold processes
    exact hle
  unfold used
  exact (hproc.trans (Multiset.le_add_right ..)).trans (Multiset.le_add_right ..)

theorem Inv.space (hs : Inv L o s h) (hp : s.proc p = some x) : Sound L s.kmem x.space.pgdir.owned :=
  hs.sound.mono ((Multiset.le_cons_self ..).trans (procPages_le hp))

theorem slots_pos (hp : s.proc p = some x) (hf : f ∈ x.ofile.slots) : 0 < s.slots f := by
  have hle := Finset.single_le_sum_of_canonicallyOrdered (f := fun q => slotsOf (s.proc q) f) (Finset.mem_univ p)
  have h1 : 0 < slotsOf (s.proc p) f := by
    rw [hp]
    exact List.count_pos_iff.2 hf
  unfold slots
  omega

/-! ## Changing one process -/

section Set

variable [DecidableEq P] (y : Option (Mproc P))

omit [Fintype P] in
theorem setProc_self : (s.setProc p y).proc p = y := Function.update_self ..

omit [Fintype P] in
theorem setProc_of_ne (hq : q ≠ p) : (s.setProc p y).proc q = s.proc q := Function.update_of_ne hq ..

theorem processes_setProc : (s.setProc p y).processes + procPages (s.proc p) = s.processes + procPages y := by
  have hsum := Sums.sum_move (f := fun q => procPages (s.proc q)) (g := fun q => procPages ((s.setProc p y).proc q)) p
    (fun q hq => by rw [setProc_of_ne y hq])
  rw [setProc_self] at hsum
  unfold processes
  exact hsum

theorem slots_setProc : (s.setProc p y).slots f + slotsOf (s.proc p) f = s.slots f + slotsOf y f := by
  have hsum := Sums.sum_move (f := fun q => slotsOf (s.proc q) f) (g := fun q => slotsOf ((s.setProc p y).proc q) f) p
    (fun q hq => by rw [setProc_of_ne y hq])
  rw [setProc_self] at hsum
  unfold slots
  exact hsum

end Set

/-- Pages move between the free list and the pipes; the processes stay as they are. -/
theorem Inv.move (hs : Inv L o s h) {k : Kmem} {t : Ftable Unit}
    (hpages : k.free + t.livePipes.val = s.kmem.free + s.ft.livePipes.val)
    (hfiles : t.Inv fun f => s.slots f + h'.count f) : Inv L o { s with kmem := k, ft := t } h' := by
  have hproc : ({ s with kmem := k, ft := t } : Machine P).processes = s.processes := by
    unfold processes
    rfl
  have hslots : ({ s with kmem := k, ft := t } : Machine P).slots = s.slots := by
    unfold slots
    rfl
  refine ⟨?_, hs.procs, ?_⟩
  · rw [← hs.pages, used, used, hproc]
    change k.free + (s.processes + t.livePipes.val + o) = _
    have hcomm : ∀ a b c d : Multiset Page, a + (b + c + d) = a + c + (b + d) := fun a b c d => by abel
    rw [hcomm, hcomm, hpages]
  · rw [hslots]
    exact hfiles

/-- A process changes, with its pages moving between it and the free list. -/
theorem Inv.setProc [DecidableEq P] (hs : Inv L o s h) {k : Kmem} {y : Option (Mproc P)}
    (hpages : k.free + procPages y = s.kmem.free + procPages (s.proc p))
    (htidy : ∀ x, y = some x → x.Tidy)
    (hslots : ∀ f, slotsOf y f + h'.count f = slotsOf (s.proc p) f + h.count f) :
    Inv L o ({ s with kmem := k }.setProc p y) h' := by
  have hproc := processes_setProc (s := { s with kmem := k }) (p := p) y
  have hold : ({ s with kmem := k } : Machine P).processes = s.processes := by
    unfold processes
    rfl
  have hslot := fun f => slots_setProc (s := { s with kmem := k }) (p := p) (f := f) y
  have hslotold : ({ s with kmem := k } : Machine P).slots = s.slots := by
    unfold slots
    rfl
  refine ⟨?_, fun q x hq => ?_, ?_⟩
  · rw [← hs.pages, used, used]
    rw [hold] at hproc
    change k.free + (_ + s.ft.livePipes.val + o) = _
    apply add_right_cancel (b := procPages (s.proc p))
    have hcomm : ∀ a b c d e : Multiset Page, a + (b + c + d) + e = a + (b + e) + (c + d) := fun a b c d e => by abel
    rw [hcomm]
    change k.free + (_ + procPages (({ s with kmem := k } : Machine P).proc p)) + _ = _
    rw [hproc, hcomm]
    have hcomm' : ∀ a b c : Multiset Page, a + (b + c) = a + c + b := fun a b c => by abel
    rw [hcomm' k.free, hpages, hcomm' s.kmem.free s.processes]
  · by_cases hqp : q = p
    · subst hqp
      rw [setProc_self] at hq
      exact htidy x hq
    · rw [setProc_of_ne y hqp] at hq
      exact hs.procs q x hq
  · have hn : (fun f => ({ s with kmem := k }.setProc p y).slots f + h'.count f) = fun f => s.slots f + h.count f := by
      funext f
      have h1 := hslot f
      have h2 := hslots f
      rw [hslotold] at h1
      change _ + slotsOf (s.proc p) f = _ at h1
      omega
    rw [hn]
    exact hs.files

/-! ## Calls -/

/-- The panics that calls may end in: none of them is of the allocator or of the file table. -/
def Harmless (e : MachinePanic) : Prop := e = .vm .copyuvm ∨ e = .exit

theorem fileclose_ends (hs : Inv L o s (f :: h)) : Ends Harmless (s.fileclose L f) fun t => Inv L o t h := by
  have hcount : (f :: h).count f = h.count f + 1 := List.count_cons_self
  have hn : Function.update (fun g => s.slots g + (f :: h).count g) f (s.slots f + (f :: h).count f - 1) =
      fun g => s.slots g + h.count g := by
    funext g
    by_cases hg : g = f
    · rw [hg, Function.update_self]
      omega
    · rw [Function.update_of_ne hg, List.count_cons_of_ne (Ne.symm hg)]
  unfold fileclose
  refine ((hs.files.fileclose (by omega)).mapError fun _ h => h.elim).bind fun ⟨r, t⟩ ⟨hinv, hclosed⟩ => ?_
  have hpages : r.pages + t.livePipes.val = s.ft.livePipes.val := hclosed.pages
  dsimp only at hinv
  rw [hn] at hinv
  cases r with
  | nothing => exact hs.move (by rw [← hpages]; exact congrArg _ (zero_add _).symm) hinv
  | inode ip => exact hs.move (by rw [← hpages]; exact congrArg _ (zero_add _).symm) hinv
  | page q =>
    have hmem : q ∈ s.used o := by
      unfold used
      rw [← hpages]
      simp [Released.pages]
    refine ((Kmem.kfree_ends q).mapError fun _ hbad => absurd (hs.sound.held hmem) hbad).bind fun k hk => ?_
    refine hs.move ?_ hinv
    rw [hk.1, ← hpages, Multiset.cons_add, ← Multiset.singleton_add]
    change {q} + (s.kmem.free + _) = s.kmem.free + ({q} + _)
    abel

theorem closeAll_ends (l : List FileId) (hs : Inv L o s (l ++ h)) :
    Ends Harmless (l.foldlM (fileclose L) s) fun t => Inv L o t h := by
  induction l generalizing s with
  | nil => exact hs
  | cons f l ih =>
    rw [List.foldlM_cons]
    exact (fileclose_ends hs).bind fun t ht => ih ht

variable [DecidableEq P]

theorem fork_ends (hs : Inv L o s []) (hp : s.proc p = some x) : Ends Harmless (s.fork L p x q) fun t => Inv L o t [] := by
  have hsize := (hs.procs p x hp).sized.size
  unfold fork
  split
  · exact hs
  · rename_i hfree
    rw [Bool.not_eq_true, Option.isSome_eq_false_iff, Option.isNone_iff_eq_none] at hfree
    split
    · rename_i k hk
      exact hs.move (by rw [(Kmem.kalloc_none hk).1]) hs.files
    · rename_i kstack k hk
      have hk' := (Kmem.kalloc_some hk).1
      have hsound : Sound L k 0 := by
        refine (hs.sound.mono (a := 0) (Multiset.zero_le _)).of_le ?_
        rw [hk']
        exact Multiset.le_cons_self ..
      refine ((copyuvm_ends hsize.le hsound).mapError fun e he => .inl (congrArg _ he)).bind fun ⟨r, k₁⟩ hr => ?_
      obtain ⟨hpages, habove⟩ := hr
      cases r with
      | none =>
        have hback : k₁.free = k.free := (add_zero _).symm.trans hpages
        have hval : L.Valid kstack :=
          hs.sound.valid kstack (by rw [hk']; exact Multiset.mem_add.2 (.inl (Multiset.mem_cons_self ..)))
        refine ((Kmem.kfree_ends kstack).mapError fun _ hbad => absurd hval hbad).bind fun k₂ hk₂ => ?_
        exact hs.move (by rw [hk₂.1, hback, hk']) hs.files
      | some d =>
        have hback : k₁.free + d.owned = k.free := hpages
        refine ((hs.files.dupAll x.ofile.slots fun f hf => ?_).mapError fun _ h => h.elim).bind fun t ht => ?_
        · have := slots_pos hp hf
          omega
        · have hmid : Inv L o { s with ft := t } (x.ofile.slots) :=
            hs.move (by rw [ht.1.livePipes]) (by simpa using ht.2)
          refine hmid.setProc ?_ ?_ fun f => ?_
          · change k₁.free + (kstack ::ₘ d.owned) = s.kmem.free + procPages (s.proc q)
            rw [hfree, hk', Multiset.add_cons, hback]
            exact (add_zero _).symm
          · rintro _ ⟨⟩
            exact ⟨⟨hsize, habove d rfl⟩, nofun⟩
          · change _ = slotsOf (s.proc q) f + _
            rw [hfree]
            exact Nat.add_comm ..

/-- The address space of a process is changed, and nothing else of it. -/
theorem Inv.setSpace (hs : Inv L o s []) (hp : s.proc p = some x) {k : Kmem} {y : Space}
    (hpages : k.free + y.pgdir.owned = s.kmem.free + x.space.pgdir.owned) (hy : y.Sized) :
    Inv L o ({ s with kmem := k }.setProc p (some { x with space := y })) [] := by
  refine hs.setProc ?_ ?_ fun f => ?_
  · rw [hp]
    change k.free + (x.kstack ::ₘ y.pgdir.owned) = s.kmem.free + (x.kstack ::ₘ x.space.pgdir.owned)
    rw [Multiset.add_cons, Multiset.add_cons, hpages]
  · rintro _ ⟨⟩
    exact ⟨hy, (hs.procs p x hp).closed⟩
  · rw [hp]
    rfl

theorem sbrk_ends (hs : Inv L o s []) (hp : s.proc p = some x) (n : BitVec 32) :
    Ends Harmless (s.sbrk L p x n) fun t => Inv L o t [] := by
  unfold sbrk
  refine ((growproc_ends (hs.procs p x hp).sized (hs.space hp)).mapError fun _ h => h.elim).bind fun r hr => ?_
  exact hs.setSpace hp hr.1 hr.2

theorem exec_ends (hs : Inv L o s []) (hp : s.proc p = some x) (prog : Program) {args : List Arg}
    (hargs : ∀ a ∈ args, a.Short) : Ends Harmless (s.exec L p x prog args) fun t => Inv L o t [] := by
  unfold exec
  refine ((Xv6.exec_ends (hs.procs p x hp).sized hargs (hs.space hp)).mapError fun _ h => h.elim).bind fun r hr => ?_
  exact hs.setSpace hp hr.1 hr.2

/-- The descriptors of a process are changed, and nothing else of it. -/
theorem Inv.setOfile (hs : Inv L o s h) (hp : s.proc p = some x) {y : Mproc P} (hspace : y.space = x.space)
    (hstack : y.kstack = x.kstack) (hclosed : y.zombie = true → y.ofile.slots = [])
    (hcount : ∀ f, y.ofile.slots.count f + h'.count f = x.ofile.slots.count f + h.count f) :
    Inv L o (s.setProc p (some y)) h' := by
  refine hs.setProc (k := s.kmem) ?_ ?_ fun f => ?_
  · rw [hp]
    simp only [procPages, hspace, hstack]
  · rintro _ ⟨⟩
    exact ⟨hspace ▸ (hs.procs p x hp).sized, hclosed⟩
  · rw [hp]
    exact hcount f

omit [DecidableEq P] in
/-- Nobody's pages or files change with the parents. -/
theorem Inv.mapProc (hs : Inv L o s h) (g : Mproc P → Mproc P)
    (hg : ∀ y, (g y).space = y.space ∧ (g y).kstack = y.kstack ∧ (g y).ofile = y.ofile ∧ (g y).zombie = y.zombie) :
    Inv L o { s with proc := fun q => (s.proc q).map g } h := by
  have hproc : ({ s with proc := fun q => (s.proc q).map g } : Machine P).processes = s.processes := by
    unfold processes
    refine Finset.sum_congr rfl fun q _ => ?_
    dsimp only
    cases s.proc q with
    | none => rfl
    | some y => simp only [Option.map_some, procPages, hg]
  have hslots : ({ s with proc := fun q => (s.proc q).map g } : Machine P).slots = s.slots := by
    funext f
    unfold slots
    refine Finset.sum_congr rfl fun q _ => ?_
    dsimp only
    cases s.proc q with
    | none => rfl
    | some y => simp only [Option.map_some, slotsOf, hg]
  refine ⟨?_, fun q x hq => ?_, ?_⟩
  · rw [← hs.pages, used, used, hproc]
  · obtain ⟨y, hy, rfl⟩ := Option.map_eq_some_iff.1 hq
    obtain ⟨hspace, -, hofile, hzombie⟩ := hg y
    have htidy := hs.procs q y hy
    exact ⟨hspace ▸ htidy.sized, by rw [hofile, hzombie]; exact htidy.closed⟩
  · rw [hslots]
    exact hs.files

theorem exit_ends (hs : Inv L o s []) (hp : s.proc p = some x) : Ends Harmless (s.exit L p x) fun t => Inv L o t [] := by
  have hclosed : Ofile.slots (fun _ => none) = [] := by simp [Ofile.slots]
  unfold exit
  split
  · exact .inr rfl
  · have hheld : Inv L o (s.setProc p (some { x with ofile := fun _ => none, zombie := true })) (x.ofile.slots ++ []) := by
      refine hs.setOfile hp rfl rfl (fun _ => hclosed) fun f => ?_
      rw [hclosed, List.append_nil]
      exact Nat.add_comm ..
    refine (closeAll_ends _ hheld).bind fun t ht => ?_
    refine ht.mapProc _ fun y => ?_
    split
    · exact ⟨rfl, rfl, rfl, rfl⟩
    · exact ⟨rfl, rfl, rfl, rfl⟩

theorem wait_ends (hs : Inv L o s []) : Ends Harmless (s.wait L p q) fun t => Inv L o t [] := by
  unfold wait
  split
  · exact hs
  · rename_i y hy
    split
    · rename_i hzombie
      have hsound := hs.sound.mono (procPages_le hy)
      refine ((Kmem.kfree_ends y.kstack).mapError fun _ hbad =>
        absurd (hsound.held (Multiset.mem_cons_self ..)) hbad).bind fun k hk => ?_
      have hsound' : Sound L k y.space.pgdir.owned :=
        hsound.of_eq (by rw [hk.1, Multiset.cons_add, Multiset.add_cons])
      refine ((freevm_ends hsound').mapError fun _ h => h.elim).bind fun k₁ hk₁ => ?_
      refine hs.setProc ?_ nofun fun f => ?_
      · rw [hy, hk₁, hk.1]
        change _ + 0 = s.kmem.free + (y.kstack ::ₘ y.space.pgdir.owned)
        rw [add_zero, Multiset.cons_add, Multiset.add_cons]
      · rw [hy]
        change 0 + _ = y.ofile.slots.count f + _
        rw [(hs.procs q y hy).closed hzombie.2]
        rfl
    · exact hs

theorem close_ends (hs : Inv L o s []) (hp : s.proc p = some x) (hz : x.zombie = false) (fd : Fd) :
    Ends Harmless (s.close L p x fd) fun t => Inv L o t [] := by
  unfold close
  split
  · exact hs
  · rename_i f hf
    refine fileclose_ends (hs.setOfile hp rfl rfl (fun h => ?_) fun g => ?_)
    · exact absurd (hz.symm.trans h) nofun
    · have hcount := x.ofile.count_update fd none g
      rw [hf] at hcount
      simp only [List.count_cons, List.count_nil, Option.some.injEq, reduceCtorEq, if_false, beq_iff_eq] at *
      omega

theorem pipe_ends (hs : Inv L o s []) (hp : s.proc p = some x) (hz : x.zombie = false) :
    Ends Harmless (s.pipe L p x) fun t => Inv L o t [] := by
  have hfresh : ∀ q, q ∈ s.kmem.free → s.ft.pipe q = none := by
    intro q hq
    rw [hs.files.pipe_none]
    intro hlive
    refine hs.sound.not_free ?_ hq
    unfold used
    exact Multiset.mem_add.2 (.inl (Multiset.mem_add.2 (.inr hlive)))
  unfold pipe
  refine ((hs.files.pipealloc Kmem.kalloc s.kmem).mapError fun _ h => h.elim).bind
    fun ⟨r, t, k⟩ hr => ?_
  cases r with
  | none =>
    obtain ⟨ht, hk⟩ := hr
    dsimp only at ht hk ⊢
    have hfree : k.free = s.kmem.free := by
      obtain rfl | hk := hk
      · rfl
      · exact (Kmem.kalloc_none hk).1
    exact hs.move (by rw [hfree, ht]) (ht ▸ hs.files)
  | some r =>
    obtain ⟨rf, wf⟩ := r
    obtain ⟨q, hk, hopen⟩ := hr
    dsimp only at hk hopen ⊢
    have hfree := (Kmem.kalloc_some hk).1
    have hq : s.ft.pipe q = none := hfresh q (by rw [hfree]; exact Multiset.mem_cons_self ..)
    -- the call holds the two files
    have hheld : Inv L o { s with ft := t, kmem := k } [rf, wf] := by
      refine hs.move ?_ ?_
      · rw [hopen.pages hs.files hq, hfree, Multiset.add_cons, Multiset.cons_add]
      · have hn : (fun f => s.slots f + [rf, wf].count f) =
            Function.update (Function.update (fun f => s.slots f + ([] : List FileId).count f) rf 1) wf 1 := by
          have hrf := (hs.files.ref rf).symm.trans hopen.fresh.1
          have hwf := (hs.files.ref wf).symm.trans hopen.fresh.2
          funext f
          by_cases hfw : f = wf
          · subst hfw
            rw [Function.update_self, List.count_cons_of_ne hopen.ne, List.count_cons_self]
            exact congrArg (· + 1) hwf
          · rw [Function.update_of_ne hfw]
            by_cases hfr : f = rf
            · subst hfr
              rw [Function.update_self, List.count_cons_self, List.count_cons_of_ne (Ne.symm hfw)]
              exact congrArg (· + 1) hrf
            · rw [Function.update_of_ne hfr, List.count_cons_of_ne (Ne.symm hfr), List.count_cons_of_ne (Ne.symm hfw)]
        rw [hn]
        exact hopen.inv hs.files hq
    have hclose : Ends Harmless (do
        let s ← ({ s with ft := t, kmem := k } : Machine P).fileclose L rf
        s.fileclose L wf) fun t => Inv L o t [] :=
      (fileclose_ends hheld).bind fun t ht => fileclose_ends ht
    split
    · exact hclose
    · rename_i fd0 hfd0
      split
      · exact hclose
      · rename_i fd1 hfd1
        have h0 := fdalloc_some hfd0
        have h1 := fdalloc_some hfd1
        refine hheld.setOfile hp rfl rfl (fun h => absurd (hz.symm.trans h) nofun) fun g => ?_
        have hcount0 := x.ofile.count_update fd0 (some rf) g
        have hcount1 := Ofile.count_update (Function.update x.ofile fd0 (some rf)) fd1 (some wf) g
        rw [h0] at hcount0
        rw [h1] at hcount1
        simp only [List.count_cons, List.count_nil, Option.some.injEq, reduceCtorEq, if_false, beq_iff_eq] at *
        omega

omit [DecidableEq P] in
theorem store_inv (hs : Inv L o s []) (hp : s.proc p = some x) (a : BitVec 32) (b : BitVec 8) :
    Inv L o (s.store x a b) [] := by
  unfold store
  split
  · exact hs
  · rename_i e he
    split
    · rename_i hmay
      have hpage : e.page ∉ s.kmem.freelist :=
        (hs.space hp).not_free (Pgdir.mem_owned he (Nat.div_lt_of_lt_mul (hmay.1.trans_eq (by decide))))
      have hsame := store_sameList (k := s.kmem) (o := a.toNat % PGSIZE) (n := 1) (f := fun _ => b) hpage
      exact hs.move (by rw [hsame.free]) hs.files
    · exact hs

/-- The arguments of `exec` are such that the stack pointer stays off the gap below the devices. -/
def Call.Safe : Call P → Prop
  | .exec _ args => ∀ a ∈ args, a.Short
  | _ => True

theorem syscall_ends (hs : Inv L o s []) (hp : s.proc p = some x) (hz : x.zombie = false) {c : Call P} (hc : c.Safe) :
    Ends Harmless (syscall L s p x c) fun t => Inv L o t [] := by
  cases c with
  | fork q => exact fork_ends hs hp
  | exec prog args => exact exec_ends hs hp prog hc
  | sbrk n => exact sbrk_ends hs hp n
  | exit => exact exit_ends hs hp
  | wait q => exact wait_ends hs
  | pipe => exact pipe_ends hs hp hz
  | close fd => exact close_ends hs hp hz fd
  | store a b => exact store_inv hs hp a b

omit [DecidableEq P] in
/-- `kalloc` may fail anywhere in the next call. -/
theorem Inv.setFails (hs : Inv L o s h) (fails : List Bool) :
    Inv L o { s with kmem := { s.kmem with fails := fails } } h := hs.move rfl hs.files

theorem step_inv {t : Machine P} {l : Label P} (hs : Inv L o s []) (hl : l.call.Safe) (h : step L s l = some t) :
    Inv L o t [] := by
  unfold step at h
  split at h
  · cases h
  · rename_i x hx
    split at h
    · cases h
    · rename_i hz
      have hends := syscall_ends (hs.setFails l.fails) hx (by simpa using hz) hl
      cases hcall : syscall L { s with kmem := { s.kmem with fails := l.fails } } l.p x l.call with
      | error e =>
        rw [hcall] at h
        cases h
      | ok t' =>
        rw [hcall] at h hends
        cases h
        exact hends

end Machine

end Xv6
