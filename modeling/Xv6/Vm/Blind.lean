import Xv6.Vm.Elf
/-!
# What is in memory does not matter

Two runs of the allocator and of what builds address spaces that start from the
same free list do the same, whatever the pages hold. So an image that can be
built in one memory can be built in another with the same free pages.
-/

namespace Xv6

open Outcome

variable {L : Layout} {k k' : Kmem} {d : Pgdir} {α : Type}

/-- Results of two runs: the same, with the same free list. -/
def SameResult (r r' : α × Kmem) : Prop := r.1 = r'.1 ∧ SameList r.2 r'.2

/-- The same for runs that change a directory too. -/
def SameBuilt (r r' : α × Pgdir × Kmem) : Prop := r.1 = r'.1 ∧ SameResult r.2 r'.2

theorem SameList.memset (h : SameList k k') (p : Page) (b b' : BitVec 8) : SameList (k.memset p b) (k'.memset p b') := h

theorem SameList.store (h : SameList k k') (p : Page) (o n : Nat) (f f' : Nat → BitVec 8) :
    SameList (k.store p o n f) (k'.store p o n f') := by
  refine ⟨?_, h.2⟩
  unfold Kmem.store
  dsimp only
  rw [h.1]

namespace SameList

variable (h : SameList k k')
include h

theorem kalloc : SameResult k.kalloc k'.kalloc := by
  unfold Kmem.kalloc
  rw [h.1, h.2]
  dsimp only
  split
  · exact ⟨rfl, rfl, rfl⟩
  · cases hl : k.freelist with
    | nil => exact ⟨rfl, rfl, rfl⟩
    | cons p l => exact ⟨rfl, rfl, rfl⟩

theorem kfree (p : Page) : Agree SameList (k.kfree L p) (k'.kfree L p) := by
  unfold Kmem.kfree
  split
  · trivial
  · exact ⟨congrArg (p :: ·) h.1, h.2⟩

theorem walkpgdir (v : Nat) : SameResult (walkpgdir k d v) (walkpgdir k' d v) := by
  unfold Xv6.walkpgdir
  split
  · exact ⟨rfl, h⟩
  · have hw := h.kalloc
    generalize k.kalloc = r, k'.kalloc = r' at hw ⊢
    obtain ⟨x, k₁⟩ := r
    obtain ⟨x', k₁'⟩ := r'
    obtain ⟨rfl, hk⟩ := hw
    cases x with
    | none => exact ⟨rfl, hk⟩
    | some p => exact ⟨rfl, hk⟩

theorem mappages (n v : Nat) (e : Pte) : Agree SameBuilt (mappages k d v e n) (mappages k' d v e n) := by
  induction n generalizing k k' d v e with
  | zero => exact ⟨rfl, rfl, h⟩
  | succ n ih =>
    unfold Xv6.mappages
    have hw := h.walkpgdir (d := d) v
    generalize Xv6.walkpgdir k d v = r, Xv6.walkpgdir k' d v = r' at hw ⊢
    obtain ⟨x, k₁⟩ := r
    obtain ⟨x', k₁'⟩ := r'
    obtain ⟨rfl, hk⟩ := hw
    cases x with
    | none => exact ⟨rfl, rfl, hk⟩
    | some d' =>
      dsimp only
      split
      · trivial
      · exact ih hk _ _

theorem deallocLoop (last fuel v : Nat) : Agree SameResult (deallocLoop L last fuel k d v) (deallocLoop L last fuel k' d v) := by
  induction fuel generalizing k k' d v with
  | zero => exact ⟨rfl, h⟩
  | succ fuel ih =>
    unfold Xv6.deallocLoop
    split
    · split
      · exact ih h _
      · split
        · exact ih h _
        · split
          · trivial
          · exact (h.kfree _).bind Ends.trivial fun _ _ hk _ => ih hk _
    · exact ⟨rfl, h⟩

theorem deallocuvm (oldsz newsz : Nat) : Agree SameBuilt (deallocuvm L k d oldsz newsz) (deallocuvm L k' d oldsz newsz) := by
  unfold Xv6.deallocuvm
  split
  · exact ⟨rfl, rfl, h⟩
  · exact (h.deallocLoop _ _ _).bind Ends.trivial fun _ _ hr _ => ⟨rfl, hr⟩

theorem allocLoop (oldsz newsz n v : Nat) :
    Agree SameBuilt (allocLoop L oldsz newsz n k d v) (allocLoop L oldsz newsz n k' d v) := by
  induction n generalizing k k' d v with
  | zero => exact ⟨rfl, rfl, h⟩
  | succ n ih =>
    unfold Xv6.allocLoop
    have hw := h.kalloc
    generalize k.kalloc = r, k'.kalloc = r' at hw ⊢
    obtain ⟨x, k₁⟩ := r
    obtain ⟨x', k₁'⟩ := r'
    obtain ⟨rfl, hk⟩ := hw
    cases x with
    | none => exact (hk.deallocuvm _ _).bind Ends.trivial fun _ _ hr _ => ⟨rfl, hr.2⟩
    | some p =>
      refine ((hk.memset p 0 0).mappages 1 v _).bind Ends.trivial fun r r' hr _ => ?_
      obtain ⟨ok, d₁, k₂⟩ := r
      obtain ⟨ok', d₁', k₂'⟩ := r'
      obtain ⟨rfl, rfl, hk₂⟩ := hr
      dsimp only at hk₂ ⊢
      cases ok with
      | false =>
        refine (hk₂.deallocuvm _ _).bind Ends.trivial fun r r' hr _ => ?_
        obtain ⟨_, d₃, k₃⟩ := r
        obtain ⟨_, d₃', k₃'⟩ := r'
        obtain ⟨-, rfl, hk₃⟩ := hr
        exact (hk₃.kfree p).bind Ends.trivial fun _ _ hk₄ _ => ⟨rfl, rfl, hk₄⟩
      | true => exact ih hk₂ _

theorem allocuvm (oldsz newsz : Nat) : Agree SameBuilt (allocuvm L k d oldsz newsz) (allocuvm L k' d oldsz newsz) := by
  unfold Xv6.allocuvm
  split
  · exact ⟨rfl, rfl, h⟩
  · split
    · exact ⟨rfl, rfl, h⟩
    · exact h.allocLoop _ _ _ _

theorem freeTables (is : List (Fin NPDENTRIES)) : Agree SameList (freeTables L d is k) (freeTables L d is k') := by
  induction is generalizing k k' with
  | nil => exact h
  | cons i is ih =>
    unfold Xv6.freeTables
    split
    · exact ih h
    · exact (h.kfree _).bind Ends.trivial fun _ _ hk _ => ih hk

theorem freevm : Agree SameList (freevm L k d) (freevm L k' d) := by
  unfold Xv6.freevm
  generalize List.finRange NPDENTRIES = is
  refine (h.deallocuvm _ _).bind Ends.trivial fun r r' hr _ => ?_
  obtain ⟨_, d₁, k₁⟩ := r
  obtain ⟨_, d₁', k₁'⟩ := r'
  obtain ⟨-, rfl, hk₁⟩ := hr
  exact (hk₁.freeTables is).bind Ends.trivial fun _ _ hk₂ _ => hk₂.kfree _

theorem mapKernel (ms : List Kmap) : Agree SameResult (mapKernel L ms k d) (mapKernel L ms k' d) := by
  induction ms generalizing k k' d with
  | nil => exact ⟨rfl, h⟩
  | cons m ms ih =>
    unfold Xv6.mapKernel
    refine (h.mappages _ _ _).bind Ends.trivial fun r r' hr _ => ?_
    obtain ⟨ok, d₁, k₁⟩ := r
    obtain ⟨ok', d₁', k₁'⟩ := r'
    obtain ⟨rfl, rfl, hk₁⟩ := hr
    dsimp only at hk₁ ⊢
    cases ok with
    | false => exact hk₁.freevm.bind Ends.trivial fun _ _ hk₂ _ => ⟨rfl, hk₂⟩
    | true => exact ih hk₁

theorem setupkvm : Agree SameResult (setupkvm L k) (setupkvm L k') := by
  unfold Xv6.setupkvm
  have hw := h.kalloc
  generalize k.kalloc = r, k'.kalloc = r' at hw ⊢
  obtain ⟨x, k₁⟩ := r
  obtain ⟨x', k₁'⟩ := r'
  obtain ⟨rfl, hk⟩ := hw
  cases x with
  | none => exact ⟨rfl, hk⟩
  | some p => exact (hk.memset p 0 0).mapKernel _

theorem loadLoop (v sz : Nat) (data : Nat → Option (Nat → BitVec 8)) (n i : Nat) :
    Agree SameResult (loadLoop d v sz data n i k) (loadLoop d v sz data n i k') := by
  induction n generalizing k k' i with
  | zero => exact ⟨rfl, h⟩
  | succ n ih =>
    unfold Xv6.loadLoop
    split
    · trivial
    · split
      · exact ⟨rfl, h⟩
      · exact ih (h.store _ _ _ _ _) _

theorem loadSegs (segs : List Segment) (sz : Nat) : Agree SameBuilt (loadSegs L segs k d sz) (loadSegs L segs k' d sz) := by
  induction segs generalizing k k' d sz with
  | nil => exact ⟨rfl, rfl, h⟩
  | cons g gs ih =>
    unfold Xv6.loadSegs
    split
    · exact ⟨rfl, rfl, h⟩
    · split
      · exact ih h _
      · split
        · exact ⟨rfl, rfl, h⟩
        · split
          · exact ⟨rfl, rfl, h⟩
          · refine (h.allocuvm _ _).bind Ends.trivial fun r r' hr _ => ?_
            obtain ⟨sz₁, d₁, k₁⟩ := r
            obtain ⟨sz₁', d₁', k₁'⟩ := r'
            obtain ⟨rfl, rfl, hk₁⟩ := hr
            dsimp only at hk₁ ⊢
            split
            · exact ⟨rfl, rfl, hk₁⟩
            · split
              · exact ⟨rfl, rfl, hk₁⟩
              · refine (hk₁.loadLoop _ _ _ _ _).bind Ends.trivial fun r r' hr _ => ?_
                obtain ⟨ok, k₂⟩ := r
                obtain ⟨ok', k₂'⟩ := r'
                obtain ⟨rfl, hk₂⟩ := hr
                dsimp only at hk₂ ⊢
                cases ok with
                | false => exact ⟨rfl, rfl, hk₂⟩
                | true => exact ih hk₂ _

theorem loadImage (segs : List Segment) : Agree SameBuilt (Exec.loadImage L segs k d) (Exec.loadImage L segs k' d) := by
  unfold Exec.loadImage
  refine (h.loadSegs segs 0).bind Ends.trivial fun r r' hr _ => ?_
  obtain ⟨x, d₁, k₁⟩ := r
  obtain ⟨x', d₁', k₁'⟩ := r'
  obtain ⟨rfl, rfl, hk₁⟩ := hr
  dsimp only at hk₁ ⊢
  cases x with
  | none => exact ⟨rfl, rfl, hk₁⟩
  | some sz =>
    refine (hk₁.allocuvm _ _).bind Ends.trivial fun r r' hr _ => ?_
    obtain ⟨sz₂, d₂, k₂⟩ := r
    obtain ⟨sz₂', d₂', k₂'⟩ := r'
    obtain ⟨rfl, rfl, hk₂⟩ := hr
    dsimp only at hk₂ ⊢
    split
    · exact ⟨rfl, rfl, hk₂⟩
    · cases clearpteu d₂ _ with
      | error e => trivial
      | ok d₃ => exact ⟨rfl, rfl, hk₂⟩

end SameList

end Xv6
