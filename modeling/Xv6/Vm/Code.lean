import Xv6.Trap.Code
/-!
# Pages and page tables (kalloc.c, vm.c, growproc)

A page of physical memory is named by its frame number. A page directory is
the tree that its entries make: the page it is in, a page table for each
present entry, and a mapped page for each present entry of a table. Virtual
addresses in the loops are multiples of `PGSIZE` and are named by their page
number; sizes are in bytes, below 2^32. `kalloc` may find no page at any call,
free list or not, as `fails` says.
-/

namespace Xv6

/-! ## Physical pages -/

abbrev Page := Nat

abbrev PageData := Fin PGSIZE → BitVec 8

def EXTMEM : Nat := 0x100000
def PHYSTOP : Nat := 0xE000000
def DEVSPACE : Nat := 0xFE000000
def NPDENTRIES : Nat := 1024

instance : NeZero NPDENTRIES := ⟨by decide⟩

/-- What the linker decides: the frames of `data` and of the first page behind the kernel. -/
structure Layout where
  data : Page
  first : Page
  low : EXTMEM / PGSIZE < data
  le : data ≤ first
  high : first < PHYSTOP / PGSIZE

inductive VmPanic where
  | kfree | remap | copyuvm | loaduvm | clearpteu | uva2ka
  deriving DecidableEq

structure Kmem where
  freelist : List Page
  content : Page → PageData
  fails : List Bool

namespace Kmem

/-- `memset(p, b, PGSIZE)`. -/
def memset (k : Kmem) (p : Page) (b : BitVec 8) : Kmem := { k with content := Function.update k.content p fun _ => b }

def kalloc (k : Kmem) : Option Page × Kmem :=
  let k' := { k with fails := k.fails.tail }
  if k.fails.head? = some true then (none, k')
  else match k.freelist with
    | [] => (none, k')
    | p :: rest => (some p, { k' with freelist := rest })

def kfree (L : Layout) (k : Kmem) (p : Page) : Except VmPanic Kmem :=
  if p < L.first ∨ PHYSTOP / PGSIZE ≤ p then .error .kfree
  else .ok { k.memset p 1 with freelist := p :: k.freelist }

end Kmem

/-! ## Page tables -/

structure Pte where
  page : Page
  write : Bool
  user : Bool

structure PageTable where
  page : Page
  pte : Fin NPDENTRIES → Option Pte

structure Pgdir where
  page : Page
  pde : Fin NPDENTRIES → Option PageTable

/-- `PDX` and `PTX` of the address with this page number. -/
def PDX (v : Nat) : Fin NPDENTRIES := Fin.ofNat NPDENTRIES (v / NPDENTRIES)
def PTX (v : Nat) : Fin NPDENTRIES := Fin.ofNat NPDENTRIES v

namespace Pgdir

/-- The present entry for a page. -/
def get (d : Pgdir) (v : Nat) : Option Pte := (d.pde (PDX v)).bind fun t => t.pte (PTX v)

/-- The entry for a page is stored, if there is a table for it. -/
def set (d : Pgdir) (v : Nat) (e : Option Pte) : Pgdir :=
  let t := (d.pde (PDX v)).map fun t => { t with pte := Function.update t.pte (PTX v) e }
  { d with pde := Function.update d.pde (PDX v) t }

end Pgdir

/-- `walkpgdir(pgdir, va, 1)`: the directory with a table for the page, unless there was no
page for the table. -/
def walkpgdir (k : Kmem) (d : Pgdir) (v : Nat) : Option Pgdir × Kmem :=
  if (d.pde (PDX v)).isSome then (some d, k)
  else match k.kalloc with
    | (none, k) => (none, k)
    | (some p, k) => (some { d with pde := Function.update d.pde (PDX v) (some ⟨p, fun _ => none⟩) }, k.memset p 0)

/-- `mappages` for `n` pages from page `v` on, to the frames from `e.page` on. -/
def mappages (k : Kmem) (d : Pgdir) (v : Nat) (e : Pte) : Nat → Except VmPanic (Bool × Pgdir × Kmem)
  | 0 => .ok (true, d, k)
  | n + 1 =>
    match walkpgdir k d v with
    | (none, k) => .ok (false, d, k)
    | (some d, k) =>
      if (d.get v).isSome then .error .remap
      else mappages k (d.set v (some e)) (v + 1) { e with page := e.page + 1 } n

/-- How many pages hold `n` bytes: `PGROUNDUP(n) / PGSIZE`. -/
def pagesUp (n : Nat) : Nat := (n + PGSIZE - 1) / PGSIZE

/-- The loop of `deallocuvm` from page `v` on, up to page `last`. -/
def deallocLoop (L : Layout) (last : Nat) : Nat → Kmem → Pgdir → Nat → Except VmPanic (Pgdir × Kmem)
  | 0, k, d, _ => .ok (d, k)
  | fuel + 1, k, d, v =>
    if v < last then
      match d.pde (PDX v) with
      | none => deallocLoop L last fuel k d ((v / NPDENTRIES + 1) * NPDENTRIES)
      | some t =>
        match t.pte (PTX v) with
        | none => deallocLoop L last fuel k d (v + 1)
        | some e =>
          if e.page = 0 then .error .kfree
          else do
            let k ← k.kfree L e.page
            deallocLoop L last fuel k (d.set v none) (v + 1)
    else .ok (d, k)

@[irreducible] def deallocuvm (L : Layout) (k : Kmem) (d : Pgdir) (oldsz newsz : Nat) : Except VmPanic (Nat × Pgdir × Kmem) :=
  if oldsz ≤ newsz then .ok (oldsz, d, k)
  else do
    let (d, k) ← deallocLoop L (pagesUp oldsz) (pagesUp oldsz) k d (pagesUp newsz)
    .ok (newsz, d, k)

/-- The loop of `allocuvm` from page `v` on, for `n` pages. -/
def allocLoop (L : Layout) (oldsz newsz : Nat) : Nat → Kmem → Pgdir → Nat → Except VmPanic (Nat × Pgdir × Kmem)
  | 0, k, d, _ => .ok (newsz, d, k)
  | n + 1, k, d, v =>
    match k.kalloc with
    | (none, k) => do
      let (_, d, k) ← deallocuvm L k d newsz oldsz
      .ok (0, d, k)
    | (some p, k) => do
      match ← mappages (k.memset p 0) d v ⟨p, true, true⟩ 1 with
      | (false, d, k) =>
        let (_, d, k) ← deallocuvm L k d newsz oldsz
        let k ← k.kfree L p
        .ok (0, d, k)
      | (true, d, k) => allocLoop L oldsz newsz n k d (v + 1)

@[irreducible] def allocuvm (L : Layout) (k : Kmem) (d : Pgdir) (oldsz newsz : Nat) : Except VmPanic (Nat × Pgdir × Kmem) :=
  if KERNBASE ≤ newsz then .ok (0, d, k)
  else if newsz < oldsz then .ok (oldsz, d, k)
  else allocLoop L oldsz newsz (pagesUp newsz - pagesUp oldsz) k d (pagesUp oldsz)

/-- The page tables are freed, one directory entry after another. -/
def freeTables (L : Layout) (d : Pgdir) : List (Fin NPDENTRIES) → Kmem → Except VmPanic Kmem
  | [], k => .ok k
  | i :: is, k =>
    match d.pde i with
    | none => freeTables L d is k
    | some t => do
      let k ← k.kfree L t.page
      freeTables L d is k

@[irreducible] def freevm (L : Layout) (k : Kmem) (d : Pgdir) : Except VmPanic Kmem := do
  let (_, d, k) ← deallocuvm L k d KERNBASE 0
  let k ← freeTables L d (List.finRange NPDENTRIES) k
  k.kfree L d.page

/-- The kernel's mappings: page, frame, number of pages and `PTE_W`. -/
structure Kmap where
  virt : Nat
  phys : Page
  n : Nat
  write : Bool

/-- `kmap`. -/
def kmap (L : Layout) : List Kmap :=
  [⟨KERNBASE / PGSIZE, 0, EXTMEM / PGSIZE, true⟩,
   ⟨(KERNBASE + EXTMEM) / PGSIZE, EXTMEM / PGSIZE, L.data - EXTMEM / PGSIZE, false⟩,
   ⟨KERNBASE / PGSIZE + L.data, L.data, PHYSTOP / PGSIZE - L.data, true⟩,
   ⟨DEVSPACE / PGSIZE, DEVSPACE / PGSIZE, (2 ^ 32 - DEVSPACE) / PGSIZE, true⟩]

/-- The loop of `setupkvm`. -/
def mapKernel (L : Layout) : List Kmap → Kmem → Pgdir → Except VmPanic (Option Pgdir × Kmem)
  | [], k, d => .ok (some d, k)
  | m :: ms, k, d => do
    match ← mappages k d m.virt ⟨m.phys, m.write, false⟩ m.n with
    | (false, d, k) =>
      let k ← freevm L k d
      .ok (none, k)
    | (true, d, k) => mapKernel L ms k d

@[irreducible] def setupkvm (L : Layout) (k : Kmem) : Except VmPanic (Option Pgdir × Kmem) :=
  match k.kalloc with
  | (none, k) => .ok (none, k)
  | (some p, k) => mapKernel L (kmap L) (k.memset p 0) ⟨p, fun _ => none⟩

/-- The loop of `copyuvm` from page `v` on, for `n` pages. -/
def copyLoop (L : Layout) (src : Pgdir) : Nat → Kmem → Pgdir → Nat → Except VmPanic (Option Pgdir × Kmem)
  | 0, k, d, _ => .ok (some d, k)
  | n + 1, k, d, v =>
    match src.get v with
    | none => .error .copyuvm
    | some e =>
      match k.kalloc with
      | (none, k) => do
        let k ← freevm L k d
        .ok (none, k)
      | (some p, k) => do
        let k := { k with content := Function.update k.content p (k.content e.page) }
        match ← mappages k d v { e with page := p } 1 with
        | (false, d, k) =>
          let k ← k.kfree L p
          let k ← freevm L k d
          .ok (none, k)
        | (true, d, k) => copyLoop L src n k d (v + 1)

@[irreducible] def copyuvm (L : Layout) (k : Kmem) (d : Pgdir) (sz : Nat) : Except VmPanic (Option Pgdir × Kmem) := do
  match ← setupkvm L k with
  | (none, k) => .ok (none, k)
  | (some d', k) => copyLoop L d (pagesUp sz) k d' 0

/-! ## The size of a process -/

/-- The address space of a process. -/
structure Space where
  pgdir : Pgdir
  sz : BitVec 32

def growproc (L : Layout) (k : Kmem) (s : Space) (n : BitVec 32) : Except VmPanic (Int × Space × Kmem) :=
  if 0 < n.toInt then do
    let (sz, d, k) ← allocuvm L k s.pgdir s.sz.toNat (s.sz + n).toNat
    if sz = 0 then .ok (-1, { s with pgdir := d }, k) else .ok (0, ⟨d, BitVec.ofNat 32 sz⟩, k)
  else if n.toInt < 0 then do
    let (sz, d, k) ← deallocuvm L k s.pgdir s.sz.toNat (s.sz + n).toNat
    if sz = 0 then .ok (-1, { s with pgdir := d }, k) else .ok (0, ⟨d, BitVec.ofNat 32 sz⟩, k)
  else .ok (0, s, k)

end Xv6
