import Xv6.Vm.Code
/-!
# Loading a program (exec.c, and what it uses of vm.c)

`exec` builds a new address space beside the old one, fills it from the file and
puts the arguments on its stack. What the file system reads is an input: the
program headers and, for each page of a segment, the bytes or a failed read.

`uva2ka` uses the entry that `walkpgdir` returns without a look at it. Where
there is no page table the pointer is 0, and the entry is the word at virtual
address 0, which in the kernel is the running process's own memory.
-/

namespace Xv6

def MAXARG : Nat := 32

/-! ## Stores through a page's kernel address -/

/-- The free pages of a list up to `p`. -/
def upTo (p : Page) : List Page → List Page
  | [] => []
  | q :: l => if q = p then [q] else q :: upTo p l

/-- `n` bytes are stored in page `p`, from offset `o` on. The links of the free list are in
the first words of the free pages: if such a word is overwritten, by bytes of a string,
the pages behind are no longer on the list. -/
def Kmem.store (k : Kmem) (p : Page) (o n : Nat) (f : Nat → BitVec 8) : Kmem :=
  { k with
    freelist := if o < 4 then upTo p k.freelist else k.freelist
    content := Function.update k.content p fun i =>
      if o ≤ i.val ∧ i.val < o + n then f (i.val - o) else k.content p i }

/-- The first word of a page. -/
def firstWord (c : PageData) : BitVec 32 :=
  c ⟨3, by decide⟩ ++ c ⟨2, by decide⟩ ++ c ⟨1, by decide⟩ ++ c ⟨0, by decide⟩

/-! ## vm.c -/

/-- The loop of `loaduvm` from page `i` of the segment on; the segment starts at page `v`
and has `sz` bytes. -/
def loadLoop (d : Pgdir) (v sz : Nat) (data : Nat → Option (Nat → BitVec 8)) :
    Nat → Nat → Kmem → Except VmPanic (Bool × Kmem)
  | 0, _, k => .ok (true, k)
  | n + 1, i, k =>
    match d.pde (PDX (v + i)) with
    | none => .error .loaduvm
    | some t =>
      match data i with
      | none => .ok (false, k)
      | some f =>
        let pa := (t.pte (PTX (v + i))).elim 0 Pte.page
        loadLoop d v sz data n (i + 1) (k.store pa 0 (min PGSIZE (sz - i * PGSIZE)) f)

def loaduvm (d : Pgdir) (v sz : Nat) (data : Nat → Option (Nat → BitVec 8)) (k : Kmem) : Except VmPanic (Bool × Kmem) :=
  loadLoop d v sz data (pagesUp sz) 0 k

def clearpteu (d : Pgdir) (v : Nat) : Except VmPanic Pgdir :=
  if (d.pde (PDX v)).isSome then .ok (d.set v ((d.get v).map fun e => { e with user := false }))
  else .error .clearpteu

/-- `uva2ka`, with the page directory `cur` in use. A frame that is not memory behind the
kernel's addresses faults. -/
def uva2ka (cur : Pgdir) (k : Kmem) (d : Pgdir) (v : Nat) : Except VmPanic (Option Page) :=
  match d.pde (PDX v) with
  | some t =>
    match t.pte (PTX v) with
    | some e => .ok (if e.user then some e.page else none)
    | none => .ok none
  | none =>
    match cur.get 0 with
    | none => .error .uva2ka
    | some e =>
      let pte := firstWord (k.content e.page)
      if pte.getLsbD 0 = false ∨ pte.getLsbD 2 = false then .ok none
      else if pte.toNat / PGSIZE < PHYSTOP / PGSIZE then .ok (some (pte.toNat / PGSIZE))
      else .error .uva2ka

/-- The loop of `copyout`, with `done` of the `len` bytes copied. -/
def copyoutLoop (cur d : Pgdir) (f : Nat → BitVec 8) (len : Nat) :
    Nat → Nat → BitVec 32 → Kmem → Except VmPanic (Bool × Kmem)
  | 0, _, _, k => .ok (true, k)
  | fuel + 1, done, va, k =>
    if len ≤ done then .ok (true, k)
    else do
      match ← uva2ka cur k d (va.toNat / PGSIZE) with
      | none => .ok (false, k)
      | some p =>
        let o := va.toNat % PGSIZE
        let n := min (PGSIZE - o) (len - done)
        copyoutLoop cur d f len fuel (done + n) (BitVec.ofNat 32 ((va.toNat / PGSIZE + 1) * PGSIZE))
          (k.store p o n fun i => f (done + i))

/-- Every round copies at least one byte. -/
def copyout (cur d : Pgdir) (va : BitVec 32) (f : Nat → BitVec 8) (len : Nat) (k : Kmem) : Except VmPanic (Bool × Kmem) :=
  copyoutLoop cur d f len len 0 va k

/-! ## exec -/

structure Proghdr where
  load : Bool               -- type == ELF_PROG_LOAD
  vaddr : BitVec 32
  filesz : BitVec 32
  memsz : BitVec 32

/-- What `readi` gives for a program header, and for the pages of its segment. -/
structure Segment where
  ph : Option Proghdr
  data : Nat → Option (Nat → BitVec 8)

/-- An argument: a string of `len` bytes before the NUL. -/
structure Arg where
  len : Nat
  byte : Nat → BitVec 8

structure Program where
  elf : Bool                -- the ELF header was read and has the magic number
  segs : List Segment

/-- The loop over the program headers: the new size, or none if it fails. -/
def loadSegs (L : Layout) : List Segment → Kmem → Pgdir → Nat → Except VmPanic (Option Nat × Pgdir × Kmem)
  | [], k, d, sz => .ok (some sz, d, k)
  | g :: gs, k, d, sz =>
    match g.ph with
    | none => .ok (none, d, k)
    | some ph =>
      if ph.load = false then loadSegs L gs k d sz
      else if ph.memsz.toNat < ph.filesz.toNat then .ok (none, d, k)
      else if (ph.vaddr + ph.memsz).toNat < ph.vaddr.toNat then .ok (none, d, k)
      else do
        let (sz, d, k) ← allocuvm L k d sz (ph.vaddr + ph.memsz).toNat
        if sz = 0 then .ok (none, d, k)
        else if ph.vaddr.toNat % PGSIZE ≠ 0 then .ok (none, d, k)
        else do
          let (ok, k) ← loaduvm d (ph.vaddr.toNat / PGSIZE) ph.filesz.toNat g.data k
          if ok then loadSegs L gs k d sz else .ok (none, d, k)

/-- The loop over the arguments: the stack pointer and `ustack` from index 3 on. -/
def pushArgs (cur d : Pgdir) : List Arg → BitVec 32 → List (BitVec 32) → Kmem →
    Except VmPanic (Option (BitVec 32 × List (BitVec 32)) × Kmem)
  | [], sp, ptrs, k => .ok (some (sp, ptrs), k)
  | a :: as, sp, ptrs, k =>
    if MAXARG ≤ ptrs.length then .ok (none, k)
    else do
      let sp := (sp - BitVec.ofNat 32 (a.len + 1)) &&& ~~~3#32
      let (ok, k) ← copyout cur d sp (fun i => if i < a.len then a.byte i else 0) (a.len + 1) k
      if ok then pushArgs cur d as sp (ptrs ++ [sp]) k else .ok (none, k)

/-- The bytes of `ustack`. -/
def wordBytes (ws : List (BitVec 32)) (i : Nat) : BitVec 8 := (ws.getD (i / 4) 0).extractLsb' (8 * (i % 4)) 8

/-- The arguments and the words below them: whether there was room. -/
def pushStack (cur d : Pgdir) (args : List Arg) (sp : BitVec 32) (k : Kmem) : Except VmPanic (Bool × Kmem) := do
  match ← pushArgs cur d args sp [] k with
  | (none, k) => .ok (false, k)
  | (some (sp, ptrs), k) =>
    let argc := ptrs.length
    let ustack := 0xffffffff#32 :: BitVec.ofNat 32 argc :: (sp - BitVec.ofNat 32 ((argc + 1) * 4)) :: ptrs ++ [0]
    copyout cur d (sp - BitVec.ofNat 32 ((3 + argc + 1) * 4)) (wordBytes ustack) ((3 + argc + 1) * 4) k

/-- What fills the new address space: its size, or none if it fails. -/
def fillImage (L : Layout) (cur : Pgdir) (prog : Program) (args : List Arg) (k : Kmem) (d : Pgdir) :
    Except VmPanic (Option Nat × Pgdir × Kmem) := do
  match ← loadSegs L prog.segs k d 0 with
  | (none, d, k) => .ok (none, d, k)
  | (some sz, d, k) =>
    let (sz, d, k) ← allocuvm L k d (PGROUNDUP sz) (PGROUNDUP sz + 2 * PGSIZE)
    if sz = 0 then .ok (none, d, k)
    else do
      let d ← clearpteu d (sz / PGSIZE - 2)
      let (ok, k) ← pushStack cur d args (BitVec.ofNat 32 sz) k
      .ok (if ok then some sz else none, d, k)

def Space.exec (L : Layout) (k : Kmem) (s : Space) (prog : Program) (args : List Arg) :
    Except VmPanic (Int × Space × Kmem) :=
  if prog.elf = false then .ok (-1, s, k)
  else do
    match ← setupkvm L k with
    | (none, k) => .ok (-1, s, k)
    | (some d, k) =>
      match ← fillImage L s.pgdir prog args k d with
      | (none, d, k) =>
        let k ← freevm L k d
        .ok (-1, s, k)
      | (some sz, d, k) =>
        let k ← freevm L k s.pgdir
        .ok (0, ⟨d, BitVec.ofNat 32 sz⟩, k)

end Xv6
