import Xv6.Lib.Runs
/-!
# The user's memory allocator (umalloc.c)

Addresses and sizes are 32-bit words, as numbers with explicit wrapping. The
headers of all blocks are two maps, `ptr` and `size`, over addresses; a program
stops with a page fault when it uses a header that is not in its memory. What
the kernel does for the program is a `World`. A loop that takes more rounds than
there are headers in the address space does not end.
-/

namespace Xv6.Umalloc

/-- The range of a word. -/
def WORD : Nat := 2 ^ 32

/-- `(char*)-1`. -/
def FAILED : Nat := WORD - 1

inductive Stop where
  | fault
  | loops
  | kernel
  deriving DecidableEq

/-- What a program needs of its process: `sbrk`, and where its memory is. -/
structure World (E : Type) where
  sbrk : E → BitVec 32 → Except Stop (E × Nat)
  mapped : E → Nat → Bool

/-- The allocator; `units` counts what it got from `sbrk`. -/
structure Heap (E : Type) where
  env : E
  ptr : Nat → Nat
  size : Nat → Nat
  freep : Nat
  units : Nat

/-- `p + n` for a `Header *p`. -/
def plus (p n : Nat) : Nat := (p + 8 * n) % WORD

def rounds : Nat := 2 ^ 31

section
variable {E : Type} (W : World E)

/-- `x` is done, if the header at `a` is in memory. -/
def Heap.at {α : Type} (h : Heap E) (a : Nat) (x : α) : Except Stop α :=
  if W.mapped h.env a then .ok x else .error .fault

def Heap.setPtr (h : Heap E) (a v : Nat) : Except Stop (Heap E) := h.at W a { h with ptr := Function.update h.ptr a v }

def Heap.setSize (h : Heap E) (a v : Nat) : Except Stop (Heap E) := h.at W a { h with size := Function.update h.size a v }

/-- The loop of `free`: the node behind which `bp` belongs. -/
def freeLoop (h : Heap E) (bp : Nat) : Nat → Nat → Except Stop Nat
  | 0, _ => .error .loops
  | n + 1, p => do
    let q ← h.at W p (h.ptr p)
    if p < bp ∧ bp < q then .ok p
    else if q ≤ p ∧ (p < bp ∨ bp < q) then .ok p
    else freeLoop h bp n q

/-- `bp` is joined to the block above it, or linked to it. -/
def joinUpper (h : Heap E) (p bp : Nat) : Except Stop (Heap E) := do
  let n ← h.at W bp (h.size bp)
  let q ← h.at W p (h.ptr p)
  if plus bp n = q then
    let m ← h.at W q (h.size q)
    let h ← h.setSize W bp ((n + m) % WORD)
    let r ← h.at W q (h.ptr q)
    h.setPtr W bp r
  else h.setPtr W bp q

/-- `bp` is joined to the block below it, or linked to it. -/
def joinLower (h : Heap E) (p bp : Nat) : Except Stop (Heap E) := do
  let n ← h.at W p (h.size p)
  if plus p n = bp then
    let m ← h.at W bp (h.size bp)
    let h ← h.setSize W p ((n + m) % WORD)
    let r ← h.at W bp (h.ptr bp)
    h.setPtr W p r
  else h.setPtr W p bp

def free (h : Heap E) (ap : Nat) : Except Stop (Heap E) := do
  let bp := (ap + WORD - 8) % WORD
  let p ← freeLoop W h bp rounds h.freep
  let h ← joinUpper W h p bp
  let h ← joinLower W h p bp
  .ok { h with freep := p }

def morecore (h : Heap E) (nu : Nat) : Except Stop (Nat × Heap E) := do
  let nu := if nu < 4096 then 4096 else nu
  let (env, p) ← W.sbrk h.env (BitVec.ofNat 32 (nu * 8))
  if p = FAILED then .ok (0, { h with env })
  else
    let h ← Heap.setSize W { h with env, units := h.units + nu } p nu
    let h ← free W h (plus p 1)
    .ok (h.freep, h)

/-- A block that is large enough is taken out, or its tail is. -/
def take (h : Heap E) (nunits prevp p : Nat) : Except Stop (Nat × Heap E) := do
  let n ← h.at W p (h.size p)
  if n = nunits then
    let q ← h.at W p (h.ptr p)
    let h ← h.setPtr W prevp q
    .ok (plus p 1, { h with freep := prevp })
  else
    let h ← h.setSize W p (n - nunits)
    let p := plus p (n - nunits)
    let h ← h.setSize W p nunits
    .ok (plus p 1, { h with freep := prevp })

def mallocLoop (nunits : Nat) : Nat → Heap E → Nat → Nat → Except Stop (Nat × Heap E)
  | 0, _, _, _ => .error .loops
  | k + 1, h, prevp, p => do
    let n ← h.at W p (h.size p)
    if nunits ≤ n then take W h nunits prevp p
    else if p = h.freep then
      let (p, h) ← morecore W h nunits
      if p = 0 then .ok (0, h)
      else
        let q ← h.at W p (h.ptr p)
        mallocLoop nunits k h p q
    else
      let q ← h.at W p (h.ptr p)
      mallocLoop nunits k h p q

def nunits (nbytes : Nat) : Nat := (nbytes + 8 - 1) % WORD / 8 + 1

/-- The first call makes `base` the only node. -/
def start (h : Heap E) (base : Nat) : Except Stop (Heap E) :=
  if h.freep = 0 then do
    let h ← h.setPtr W base base
    let h := { h with freep := base }
    h.setSize W base 0
  else .ok h

def malloc (h : Heap E) (base nbytes : Nat) : Except Stop (Nat × Heap E) := do
  let h ← start W h base
  let q ← h.at W h.freep (h.ptr h.freep)
  mallocLoop W (nunits nbytes) rounds h h.freep q

end

end Xv6.Umalloc
