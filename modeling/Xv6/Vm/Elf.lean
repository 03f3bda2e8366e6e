import Mathlib.Data.List.GetD
import Xv6.Blocks.ByteArray
import Xv6.Vm.Image
/-!
# exec on the bytes of a file (exec.c, elf.h)

`Space.exec` takes what `readi` gives as an input. Here the file is its bytes,
and `exec` reads the headers and segments out of them and changes the process:
its page directory and size, its name and handlers, and `eip` and `esp` in the
trap frame. The trap frame is memory, the end of the process's kernel stack.

The file is read under its inode lock and in a transaction, which end before
the arguments are copied; they are left out.
-/

namespace Xv6.Exec

open Bytes

/-! ## The file -/

/-- `readi` on the bytes of a file; none is -1. -/
def readi (file : List (BitVec 8)) (off n : BitVec 32) : Option (List (BitVec 8)) :=
  if file.length < off.toNat ∨ off + n < off then none
  else
    let n := if file.length < (off + n).toNat then file.length - off.toNat else n.toNat
    some ((file.drop off.toNat).take n)

/-- `readi` of `n` bytes into a variable: fewer bytes are a failure. -/
def readAll (file : List (BitVec 8)) (off n : BitVec 32) : Option (List (BitVec 8)) :=
  (readi file off n).bind fun l => if l.length = n.toNat then some l else none

/-- The `uint` and the `ushort` at offset `o` of a variable. -/
def uintAt (l : List (BitVec 8)) (o : Nat) : BitVec 32 :=
  l.getD (o + 3) 0 ++ l.getD (o + 2) 0 ++ l.getD (o + 1) 0 ++ l.getD o 0

def ushortAt (l : List (BitVec 8)) (o : Nat) : BitVec 16 := l.getD (o + 1) 0 ++ l.getD o 0

def ELF_MAGIC : BitVec 32 := 0x464C457F
def ELF_PROG_LOAD : BitVec 32 := 1

structure Elfhdr where
  magic : BitVec 32
  entry : BitVec 32
  phoff : BitVec 32
  phnum : BitVec 16
  deriving DecidableEq

def sizeofElfhdr : BitVec 32 := 52

def elfhdr (file : List (BitVec 8)) : Option Elfhdr :=
  (readAll file 0 sizeofElfhdr).map fun l => ⟨uintAt l 0, uintAt l 24, uintAt l 28, ushortAt l 44⟩

/-- `struct proghdr`, without the fields that `exec` does not use. -/
structure Phdr where
  type : BitVec 32
  off : BitVec 32
  vaddr : BitVec 32
  filesz : BitVec 32
  memsz : BitVec 32

def sizeofPhdr : BitVec 32 := 32

def phdr (file : List (BitVec 8)) (off : BitVec 32) : Option Phdr :=
  (readAll file off sizeofPhdr).map fun l => ⟨uintAt l 0, uintAt l 4, uintAt l 8, uintAt l 16, uintAt l 20⟩

/-- The program headers that the loop of `exec` reads, `n` of them from `off` on. -/
def phdrs (file : List (BitVec 8)) : Nat → BitVec 32 → List (Option Phdr)
  | 0, _ => []
  | n + 1, off => phdr file off :: phdrs file n (off + sizeofPhdr)

/-- What `loaduvm` reads for page `i` of a segment. -/
def Phdr.page (file : List (BitVec 8)) (ph : Phdr) (i : Nat) : Option (Nat → BitVec 8) :=
  let n := if ph.filesz.toNat - i * PGSIZE < PGSIZE then ph.filesz.toNat - i * PGSIZE else PGSIZE
  (readAll file (ph.off + BitVec.ofNat 32 (i * PGSIZE)) (BitVec.ofNat 32 n)).map fun l j => l.getD j 0

def segment (file : List (BitVec 8)) : Option Phdr → Segment
  | none => ⟨none, fun _ => none⟩
  | some ph => ⟨some ⟨ph.type = ELF_PROG_LOAD, ph.vaddr, ph.filesz, ph.memsz⟩, ph.page file⟩

def segments (file : List (BitVec 8)) (elf : Elfhdr) : List Segment :=
  (phdrs file elf.phnum.toNat elf.phoff).map (segment file)

/-! ## The process -/

/-- What `exec` uses of `struct proc`; `tf` is at the end of the page `kstack`. -/
structure Proc where
  space : Space
  kstack : Page
  name : List (BitVec 8)
  sig : Sigs

/-- Where a register's word is in the page of the kernel stack. -/
def tfOffset (r : Reg) : Nat := KSTACKSIZE - frameSize + r.offset

/-- The trap frame of a process. -/
def Proc.tf (p : Proc) (k : Kmem) : Frame := fun r =>
  let c := k.content p.kstack
  let o := tfOffset r
  c (Fin.ofNat PGSIZE (o + 3)) ++ c (Fin.ofNat PGSIZE (o + 2)) ++ c (Fin.ofNat PGSIZE (o + 1)) ++ c (Fin.ofNat PGSIZE o)

/-- A word of the trap frame is stored. -/
def Proc.setTf (p : Proc) (r : Reg) (v : BitVec 32) (k : Kmem) : Kmem := k.store p.kstack (tfOffset r) 4 (byteOf v)

/-- The loop that looks for the last element of a path. -/
def lastElem : List (BitVec 8) → List (BitVec 8) → List (BitVec 8)
  | [], last => last
  | c :: s, last => if c = 0x2f then lastElem s s else lastElem s last

/-- `*s = 0`. -/
def zeroHead : List (BitVec 8) → List (BitVec 8)
  | [] => []
  | _ :: s => 0 :: s

/-- `safestrcpy(s, t, n)`. The NUL at the end of `t` is copied too, and another one follows. -/
def safestrcpy : List (BitVec 8) → List (BitVec 8) → Nat → List (BitVec 8)
  | s, _, 0 => s
  | s, _, 1 => zeroHead s
  | [], _, _ + 2 => []
  | _ :: s, [], _ + 2 => 0 :: zeroHead s
  | _ :: s, c :: t, n + 2 => c :: safestrcpy s t (n + 1)

/-! ## exec -/

/-- The new address space up to the stack: its size, or none if it fails. -/
def loadImage (L : Layout) (segs : List Segment) (k : Kmem) (d : Pgdir) : Except VmPanic (Option Nat × Pgdir × Kmem) := do
  match ← loadSegs L segs k d 0 with
  | (none, d, k) => .ok (none, d, k)
  | (some sz, d, k) =>
    let (sz, d, k) ← allocuvm L k d (PGROUNDUP sz) (PGROUNDUP sz + 2 * PGSIZE)
    if sz = 0 then .ok (none, d, k)
    else do
      let d ← clearpteu d (sz / PGSIZE - 2)
      .ok (some sz, d, k)

/-- The words that go below the strings. -/
def ustack (sp : BitVec 32) (ptrs : List (BitVec 32)) : List (BitVec 32) :=
  0xffffffff#32 :: BitVec.ofNat 32 ptrs.length :: (sp - BitVec.ofNat 32 ((ptrs.length + 1) * 4)) :: ptrs ++ [0]

/-- The arguments and the words below them: the stack pointer, or none if there was no room. -/
def pushArgv (cur d : Pgdir) (argv : List Arg) (sp : BitVec 32) (k : Kmem) : Except VmPanic (Option (BitVec 32) × Kmem) := do
  match ← pushArgs cur d argv sp [] k with
  | (none, k) => .ok (none, k)
  | (some (sp, ptrs), k) =>
    let n := (3 + ptrs.length + 1) * 4
    let (ok, k) ← copyout cur d (sp - BitVec.ofNat 32 n) (wordBytes (ustack sp ptrs)) n k
    .ok (if ok then some (sp - BitVec.ofNat 32 n) else none, k)

/-- The label `bad`, with a page directory to free. -/
def bad (L : Layout) (p : Proc) (d : Pgdir) (k : Kmem) : Except VmPanic (Int × Proc × Kmem) := do
  let k ← freevm L k d
  .ok (-1, p, k)

/-- From `Save program name` on. -/
def commit (L : Layout) (p : Proc) (path : List (BitVec 8)) (d : Pgdir) (sz : Nat) (entry sp : BitVec 32) (k : Kmem) :
    Except VmPanic (Int × Proc × Kmem) := do
  let k := p.setTf .esp sp (p.setTf .eip entry k)
  let k ← freevm L k p.space.pgdir
  .ok (0, { p with
    space := ⟨d, BitVec.ofNat 32 sz⟩
    name := safestrcpy p.name (lastElem path path) 16
    sig := p.sig.exec }, k)

/-- `exec(path, argv)`, where `path` leads to a file with these bytes, or to none. -/
def exec (L : Layout) (k : Kmem) (p : Proc) (path : List (BitVec 8)) (file : Option (List (BitVec 8))) (argv : List Arg) :
    Except VmPanic (Int × Proc × Kmem) :=
  match file with
  | none => .ok (-1, p, k)
  | some file =>
    match elfhdr file with
    | none => .ok (-1, p, k)
    | some elf =>
      if elf.magic ≠ ELF_MAGIC then .ok (-1, p, k)
      else do
        match ← setupkvm L k with
        | (none, k) => .ok (-1, p, k)
        | (some d, k) =>
          match ← loadImage L (segments file elf) k d with
          | (none, d, k) => bad L p d k
          | (some sz, d, k) =>
            match ← pushArgv p.space.pgdir d argv (BitVec.ofNat 32 sz) k with
            | (none, k) => bad L p d k
            | (some sp, k) => commit L p path d sz elf.entry sp k

/-! ## The file is an inode's bytes -/

/-- `readi` in all cases. -/
theorem readi_eq (file : List (BitVec 8)) (off n : BitVec 32) :
    readi file off n = if off.toNat ≤ file.length ∧ off.toNat + n.toNat < 2 ^ 32 then
      some ((file.drop off.toNat).take n.toNat) else none := by
  unfold readi
  by_cases hok : off.toNat ≤ file.length ∧ off.toNat + n.toNat < 2 ^ 32
  · have hno : ¬ (file.length < off.toNat ∨ off + n < off) := by
      rw [Volume.wraps_iff]
      omega
    rw [if_neg hno, if_pos hok, Volume.toNat_add_of_not_wraps hok.2]
    dsimp only
    split
    · have hlen : (file.drop off.toNat).length ≤ n.toNat := by
        rw [List.length_drop]
        omega
      rw [List.take_of_length_le hlen, List.take_of_length_le (List.length_drop ..).le]
    · rfl
  · rw [if_neg hok, if_pos]
    rw [Volume.wraps_iff]
    omega

/-- What `exec` reads is what `readi` gives for the blocks of the file's inode. -/
theorem readi_bytes {s : Volume} {T : Nat → Dinode} {i : Nat} (hf : Volume.File s T i) (off n : BitVec 32) :
    s.readi (T i) off n = .ok (readi (s.bytes (T i)) off n, T i, s) := by
  rw [Volume.readi_eq off n hf, readi_eq, Volume.length_bytes]

end Xv6.Exec
