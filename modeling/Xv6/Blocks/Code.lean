import Xv6.Fs.Code
/-!
# Inodes and their blocks (fs.c)

Blocks are what the buffer cache shows of them. The free map is bytes in its
blocks, indirect blocks are little-endian words, and the inode blocks are seen
as the inodes in them. A `struct inode` in memory is its number and a `Dinode`
of its own, which `iupdate` copies to the disk. `logged` collects the blocks that
were passed to `log_write`. Numbers are `uint`s: offsets and lengths that come
from a caller are words, and everything below `MAXFILE * BSIZE` is a number.
-/

namespace Xv6

open Bytes

/-- 512 bytes. -/
abbrev Block := Mem 9

def NINDIRECT : Nat := 128      -- BSIZE / sizeof(uint)
def IPB : Nat := 8              -- BSIZE / sizeof(struct dinode)
def BPB : Nat := BSIZE * 8

structure Super where
  size : Nat
  ninodes : Nat
  inodestart : Nat
  bmapstart : Nat

structure Dinode where
  type : FileType
  major : Int
  minor : Int
  nlink : Int
  size : Nat
  addrs : Fin (NDIRECT + 1) → Nat

structure Volume where
  sb : Super
  block : Nat → Block
  dinode : Nat → Dinode
  logged : Finset Nat

inductive BlockPanic where
  | balloc                      -- "balloc: out of blocks"
  | bfree                       -- "freeing free block"
  | bmap                        -- "bmap: out of range"
  | ialloc                      -- "ialloc: no inodes"
  | notDir                      -- "dirlookup not DIR"
  | dirlookup                   -- "dirlookup read"
  | dirlinkRead                 -- "dirlink read"
  | dirlink
  | unlink                      -- "unlink: writei"
  deriving DecidableEq

/-- The block of the free map with the bit for block `b`. -/
def Super.BBLOCK (sb : Super) (b : Nat) : Nat := b / BPB + sb.bmapstart

/-- The block with inode `i`. -/
def Super.IBLOCK (sb : Super) (i : Nat) : Nat := i / IPB + sb.inodestart

namespace Block

/-- `data[bi/8] & (1 << (bi % 8))`, and what sets and clears that bit. -/
def bit (m : Block) (bi : Nat) : Bool := m (BitVec.ofNat 9 (bi / 8)) &&& 1#8 <<< (bi % 8) ≠ 0

def setBit (m : Block) (bi : Nat) : Block :=
  Function.update m (BitVec.ofNat 9 (bi / 8)) (m (BitVec.ofNat 9 (bi / 8)) ||| 1#8 <<< (bi % 8))

def clearBit (m : Block) (bi : Nat) : Block :=
  Function.update m (BitVec.ofNat 9 (bi / 8)) (m (BitVec.ofNat 9 (bi / 8)) &&& ~~~(1#8 <<< (bi % 8)))

/-- `((uint*)data)[j]`. -/
def word (m : Block) (j : Nat) : Nat := (load m (BitVec.ofNat 9 (4 * j))).toNat

def setWord (m : Block) (j v : Nat) : Block := store m (BitVec.ofNat 9 (4 * j)) (BitVec.ofNat 32 v)

end Block

def Dinode.setAddr (ip : Dinode) (k : Fin (NDIRECT + 1)) (a : Nat) : Dinode :=
  { ip with addrs := Function.update ip.addrs k a }

/-- The place of the indirect block. -/
def indirect : Fin (NDIRECT + 1) := Fin.last NDIRECT

namespace Volume

variable (s : Volume)

/-- A block is changed in the buffer cache and passed to `log_write`. -/
def logWrite (b : Nat) (data : Block) : Volume :=
  { s with block := Function.update s.block b data, logged := insert b s.logged }

/-! ## Blocks -/

def used (b : Nat) : Bool := (s.block (s.sb.BBLOCK b)).bit (b % BPB)

/-- The two loops look at the blocks one after another. -/
def balloc : Except BlockPanic (Nat × Volume) :=
  match (List.range s.sb.size).find? fun b => !s.used b with
  | none => .error .balloc
  | some b =>
    let s := s.logWrite (s.sb.BBLOCK b) ((s.block (s.sb.BBLOCK b)).setBit (b % BPB))
    .ok (b, s.logWrite b fun _ => 0)

def bfree (b : Nat) : Except BlockPanic Volume :=
  if !s.used b then .error .bfree
  else .ok (s.logWrite (s.sb.BBLOCK b) ((s.block (s.sb.BBLOCK b)).clearBit (b % BPB)))

/-! ## Inodes -/

def ialloc (t : FileType) : Except BlockPanic (Nat × Volume) :=
  match (List.range s.sb.ninodes).find? fun i => i ≠ 0 ∧ (s.dinode i).type = .free with
  | none => .error .ialloc
  | some i =>
    .ok (i, { s with
      dinode := Function.update s.dinode i ⟨t, 0, 0, 0, 0, fun _ => 0⟩, logged := insert (s.sb.IBLOCK i) s.logged })

def iupdate (i : Nat) (ip : Dinode) : Volume :=
  { s with dinode := Function.update s.dinode i ip, logged := insert (s.sb.IBLOCK i) s.logged }

/-- The entry `k` of `addrs`, allocated if it is 0. -/
def bmapAddr (ip : Dinode) (k : Fin (NDIRECT + 1)) : Except BlockPanic (Nat × Dinode × Volume) :=
  if ip.addrs k = 0 then do
    let (addr, s) ← s.balloc
    .ok (addr, ip.setAddr k addr, s)
  else .ok (ip.addrs k, ip, s)

/-- The block with block `bn` of the inode, allocated if there is none. -/
def bmap (ip : Dinode) (bn : Nat) : Except BlockPanic (Nat × Dinode × Volume) :=
  if h : bn < NDIRECT then s.bmapAddr ip ⟨bn, Nat.lt_succ_of_lt h⟩
  else if bn - NDIRECT < NINDIRECT then do
    let (a, ip, s) ← s.bmapAddr ip indirect
    if (s.block a).word (bn - NDIRECT) = 0 then do
      let (addr, s) ← s.balloc
      .ok (addr, ip, s.logWrite a ((s.block a).setWord (bn - NDIRECT) addr))
    else .ok ((s.block a).word (bn - NDIRECT), ip, s)
  else .error .bmap

/-- The loop of `itrunc` over the direct blocks. -/
def truncDirect : List (Fin (NDIRECT + 1)) → Dinode → Volume → Except BlockPanic (Dinode × Volume)
  | [], ip, s => .ok (ip, s)
  | k :: ks, ip, s =>
    if ip.addrs k = 0 then truncDirect ks ip s
    else do
      let s ← s.bfree (ip.addrs k)
      truncDirect ks (ip.setAddr k 0) s

/-- The loop over the entries of the indirect block, whose data is `m`. -/
def truncIndirect (m : Block) : List Nat → Volume → Except BlockPanic Volume
  | [], s => .ok s
  | j :: js, s =>
    if m.word j = 0 then truncIndirect m js s
    else do
      let s ← s.bfree (m.word j)
      truncIndirect m js s

/-- The indirect block and the blocks in it. -/
def truncRest (ip : Dinode) (s : Volume) : Except BlockPanic (Dinode × Volume) :=
  if ip.addrs indirect = 0 then .ok (ip, s)
  else do
    let s ← truncIndirect (s.block (ip.addrs indirect)) (List.range NINDIRECT) s
    let s ← s.bfree (ip.addrs indirect)
    .ok (ip.setAddr indirect 0, s)

def itrunc (i : Nat) (ip : Dinode) : Except BlockPanic (Dinode × Volume) := do
  let (ip, s) ← truncDirect ((List.finRange NDIRECT).map Fin.castSucc) ip s
  let (ip, s) ← truncRest ip s
  let ip := { ip with size := 0 }
  .ok (ip, s.iupdate i ip)

/-! ## Contents -/

/-- The loop of `readi`: `n` is how much is left. It ends since every round reads something. -/
def readLoop : Nat → Volume → Dinode → Nat → Nat → Except BlockPanic (List (BitVec 8) × Dinode × Volume)
  | 0, s, ip, _, _ => .ok ([], ip, s)
  | fuel + 1, s, ip, off, n =>
    if 0 < n then do
      let (addr, ip, s) ← s.bmap ip (off / BSIZE)
      let m := min n (BSIZE - off % BSIZE)
      let bytes := (List.range m).map fun k => s.block addr (BitVec.ofNat 9 (off % BSIZE) + BitVec.ofNat 9 k)
      let (rest, ip, s) ← readLoop fuel s ip (off + m) (n - m)
      .ok (bytes ++ rest, ip, s)
    else .ok ([], ip, s)

/-- `readi` for an inode that is no device; none is -1. -/
def readi (ip : Dinode) (off n : BitVec 32) : Except BlockPanic (Option (List (BitVec 8)) × Dinode × Volume) :=
  if ip.size < off.toNat ∨ off + n < off then .ok (none, ip, s)
  else do
    let n := if ip.size < (off + n).toNat then ip.size - off.toNat else n.toNat
    let (bytes, ip, s) ← readLoop n s ip off.toNat n
    .ok (some bytes, ip, s)

/-- The loop of `writei`, which writes the bytes of `src` from the `tot`-th on. -/
def writeLoop (src : Nat → BitVec 8) : Nat → Volume → Dinode → Nat → Nat → Nat → Except BlockPanic (Nat × Dinode × Volume)
  | 0, s, ip, off, _, _ => .ok (off, ip, s)
  | fuel + 1, s, ip, off, tot, n =>
    if 0 < n then do
      let (addr, ip, s) ← s.bmap ip (off / BSIZE)
      let m := min n (BSIZE - off % BSIZE)
      let data := write (s.block addr) (BitVec.ofNat 9 (off % BSIZE)) m fun k => src (tot + k)
      writeLoop src fuel (s.logWrite addr data) ip (off + m) (tot + m) (n - m)
    else .ok (off, ip, s)

/-- `writei` for inode `i`, which is no device; the result is false for -1. -/
def writei (i : Nat) (ip : Dinode) (src : Nat → BitVec 8) (off n : BitVec 32) :
    Except BlockPanic (Bool × Dinode × Volume) :=
  if ip.size < off.toNat ∨ off + n < off then .ok (false, ip, s)
  else if MAXFILE * BSIZE < (off + n).toNat then .ok (false, ip, s)
  else do
    let (off, ip, s) ← writeLoop src n.toNat s ip off.toNat 0 n.toNat
    if 0 < n.toNat ∧ ip.size < off then
      let ip := { ip with size := off }
      .ok (true, ip, s.iupdate i ip)
    else .ok (true, ip, s)

end Volume

end Xv6
