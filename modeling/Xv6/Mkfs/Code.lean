import Xv6.Blocks.Directory
import Xv6.Log.Code
/-!
# mkfs.c

The image is a file of `FSSIZE` sectors. `mkfs` gives out inodes and blocks with
two counters, writes every inode through to its sector, and marks the blocks
below the counter in the free map at the very end. An input file is the name on
the command line and what `read` returns, piece by piece. The messages are left
out.
-/

namespace Xv6

def nbitmap : Nat := FSSIZE / (BSIZE * 8) + 1
def ninodeblocks : Nat := NINODES / IPB + 1
/-- Boot block, super block, log, inodes and free map. -/
def nmeta : Nat := 2 + nlog + ninodeblocks + nbitmap
def nblocks : Nat := FSSIZE - nmeta

/-- `struct superblock sb`; the numbers that only the log uses are in `sbWords`. -/
def mkfsSuper : Super where
  size := FSSIZE
  ninodes := NINODES
  inodestart := 2 + nlog
  bmapstart := 2 + nlog + ninodeblocks

/-- The words of the super block. -/
def sbWords : List (BitVec 32) :=
  [FSSIZE, nblocks, NINODES, nlog, logstart, 2 + nlog, 2 + nlog + ninodeblocks].map (BitVec.ofNat 32)

/-! ## The format -/

/-- A `struct dinode` as it is on the disk. -/
structure RawInode where
  type : BitVec 16
  major : BitVec 16
  minor : BitVec 16
  nlink : BitVec 16
  size : BitVec 32
  addrs : Fin (NDIRECT + 1) → BitVec 32

def T_DIR : BitVec 16 := 1
def T_FILE : BitVec 16 := 2
def T_DEV : BitVec 16 := 3

/-- What the kernel makes of `type`. -/
def FileType.ofShort (t : BitVec 16) : FileType :=
  if t = 0 then .free else if t = T_DIR then .dir else if t = T_DEV then .dev else .file

namespace RawInode

def words (d : RawInode) : List (BitVec 32) :=
  (d.major ++ d.type) :: (d.nlink ++ d.minor) :: d.size :: List.ofFn d.addrs

def ofWords (w : Nat → BitVec 32) : RawInode where
  type := (w 0).extractLsb' 0 16
  major := (w 0).extractLsb' 16 16
  minor := (w 1).extractLsb' 0 16
  nlink := (w 1).extractLsb' 16 16
  size := w 2
  addrs k := w (3 + k)

/-- The inode as the kernel sees it. -/
def dinode (d : RawInode) : Dinode where
  type := .ofShort d.type
  major := d.major.toInt
  minor := d.minor.toInt
  nlink := d.nlink.toInt
  size := d.size.toNat
  addrs k := (d.addrs k).toNat

def setAddr (d : RawInode) (k : Fin (NDIRECT + 1)) (a : BitVec 32) : RawInode :=
  { d with addrs := Function.update d.addrs k a }

end RawInode

/-- Words stored one after another. -/
def Block.setWords (m : Block) (j : Nat) : List (BitVec 32) → Block
  | [] => m
  | v :: vs => Block.setWords (m.setWord j v.toNat) (j + 1) vs

/-- The inode number `i` in its block: `((struct dinode*)buf) + (i % IPB)`. -/
def Block.inode (m : Block) (i : Nat) : RawInode := .ofWords fun k => BitVec.ofNat 32 (m.word (16 * (i % IPB) + k))

/-- What `mkfs` ends with, other than 0. -/
inductive MkfsExit where
  | read                        -- rsect behind the end of the image
  | fbn                         -- assert(fbn < MAXFILE)
  | rootino                     -- assert(rootino == ROOTINO)
  | slash                       -- assert(index(argv[i], '/') == 0)
  | used                        -- assert(used < BSIZE*8)
  deriving DecidableEq

structure DiskImage where
  sect : Nat → Block
  freeinode : Nat
  freeblock : Nat

/-! ## Sectors and inodes -/

namespace DiskImage

variable (m : DiskImage)

/-- `sec * BSIZE` is a `uint`. -/
def seek (sec : BitVec 32) : Nat := (sec * BitVec.ofNat 32 BSIZE).toNat / BSIZE

def rsect (sec : BitVec 32) : Except MkfsExit Block :=
  if seek sec < FSSIZE then .ok (m.sect (seek sec)) else .error .read

def wsect (sec : BitVec 32) (buf : Block) : DiskImage := { m with sect := Function.update m.sect (seek sec) buf }

def winode (inum : Nat) (ip : RawInode) : Except MkfsExit DiskImage := do
  let bn := BitVec.ofNat 32 (mkfsSuper.IBLOCK inum)
  let buf ← m.rsect bn
  .ok (m.wsect bn (buf.setWords (16 * (inum % IPB)) ip.words))

def rinode (inum : Nat) : Except MkfsExit RawInode := do
  let buf ← m.rsect (BitVec.ofNat 32 (mkfsSuper.IBLOCK inum))
  .ok (buf.inode inum)

def ialloc (type : BitVec 16) : Except MkfsExit (Nat × DiskImage) := do
  let m' ← { m with freeinode := m.freeinode + 1 }.winode m.freeinode ⟨type, 0, 0, 1, 0, fun _ => 0⟩
  .ok (m.freeinode, m')

def balloc (used : Nat) : Except MkfsExit DiskImage :=
  if used < BSIZE * 8 then
    .ok (m.wsect (BitVec.ofNat 32 mkfsSuper.bmapstart) ((List.range used).foldl Block.setBit fun _ => 0))
  else .error .used

/-! ## Appending -/

/-- `if(xint(din.addrs[k]) == 0) din.addrs[k] = xint(freeblock++);` -/
def fill (din : RawInode) (k : Fin (NDIRECT + 1)) : RawInode × DiskImage :=
  if din.addrs k = 0 then (din.setAddr k (BitVec.ofNat 32 m.freeblock), { m with freeblock := m.freeblock + 1 })
  else (din, m)

/-- The block `x` with block `fbn` of the inode. -/
def blockOf (din : RawInode) (fbn : Nat) : Except MkfsExit (BitVec 32 × RawInode × DiskImage) :=
  if h : fbn < NDIRECT then
    let (din, m) := m.fill din ⟨fbn, Nat.lt_succ_of_lt h⟩
    .ok (din.addrs ⟨fbn, Nat.lt_succ_of_lt h⟩, din, m)
  else do
    let (din, m) := m.fill din indirect
    let ind ← m.rsect (din.addrs indirect)
    if ind.word (fbn - NDIRECT) = 0 then
      let ind := ind.setWord (fbn - NDIRECT) m.freeblock
      .ok (BitVec.ofNat 32 (ind.word (fbn - NDIRECT)), din,
        { m with freeblock := m.freeblock + 1 }.wsect (din.addrs indirect) ind)
    else .ok (BitVec.ofNat 32 (ind.word (fbn - NDIRECT)), din, m)

/-- The loop of `iappend`: `n` bytes of `p` from the `tot`-th on are left. -/
def appendLoop (p : Nat → BitVec 8) : Nat → DiskImage → RawInode → Nat → Nat → Nat → Except MkfsExit (Nat × RawInode × DiskImage)
  | 0, m, din, off, _, _ => .ok (off, din, m)
  | fuel + 1, m, din, off, tot, n =>
    if 0 < n then
      if off / BSIZE < MAXFILE then do
        let (x, din, m) ← m.blockOf din (off / BSIZE)
        let n1 := min n ((off / BSIZE + 1) * BSIZE - off)
        let buf ← m.rsect x
        let m := m.wsect x (Bytes.write buf (BitVec.ofNat 9 (off - off / BSIZE * BSIZE)) n1 fun k => p (tot + k))
        appendLoop p fuel m din (off + n1) (tot + n1) (n - n1)
      else .error .fbn
    else .ok (off, din, m)

def iappend (inum : Nat) (p : Nat → BitVec 8) (n : Nat) : Except MkfsExit DiskImage := do
  let din ← m.rinode inum
  let (off, din, m) ← appendLoop p n m din din.size.toNat 0 n
  m.winode inum { din with size := BitVec.ofNat 32 off }

end DiskImage

/-! ## main -/

/-- An argument, without its terminator, and what reading the file gives. -/
structure InFile where
  name : List (BitVec 8)
  reads : List (List (BitVec 8))
  terminated : 0 ∉ name

/-- The bytes of a string and the terminator. -/
def cstring (l : List (BitVec 8)) : CString := fun k => l.getD k 0

/-- `if(argv[i][0] == '_') ++argv[i];` -/
def InFile.target (f : InFile) : List (BitVec 8) := if f.name.head? = some 95 then f.name.tail else f.name

def InFile.contents (f : InFile) : List (BitVec 8) := f.reads.flatten

namespace DiskImage

/-- All sectors are zero but that of the super block. -/
def zeroed : DiskImage where
  sect := Function.update (fun _ _ => 0) 1 (Block.setWords (fun _ => 0) 0 sbWords)
  freeinode := 1
  freeblock := nmeta

/-- `while((cc = read(fd, buf, sizeof(buf))) > 0) iappend(inum, buf, cc);` -/
def appendReads (inum : Nat) : List (List (BitVec 8)) → DiskImage → Except MkfsExit DiskImage
  | [], m => .ok m
  | buf :: bufs, m => do
    let m ← m.iappend inum (cstring buf) buf.length
    appendReads inum bufs m

def addFile (m : DiskImage) (f : InFile) : Except MkfsExit DiskImage :=
  if 47 ∈ f.name then .error .slash
  else do
    let (inum, m) ← m.ialloc T_FILE
    let de : RawDirent := ⟨inum, cstring (strncpy (cstring f.target) DIRSIZ)⟩
    let m ← m.iappend ROOTINO.val de.bytes DIRENT
    appendReads inum f.reads m

def addFiles : List InFile → DiskImage → Except MkfsExit DiskImage
  | [], m => .ok m
  | f :: fs, m => do
    let m ← m.addFile f
    addFiles fs m

end DiskImage

/-- `main` for the input files: the image if the exit status is 0. -/
def mkfs (files : List InFile) : Except MkfsExit DiskImage := do
  let (rootino, m) ← DiskImage.zeroed.ialloc T_DIR
  if rootino ≠ ROOTINO.val then .error .rootino
  else do
    let m ← m.iappend rootino (RawDirent.mk rootino Volume.dot).bytes DIRENT
    let m ← m.iappend rootino (RawDirent.mk rootino Volume.dotdot).bytes DIRENT
    let m ← m.addFiles files
    let din ← m.rinode rootino
    let off := (din.size / BitVec.ofNat 32 BSIZE + 1) * BitVec.ofNat 32 BSIZE
    let m ← m.winode rootino { din with size := off }
    m.balloc m.freeblock

/-- The disk that the kernel finds: `readsb` takes the super block from block 1. -/
def DiskImage.volume (m : DiskImage) : Volume :=
  let sb : Super :=
    { size := (m.sect 1).word 0
      ninodes := (m.sect 1).word 2
      inodestart := (m.sect 1).word 5
      bmapstart := (m.sect 1).word 6 }
  { sb
    block := m.sect
    dinode := fun i => ((m.sect (sb.IBLOCK i)).inode i).dinode
    logged := ∅ }

end Xv6
