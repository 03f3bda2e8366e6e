import Xv6.File.Code
/-!
# Inodes, directories and the file system calls (fs.c, file.c, sysfile.c)

The calls run one after another, each from its entry to its return. An inode is
seen as its fields with, for a directory, its entries in the order of their
offsets and, for a file, its bytes; the blocks that hold them are only counted.
A pointer `ip` is a place in the inode cache. What is cached of an inode's
fields is what the disk has, since every change is followed by `iupdate`. A call
that panics or waits for a lock of its own has no next state.
-/

namespace Xv6

/-! ## Inodes -/

def NINODES : Nat := 200        -- inodes on the disk that mkfs makes
def NINODE : Nat := 50          -- inodes in memory
def DIRSIZ : Nat := 14
def BSIZE : Nat := 512
def NDIRECT : Nat := 12
def MAXFILE : Nat := 140        -- NDIRECT + NINDIRECT
def FSSIZE : Nat := 1000
def CONSOLE : Int := 1

/-- The data blocks of the disk: all but boot block, superblock, log, inodes and bitmap. -/
def SPACE : Nat := FSSIZE - 59

/-- The directory entries of 16 bytes that fit into `MAXFILE` blocks. -/
def MAXDIRENTS : Nat := MAXFILE * BSIZE / 16

/-- An inode number; 0 marks a directory entry as empty. -/
abbrev Inum := Fin NINODES

def noInum : Inum := ⟨0, by decide⟩
def ROOTINO : Inum := ⟨1, by decide⟩

/-- A `struct inode *`: its place in `icache`. -/
abbrev Ip := Fin NINODE

/-- `type`: 0 for an inode that is not allocated, `T_DIR`, `T_FILE` or `T_DEV`. -/
inductive FileType where
  | free
  | dir
  | file
  | dev
  deriving DecidableEq

/-- A path element, cut to `DIRSIZ` bytes. -/
abbrev Name := List Char

def dot : Name := ['.']
def dotdot : Name := ['.', '.']

structure Dirent where
  name : Name
  inum : Inum
  deriving DecidableEq

def Dirent.empty : Dirent := ⟨[], noInum⟩

structure Inode where
  type : FileType
  major : Int
  minor : Int
  nlink : Int
  ents : List Dirent
  data : List (BitVec 8)

/-- An entry of the inode cache; `locked` is its sleep-lock. -/
structure Cached where
  inum : Inum
  ref : Nat
  valid : Bool
  locked : Bool

structure Files where
  cwd : Ip
  ofile : Ofile

structure Fs (P : Type) where
  inode : Inum → Inode
  free : Nat                    -- data blocks that are free
  cache : Ip → Cached
  ft : Ftable Ip
  proc : P → Option Files
  ops : Nat                     -- calls between begin_op and end_op

/-! ## Contents -/

namespace Inode

/-- Entries are only in directories, and bytes only in files. -/
def size (x : Inode) : Nat := 16 * x.ents.length + x.data.length

/-- The blocks that hold the contents, the indirect block among them. -/
def blocks (x : Inode) : Nat :=
  let n := (x.size + (BSIZE - 1)) / BSIZE
  if NDIRECT < n then n + 1 else n

/-- The offset of the first entry for the name, in entries. -/
def offsetOf (x : Inode) (name : Name) : Option Nat := x.ents.findIdx? fun e => e.inum ≠ noInum ∧ e.name = name

/-- `writei` of one entry at an offset of the directory or at its end. -/
def put (x : Inode) (off : Nat) (e : Dirent) : Inode :=
  { x with ents := if off < x.ents.length then x.ents.set off e else x.ents ++ [e] }

/-- The offset of the first empty entry, or the end of the directory. -/
def freeSlot (x : Inode) : Nat := x.ents.findIdx fun e => e.inum = noInum

/-- How much `readi` reads; `got` is what a device's driver returns. -/
def readi (x : Inode) (off n : Nat) (got : Int) : Int :=
  if x.type = .dev then if x.major = CONSOLE then got else -1
  else if x.size < off then -1
  else min n (x.size - off)

def isdirempty (x : Inode) : Bool := (x.ents.drop 2).all fun e => e.inum = noInum

end Inode

inductive FsPanic where
  | noType                      -- "ilock: no type"
  | ilock
  | iunlock
  | iget                        -- "iget: no inodes"
  | ialloc                      -- "ialloc: no inodes"
  | balloc                      -- "balloc: out of blocks"
  | notDir                      -- "dirlookup not DIR"
  | dirlink
  | nlink                       -- "unlink: nlink < 1"
  | dots                        -- "create dots"
  | create                      -- "create: dirlink"
  | fileread
  | filewrite
  | file (e : FilePanic)
  | rawWrite                    -- bytes stored into a directory, whose entries they would be
  | deadlock                    -- waiting for a sleep-lock that the process holds itself
  deriving DecidableEq

namespace Fs

variable {P : Type}

def setInode (s : Fs P) (i : Inum) (x : Inode) : Fs P := { s with inode := Function.update s.inode i x }

def setCache (s : Fs P) (ip : Ip) (c : Cached) : Fs P := { s with cache := Function.update s.cache ip c }

/-- The inode number of a cached inode, and its fields. -/
def inum (s : Fs P) (ip : Ip) : Inum := (s.cache ip).inum
def node (s : Fs P) (ip : Ip) : Inode := s.inode (s.inum ip)

/-- `begin_op` and `end_op`, as far as the count `log.outstanding` goes. -/
def beginOp (s : Fs P) : Fs P := { s with ops := s.ops + 1 }
def endOp (s : Fs P) : Fs P := { s with ops := s.ops - 1 }

/-! ## The inode cache -/

def iget (s : Fs P) (i : Inum) : Except FsPanic (Ip × Fs P) :=
  match (List.finRange NINODE).find? fun ip => 0 < (s.cache ip).ref ∧ s.inum ip = i with
  | some ip => .ok (ip, s.setCache ip { s.cache ip with ref := (s.cache ip).ref + 1 })
  | none =>
    match (List.finRange NINODE).find? fun ip => (s.cache ip).ref = 0 with
    | none => .error .iget
    | some ip => .ok (ip, s.setCache ip { s.cache ip with inum := i, ref := 1, valid := false })

def idup (s : Fs P) (ip : Ip) : Fs P := s.setCache ip { s.cache ip with ref := (s.cache ip).ref + 1 }

def ilock (s : Fs P) (ip : Ip) : Except FsPanic (Fs P) :=
  let c := s.cache ip
  if c.ref < 1 then .error .ilock
  else if c.locked then .error .deadlock
  else if c.valid = false ∧ (s.node ip).type = .free then .error .noType
  else .ok (s.setCache ip { c with valid := true, locked := true })

def iunlock (s : Fs P) (ip : Ip) : Except FsPanic (Fs P) :=
  let c := s.cache ip
  if c.locked = false ∨ c.ref < 1 then .error .iunlock else .ok (s.setCache ip { c with locked := false })

/-- `itrunc`, `type = 0`, `iupdate` and `valid = 0` of `iput`. -/
def ifree (s : Fs P) (ip : Ip) : Fs P :=
  let x := s.node ip
  let s := s.setInode (s.inum ip) { x with type := .free, ents := [], data := [] }
  { s with free := s.free + x.blocks }.setCache ip { s.cache ip with valid := false }

def iput (s : Fs P) (ip : Ip) : Except FsPanic (Fs P) :=
  let c := s.cache ip
  if c.locked then .error .deadlock
  else
    let s := if c.valid ∧ (s.node ip).nlink = 0 ∧ c.ref = 1 then s.ifree ip else s
    .ok (s.setCache ip { s.cache ip with ref := c.ref - 1 })

def iunlockput (s : Fs P) (ip : Ip) : Except FsPanic (Fs P) := do
  let s ← s.iunlock ip
  s.iput ip

/-- The first free inode from 1 on, as an inode of type `t` with no links. -/
def ialloc (s : Fs P) (t : FileType) : Except FsPanic (Ip × Fs P) :=
  match (List.finRange NINODES).find? fun i => i ≠ noInum ∧ (s.inode i).type = .free with
  | none => .error .ialloc
  | some i => (s.setInode i ⟨t, 0, 0, 0, [], []⟩).iget i

/-- `ip->nlink += n` and `iupdate`. -/
def addLink (s : Fs P) (ip : Ip) (n : Int) : Fs P :=
  s.setInode (s.inum ip) { s.node ip with nlink := (s.node ip).nlink + n }

/-- New contents of an inode, with the blocks that `bmap` allocates for them. -/
def store (s : Fs P) (ip : Ip) (x : Inode) : Except FsPanic (Fs P) :=
  let need := x.blocks - (s.node ip).blocks
  if s.free < need then .error .balloc else .ok { s.setInode (s.inum ip) x with free := s.free - need }

/-! ## Directories -/

def dirlookup (s : Fs P) (dp : Ip) (name : Name) : Except FsPanic (Option (Ip × Nat) × Fs P) :=
  if (s.node dp).type ≠ .dir then .error .notDir
  else match (s.node dp).offsetOf name with
    | none => .ok (none, s)
    | some off => do
      let (ip, s) ← s.iget ((s.node dp).ents.getD off .empty).inum
      .ok (some (ip, off), s)

def dirlink (s : Fs P) (dp : Ip) (name : Name) (i : Inum) : Except FsPanic (Bool × Fs P) := do
  match ← s.dirlookup dp name with
  | (some (ip, _), s) =>
    let s ← s.iput ip
    .ok (false, s)
  | (none, s) =>
    let off := (s.node dp).freeSlot
    if MAXDIRENTS ≤ off then .error .dirlink
    else do
      let s ← s.store dp ((s.node dp).put off ⟨name, i⟩)
      .ok (true, s)

/-! ## Paths -/

/-- `skipelem`: the next path element, and the path behind it. -/
def skipelem (path : List Char) : Option (Name × List Char) :=
  match path.dropWhile (· = '/') with
  | [] => none
  | p => some ((p.takeWhile (· ≠ '/')).take DIRSIZ, (p.dropWhile (· ≠ '/')).dropWhile (· = '/'))

/-- The elements that `skipelem` gives one after another; each takes up at least one
character. -/
def elems : Nat → List Char → List Name
  | 0, _ => []
  | n + 1, path =>
    match skipelem path with
    | none => []
    | some (name, rest) => name :: elems n rest

/-- The loop of `namex`, from the directory `ip` on. The result is the inode and, for
`nameiparent`, the last element. -/
def namexLoop (parent : Bool) : List Name → Ip → Fs P → Except FsPanic (Option (Ip × Name) × Fs P)
  | [], ip, s =>
    if parent then do
      let s ← s.iput ip
      .ok (none, s)
    else .ok (some (ip, []), s)
  | name :: rest, ip, s => do
    let s ← s.ilock ip
    if (s.node ip).type ≠ .dir then do
      let s ← s.iunlockput ip
      .ok (none, s)
    else if parent ∧ rest = [] then do
      let s ← s.iunlock ip
      .ok (some (ip, name), s)
    else
      match ← s.dirlookup ip name with
      | (none, s) => do
        let s ← s.iunlockput ip
        .ok (none, s)
      | (some (next, _), s) => do
        let s ← s.iunlockput ip
        namexLoop parent rest next s

def namex (s : Fs P) (cwd : Ip) (parent : Bool) (path : List Char) : Except FsPanic (Option (Ip × Name) × Fs P) :=
  if path.head? = some '/' then do
    let (ip, s) ← s.iget ROOTINO
    namexLoop parent (elems path.length path) ip s
  else namexLoop parent (elems path.length path) cwd (s.idup cwd)

/-! ## System calls -/

/-- The `.` and `..` entries of a new directory `ip` in `dp`. -/
def mkdots (s : Fs P) (ip dp : Ip) : Except FsPanic (Fs P) := do
  let (ok, s) ← (s.addLink dp 1).dirlink ip dot (s.inum ip)
  if !ok then .error .dots
  else do
    let (ok, s) ← s.dirlink ip dotdot (s.inum dp)
    if !ok then .error .dots else .ok s

/-- The part of `create` that makes a new inode, with `dp` locked and no entry for the name. -/
def createNew (s : Fs P) (dp : Ip) (name : Name) (t : FileType) (major minor : Int) :
    Except FsPanic (Option Ip × Fs P) := do
  let (ip, s) ← s.ialloc t
  let s ← s.ilock ip
  let s := s.setInode (s.inum ip) { s.node ip with major, minor, nlink := 1 }
  let s ← if t = .dir then s.mkdots ip dp else .ok s
  let (ok, s) ← s.dirlink dp name (s.inum ip)
  if !ok then .error .create
  else do
    let s ← s.iunlockput dp
    .ok (some ip, s)

/-- `create`: the inode is returned locked. -/
def create (s : Fs P) (cwd : Ip) (path : List Char) (t : FileType) (major minor : Int) :
    Except FsPanic (Option Ip × Fs P) := do
  match ← s.namex cwd true path with
  | (none, s) => .ok (none, s)
  | (some (dp, name), s) => do
    let s ← s.ilock dp
    match ← s.dirlookup dp name with
    | (some (ip, _), s) => do
      let s ← s.iunlockput dp
      let s ← s.ilock ip
      if t = .file ∧ (s.node ip).type = .file then .ok (some ip, s)
      else do
        let s ← s.iunlockput ip
        .ok (none, s)
    | (none, s) => s.createNew dp name t major minor

def fileclose (s : Fs P) (f : FileId) : Except FsPanic (Fs P) := do
  match ← (s.ft.fileclose f).mapError .file with
  | (.inode ip, ft) => do
    let s ← ({ s with ft }.beginOp).iput ip
    .ok s.endOp
  | (_, ft) => .ok { s with ft }

/-- `argfd`: the open file of a descriptor. -/
def argfd (x : Files) (fd : Int) : Option (Fd × FileId) :=
  if h : 0 ≤ fd ∧ fd.toNat < NOFILE then (x.ofile ⟨fd.toNat, h.2⟩).map fun f => (⟨fd.toNat, h.2⟩, f) else none

/-- `sys_mkdir` and `sys_mknod`, which differ in what they create; the path is `none` where
`argstr` fails. -/
def sysMake (s : Fs P) (x : Files) (path : Option (List Char)) (t : FileType) (major minor : Int) :
    Except FsPanic (Int × Fs P) :=
  match path with
  | none => .ok (-1, s.beginOp.endOp)
  | some path => do
    match ← s.beginOp.create x.cwd path t major minor with
    | (none, s) => .ok (-1, s.endOp)
    | (some ip, s) => do
      let s ← s.iunlockput ip
      .ok (0, s.endOp)

def sysMkdir (s : Fs P) (x : Files) (path : Option (List Char)) : Except FsPanic (Int × Fs P) :=
  s.sysMake x path .dir 0 0

def sysMknod (s : Fs P) (x : Files) (path : Option (List Char)) (major minor : Int) : Except FsPanic (Int × Fs P) :=
  s.sysMake x path .dev major minor

def O_RDONLY : Nat := 0x000
def O_WRONLY : Nat := 0x001
def O_RDWR : Nat := 0x002
def O_CREATE : Nat := 0x200

/-- `sys_open` up to the inode, which is locked. -/
def openInode (s : Fs P) (cwd : Ip) (path : List Char) (omode : Nat) : Except FsPanic (Option Ip × Fs P) :=
  if omode &&& O_CREATE ≠ 0 then s.create cwd path .file 0 0
  else do
    match ← s.namex cwd false path with
    | (none, s) => .ok (none, s)
    | (some (ip, _), s) => do
      let s ← s.ilock ip
      if (s.node ip).type = .dir ∧ omode ≠ O_RDONLY then do
        let s ← s.iunlockput ip
        .ok (none, s)
      else .ok (some ip, s)

variable [DecidableEq P]

def setProc (s : Fs P) (p : P) (x : Option Files) : Fs P := { s with proc := Function.update s.proc p x }

def setOfile (s : Fs P) (p : P) (x : Files) (fd : Fd) (f : Option FileId) : Fs P :=
  s.setProc p (some { x with ofile := Function.update x.ofile fd f })

/-- `sys_open` once the inode is locked. -/
def openFile (s : Fs P) (p : P) (x : Files) (ip : Ip) (omode : Nat) : Except FsPanic (Int × Fs P) :=
  match s.ft.filealloc with
  | none => do
    let s ← s.iunlockput ip
    .ok (-1, s.endOp)
  | some (f, ft) =>
    match fdalloc x.ofile with
    | none => do
      let s ← { s with ft }.fileclose f
      let s ← s.iunlockput ip
      .ok (-1, s.endOp)
    | some fd => do
      let s ← ({ s with ft }.setOfile p x fd (some f)).iunlock ip
      let s := s.endOp
      let file : File Ip := { s.ft.file f with
        type := .inode ip, off := 0, readable := omode &&& O_WRONLY = 0,
        writable := omode &&& O_WRONLY ≠ 0 ∨ omode &&& O_RDWR ≠ 0 }
      .ok (fd, { s with ft := s.ft.set f file })

def sysOpen (s : Fs P) (p : P) (x : Files) (path : Option (List Char)) (omode : Nat) :
    Except FsPanic (Int × Fs P) :=
  match path with
  | none => .ok (-1, s)
  | some path => do
    match ← s.beginOp.openInode x.cwd path omode with
    | (none, s) => .ok (-1, s.endOp)
    | (some ip, s) => s.openFile p x ip omode

/-- The label `bad` of `sys_link`. -/
def linkBad (s : Fs P) (ip : Ip) : Except FsPanic (Int × Fs P) := do
  let s ← s.ilock ip
  let s ← (s.addLink ip (-1)).iunlockput ip
  .ok (-1, s.endOp)

/-- `sys_link` with the old inode found and not locked. -/
def linkNew (s : Fs P) (x : Files) (ip : Ip) (new : List Char) : Except FsPanic (Int × Fs P) := do
  match ← s.namex x.cwd true new with
  | (none, s) => s.linkBad ip
  | (some (dp, name), s) => do
    let s ← s.ilock dp
    let (ok, s) ← s.dirlink dp name (s.inum ip)
    let s ← s.iunlockput dp
    if !ok then s.linkBad ip
    else do
      let s ← s.iput ip
      .ok (0, s.endOp)

def sysLink (s : Fs P) (x : Files) (old new : Option (List Char)) : Except FsPanic (Int × Fs P) :=
  match old, new with
  | some old, some new => do
    match ← s.beginOp.namex x.cwd false old with
    | (none, s) => .ok (-1, s.endOp)
    | (some (ip, _), s) => do
      let s ← s.ilock ip
      if (s.node ip).type = .dir then do
        let s ← s.iunlockput ip
        .ok (-1, s.endOp)
      else do
        let s ← (s.addLink ip 1).iunlock ip
        s.linkNew x ip new
  | _, _ => .ok (-1, s)

/-- The label `bad` of `sys_unlink`. -/
def unlinkBad (s : Fs P) (dp : Ip) : Except FsPanic (Int × Fs P) := do
  let s ← s.iunlockput dp
  .ok (-1, s.endOp)

/-- `sys_unlink` once the entry at `off` of `dp` is found to be for `ip`. -/
def unlinkEnt (s : Fs P) (dp ip : Ip) (off : Nat) : Except FsPanic (Int × Fs P) := do
  let s ← s.ilock ip
  if (s.node ip).nlink < 1 then .error .nlink
  else if (s.node ip).type = .dir ∧ (s.node ip).isdirempty = false then do
    let s ← s.iunlockput ip
    s.unlinkBad dp
  else do
    let s ← s.store dp ((s.node dp).put off .empty)
    let s := if (s.node ip).type = .dir then s.addLink dp (-1) else s
    let s ← s.iunlockput dp
    let s ← (s.addLink ip (-1)).iunlockput ip
    .ok (0, s.endOp)

def sysUnlink (s : Fs P) (x : Files) (path : Option (List Char)) : Except FsPanic (Int × Fs P) :=
  match path with
  | none => .ok (-1, s)
  | some path => do
    match ← s.beginOp.namex x.cwd true path with
    | (none, s) => .ok (-1, s.endOp)
    | (some (dp, name), s) => do
      let s ← s.ilock dp
      if name = dot ∨ name = dotdot then s.unlinkBad dp
      else
        match ← s.dirlookup dp name with
        | (none, s) => s.unlinkBad dp
        | (some (ip, off), s) => s.unlinkEnt dp ip off

def sysChdir (s : Fs P) (p : P) (x : Files) (path : Option (List Char)) : Except FsPanic (Int × Fs P) :=
  match path with
  | none => .ok (-1, s.beginOp.endOp)
  | some path => do
    match ← s.beginOp.namex x.cwd false path with
    | (none, s) => .ok (-1, s.endOp)
    | (some (ip, _), s) => do
      let s ← s.ilock ip
      if (s.node ip).type ≠ .dir then do
        let s ← s.iunlockput ip
        .ok (-1, s.endOp)
      else do
        let s ← s.iunlock ip
        let s ← s.iput x.cwd
        .ok (0, s.endOp.setProc p (some { x with cwd := ip }))

def sysDup (s : Fs P) (p : P) (x : Files) (fd : Int) : Except FsPanic (Int × Fs P) :=
  match argfd x fd with
  | none => .ok (-1, s)
  | some (_, f) =>
    match fdalloc x.ofile with
    | none => .ok (-1, s)
    | some fd => do
      let ft ← (s.ft.filedup f).mapError .file
      .ok (fd, { s with ft }.setOfile p x fd (some f))

/-- `sys_pipe`; the page is what `kalloc` returns, and `ptr` whether `argptr` takes the
address of the result. -/
def sysPipe (s : Fs P) (p : P) (x : Files) (ptr : Bool) (page : Option Page) : Except FsPanic (Int × Fs P) :=
  if !ptr then .ok (-1, s)
  else do
    match ← (s.ft.pipealloc (fun _ : Unit => (page, ())) ()).mapError .file with
    | (none, ft, _) => .ok (-1, { s with ft })
    | (some (rf, wf), ft, _) =>
      let s := { s with ft }
      match fdalloc x.ofile with
      | none => do
        let s ← s.fileclose rf
        let s ← s.fileclose wf
        .ok (-1, s)
      | some fd0 =>
        let y := { x with ofile := Function.update x.ofile fd0 (some rf) }
        match fdalloc y.ofile with
        | none => do
          let s ← ((s.setProc p (some y)).setOfile p y fd0 none).fileclose rf
          let s ← s.fileclose wf
          .ok (-1, s)
        | some fd1 => .ok (0, s.setOfile p y fd1 (some wf))

def sysClose (s : Fs P) (p : P) (x : Files) (fd : Int) : Except FsPanic (Int × Fs P) :=
  match argfd x fd with
  | none => .ok (-1, s)
  | some (fd, f) => do
    let s ← (s.setOfile p x fd none).fileclose f
    .ok (0, s)

/-! ## Reading and writing -/

def setOff (s : Fs P) (f : FileId) (r : Int) : Fs P :=
  if 0 < r then { s with ft := s.ft.set f { s.ft.file f with off := (s.ft.file f).off + r.toNat } } else s

/-- `fileread`; `got` is what `piperead` or a device's driver returns. -/
def fileread (s : Fs P) (f : FileId) (n : Nat) (got : Int) : Except FsPanic (Int × Fs P) :=
  if (s.ft.file f).readable = false then .ok (-1, s)
  else match (s.ft.file f).type with
    | .none => .error .fileread
    | .pipe _ => .ok (got, s)
    | .inode ip => do
      let s ← s.ilock ip
      let r := (s.node ip).readi (s.ft.file f).off n got
      let s ← (s.setOff f r).iunlock ip
      .ok (r, s)

/-- `writei`, whose result is -1 where it writes nothing. -/
def writei (s : Fs P) (ip : Ip) (src : List (BitVec 8)) (off : Nat) : Except FsPanic (Int × Fs P) :=
  let x := s.node ip
  match x.type with
  | .dev => .ok (if x.major = CONSOLE then src.length else -1, s)
  | .dir => .error .rawWrite
  | _ =>
    if x.data.length < off ∨ MAXFILE * BSIZE < off + src.length then .ok (-1, s)
    else do
      let s ← s.store ip { x with data := x.data.take off ++ src ++ x.data.drop (off + src.length) }
      .ok (src.length, s)

/-- The loop of `filewrite` over the pieces that one transaction writes. -/
def filewriteLoop (f : FileId) (ip : Ip) : List (List (BitVec 8)) → Fs P → Except FsPanic (Bool × Fs P)
  | [], s => .ok (true, s)
  | piece :: rest, s => do
    let s ← s.beginOp.ilock ip
    let (r, s) ← s.writei ip piece (s.ft.file f).off
    let s ← (s.setOff f r).iunlock ip
    let s := s.endOp
    if r < 0 then .ok (false, s) else filewriteLoop f ip rest s

/-- `((MAXOPBLOCKS - 1 - 1 - 2) / 2) * 512` -/
def MAXPIECE : Nat := ((10 - 1 - 1 - 2) / 2) * 512

/-- `filewrite`; `got` is what `pipewrite` returns. -/
def filewrite (s : Fs P) (f : FileId) (src : List (BitVec 8)) (got : Int) : Except FsPanic (Int × Fs P) :=
  if (s.ft.file f).writable = false then .ok (-1, s)
  else match (s.ft.file f).type with
    | .none => .error .filewrite
    | .pipe _ => .ok (got, s)
    | .inode ip => do
      let (ok, s) ← filewriteLoop f ip (src.toChunks MAXPIECE) s
      .ok (if ok then src.length else -1, s)

def filestat (s : Fs P) (f : FileId) : Except FsPanic (Int × Fs P) :=
  match (s.ft.file f).type with
  | .inode ip => do
    let s ← s.ilock ip
    let s ← s.iunlock ip
    .ok (0, s)
  | _ => .ok (-1, s)

/-! ## Processes -/

/-- `exec` as far as inodes go; `ok` is whether the program could be loaded. -/
def exec (s : Fs P) (x : Files) (path : Option (List Char)) (ok : Bool) : Except FsPanic (Int × Fs P) :=
  match path with
  | none => .ok (-1, s)
  | some path => do
    match ← s.beginOp.namex x.cwd false path with
    | (none, s) => .ok (-1, s.endOp)
    | (some (ip, _), s) => do
      let s ← s.ilock ip
      let s ← s.iunlockput ip
      .ok (if ok then 0 else -1, s.endOp)

/-- `fork`, with the slot that the child gets, if there is one; its pid is not modelled. -/
def fork (s : Fs P) (x : Files) (child : Option P) : Except FsPanic (Int × Fs P) :=
  match child with
  | none => .ok (-1, s)
  | some q =>
    if (s.proc q).isSome then .ok (-1, s)
    else do
      let ft ← (s.ft.dupAll x.ofile).mapError .file
      .ok (1, ({ s with ft }.idup x.cwd).setProc q (some x))

/-- `exit`: close all open files, put the current directory. -/
def exit (s : Fs P) (p : P) (x : Files) : Except FsPanic (Int × Fs P) := do
  let s ← x.ofile.slots.foldlM fileclose (s.setProc p none)
  let s ← s.beginOp.iput x.cwd
  .ok (0, s.endOp)

/-- A path or a buffer is `none` where `argstr` or `argptr` fails. -/
inductive Call (P : Type) where
  | mkdir (path : Option (List Char))
  | mknod (path : Option (List Char)) (major minor : Int)
  | open (path : Option (List Char)) (omode : Nat)
  | link (old new : Option (List Char))
  | unlink (path : Option (List Char))
  | chdir (path : Option (List Char))
  | dup (fd : Int)
  | pipe (ptr : Bool) (page : Option Page)
  | close (fd : Int)
  | read (fd : Int) (n : Option Nat) (got : Int)
  | write (fd : Int) (src : Option (List (BitVec 8))) (got : Int)
  | fstat (fd : Int)
  | exec (path : Option (List Char)) (ok : Bool)
  | fork (child : Option P)
  | exit

/-- A system call of process `p`, and what it returns. -/
def syscall (s : Fs P) (p : P) (x : Files) : Call P → Except FsPanic (Int × Fs P)
  | .mkdir path => s.sysMkdir x path
  | .mknod path major minor => s.sysMknod x path major minor
  | .open path omode => s.sysOpen p x path omode
  | .link old new => s.sysLink x old new
  | .unlink path => s.sysUnlink x path
  | .chdir path => s.sysChdir p x path
  | .dup fd => s.sysDup p x fd
  | .pipe ptr page => s.sysPipe p x ptr page
  | .close fd => s.sysClose p x fd
  | .read fd n got =>
    match argfd x fd, n with
    | some (_, f), some n => s.fileread f n got
    | _, _ => .ok (-1, s)
  | .write fd src got =>
    match argfd x fd, src with
    | some (_, f), some src => s.filewrite f src got
    | _, _ => .ok (-1, s)
  | .fstat fd =>
    match argfd x fd with
    | some (_, f) => s.filestat f
    | none => .ok (-1, s)
  | .exec path ok => s.exec x path ok
  | .fork child => s.fork x child
  | .exit => s.exit p x

/-- The page that `kalloc` returns to the call. -/
def Call.page : Call P → Option Page
  | .pipe _ page => page
  | _ => none

/-- One call of a process, with its result; none if there is no such process or the call
does not return. `kalloc` never returns a page that is in use. -/
def call (s : Fs P) (p : P) (c : Call P) : Option (Int × Fs P) :=
  if ∀ page ∈ c.page, s.ft.pipe page = none then
    (s.proc p).bind fun x =>
      match s.syscall p x c with
      | .ok r => some r
      | .error _ => none
  else none

def step (s : Fs P) (l : P × Call P) : Option (Fs P) := (s.call l.1 l.2).map Prod.snd

/-! ## The first state -/

/-- The entries of the root directory that `mkfs` makes of files, in whole blocks, and one
block more if they fill the last. -/
def rootEnts (files : List (Name × List (BitVec 8))) : List Dirent :=
  let ents := ⟨dot, ROOTINO⟩ :: ⟨dotdot, ROOTINO⟩ ::
    files.mapIdx fun k f => ⟨f.1.take DIRSIZ, if h : k + 2 < NINODES then ⟨k + 2, h⟩ else noInum⟩
  ents ++ List.replicate ((ents.length / 32 + 1) * 32 - ents.length) .empty

def image (files : List (Name × List (BitVec 8))) (i : Inum) : Inode :=
  if i = ROOTINO then ⟨.dir, 0, 0, 1, rootEnts files, []⟩
  else if h : 2 ≤ i.val ∧ i.val - 2 < files.length then ⟨.file, 0, 0, 1, [], (files.get ⟨i.val - 2, h.2⟩).2⟩
  else ⟨.free, 0, 0, 0, [], []⟩

/-- The blocks of the inodes that are allocated. -/
def total (t : Inum → Inode) : Nat :=
  ((List.finRange NINODES).map fun i => if (t i).type = .free then 0 else (t i).blocks).sum

/-- The file system that `mkfs` makes of the named files, and the first process in its
root directory. -/
def mkfs (files : List (Name × List (BitVec 8))) (p : P) : Fs P where
  inode := image files
  free := SPACE - total (image files)
  cache ip := if ip = ⟨0, by decide⟩ then ⟨ROOTINO, 1, false, false⟩ else ⟨noInum, 0, false, false⟩
  ft := { file := fun _ => ⟨0, .none, false, false, 0⟩, pipe := fun _ => none }
  proc q := if q = p then some ⟨⟨0, by decide⟩, fun _ => none⟩ else none
  ops := 0

end Fs

end Xv6
