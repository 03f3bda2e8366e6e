import Xv6.Vm.Code
/-!
# Open files and the ends of pipes (file.c, pipe.c)

The table of `struct file` and, for each page that holds a `struct pipe`, which
of its ends are open. `fileclose` gives back what the caller has to release
with the last reference: the page of a pipe, to `kfree`, or an inode, to
`iput`. Inodes are of any type here, and pages come from any allocator.
-/

namespace Xv6

def NFILE : Nat := 100

abbrev FileId := Fin NFILE
abbrev Fd := Fin NOFILE

/-- `type`, with `pipe` or `ip`. -/
inductive FdType (I : Type) where
  | none
  | pipe (p : Page)
  | inode (ip : I)

structure File (I : Type) where
  ref : Nat
  type : FdType I
  readable : Bool
  writable : Bool
  off : Nat

structure PipeEnds where
  readopen : Bool
  writeopen : Bool
  deriving DecidableEq

structure Ftable (I : Type) where
  file : FileId → File I
  pipe : Page → Option PipeEnds

inductive FilePanic where
  | filedup
  | fileclose
  | freed        -- a pipe used whose page is free
  deriving DecidableEq

/-- What has to be released after a close. -/
inductive Released (I : Type) where
  | nothing
  | page (p : Page)
  | inode (ip : I)

/-- The open files of a process. -/
abbrev Ofile := Fd → Option FileId

/-- The files that the descriptors of a process point to. -/
def Ofile.slots (o : Ofile) : List FileId := (List.finRange NOFILE).filterMap o

def fdalloc (o : Ofile) : Option Fd := (List.finRange NOFILE).find? fun fd => o fd = none

namespace Ftable

variable {I K : Type}

def set (t : Ftable I) (f : FileId) (x : File I) : Ftable I := { t with file := Function.update t.file f x }

def setPipe (t : Ftable I) (p : Page) (e : Option PipeEnds) : Ftable I :=
  { t with pipe := Function.update t.pipe p e }

def filealloc (t : Ftable I) : Option (FileId × Ftable I) :=
  ((List.finRange NFILE).find? fun f => (t.file f).ref = 0).map fun f => (f, t.set f { t.file f with ref := 1 })

def filedup (t : Ftable I) (f : FileId) : Except FilePanic (Ftable I) :=
  if (t.file f).ref < 1 then .error .filedup else .ok (t.set f { t.file f with ref := (t.file f).ref + 1 })

/-- The files of a process are its child's too. -/
def dupAll (t : Ftable I) (o : Ofile) : Except FilePanic (Ftable I) := o.slots.foldlM filedup t

def pipeclose (t : Ftable I) (p : Page) (writable : Bool) : Except FilePanic (Released I × Ftable I) :=
  match t.pipe p with
  | none => .error .freed
  | some e =>
    let e := if writable then { e with writeopen := false } else { e with readopen := false }
    if e.readopen = false ∧ e.writeopen = false then .ok (.page p, t.setPipe p none)
    else .ok (.nothing, t.setPipe p (some e))

def fileclose (t : Ftable I) (f : FileId) : Except FilePanic (Released I × Ftable I) :=
  let ff := t.file f
  if ff.ref < 1 then .error .fileclose
  else if 1 < ff.ref then .ok (.nothing, t.set f { ff with ref := ff.ref - 1 })
  else
    let t := t.set f { ff with ref := 0, type := .none }
    match ff.type with
    | .none => .ok (.nothing, t)
    | .pipe p => t.pipeclose p ff.writable
    | .inode ip => .ok (.inode ip, t)

/-- `pipealloc`: the two files and the page, or none of them. A file just allocated is
not open as anything yet, and closing it releases nothing. -/
def pipealloc (kalloc : K → Option Page × K) (t : Ftable I) (k : K) :
    Except FilePanic (Option (FileId × FileId) × Ftable I × K) :=
  match t.filealloc with
  | none => .ok (none, t, k)
  | some (f0, t) =>
    match t.filealloc with
    | none => do
      let (_, t) ← t.fileclose f0
      .ok (none, t, k)
    | some (f1, t) =>
      match kalloc k with
      | (none, k) => do
        let (_, t) ← t.fileclose f0
        let (_, t) ← t.fileclose f1
        .ok (none, t, k)
      | (some p, k) =>
        let t := t.setPipe p (some ⟨true, true⟩)
        let t := t.set f0 { t.file f0 with type := .pipe p, readable := true, writable := false }
        let t := t.set f1 { t.file f1 with type := .pipe p, readable := false, writable := true }
        .ok (some (f0, f1), t, k)

end Ftable

end Xv6
