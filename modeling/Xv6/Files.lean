import Xv6.Layout

/-!
Open files and in-memory inodes, as far as mapping, `exec`, `fork` and `exit` use
them. The contents of an inode are its bytes; `bmap`, the buffer cache and the log
below `readi` and `writei` are not part of this layer. What the console and the
pipes answer is a stream that the rest of the system supplies.
-/

namespace Xv6

open Function

/-- The field `type` of a `struct file`. -/
inductive FdType where
  | none
  | pipe
  | inode
deriving DecidableEq, Repr

structure File where
  type : FdType := .none
  ref : Nat := 0
  readable : Bool := false
  writable : Bool := false
  pipe : Option Nat := none
  ip : Option Nat := none
  off : Nat := 0

/-- The page of a pipe, as far as opening and closing use it. `freed` is not a field of the
source: it counts the calls of `kfree` on the page. -/
structure PipePage where
  readopen : Bool := false
  writeopen : Bool := false
  freed : Nat := 0

/-- `type` is 1 for a directory, 2 for a file and 3 for a device. -/
structure Inode where
  ref : Nat := 0
  locked : Bool := false
  type : Nat := 0
  major : Int := 0
  nlink : Nat := 0
  data : List UInt8 := []

structure Files where
  file : Nat → File
  inode : Nat → Inode
  /-- answers of `consoleread`, none for -1 -/
  console : Nat → Option (List UInt8)
  /-- answers of `pipewrite`: none sleeps, false is -1 -/
  pipe : Nat → Option Bool
  reads : Nat := 0
  writes : Nat := 0
  /-- the pages of pipes, one for each that `pipealloc` has set up -/
  page : Nat → PipePage := fun _ => {}
  npages : Nat := 0

def Files.setFile (fs : Files) (f : Nat) (x : File) : Files :=
  { fs with file := update fs.file f x }

def Files.setInode (fs : Files) (i : Nat) (x : Inode) : Files :=
  { fs with inode := update fs.inode i x }

def filedup (fs : Files) (f : Nat) : Except Halt Files :=
  if (fs.file f).ref < 1 then throw (.panic "filedup")
  else pure (fs.setFile f { fs.file f with ref := (fs.file f).ref + 1 })

/-- `ilock`; the null pointer is `none`. -/
def ilock (fs : Files) (ip : Option Nat) : Except Halt Files :=
  match ip with
  | none => throw (.panic "ilock")
  | some i =>
    if (fs.inode i).ref < 1 then throw (.panic "ilock")
    else if (fs.inode i).locked then throw .sleeps
    else pure (fs.setInode i { fs.inode i with locked := true })

def iunlock (fs : Files) (ip : Option Nat) : Except Halt Files :=
  match ip with
  | none => throw (.panic "iunlock")
  | some i =>
    if (fs.inode i).locked = false ∨ (fs.inode i).ref < 1 then throw (.panic "iunlock")
    else pure (fs.setInode i { fs.inode i with locked := false })

/-- `iput`: the last reference to an unlinked inode frees it. -/
def iput (fs : Files) (ip : Option Nat) : Except Halt Files :=
  match ip with
  | none => throw .undefined
  | some i =>
    let x := fs.inode i
    if x.locked then throw .sleeps
    else
      let x := if x.nlink = 0 ∧ x.ref = 1 then { x with data := [], type := 0 } else x
      pure (fs.setInode i { x with ref := x.ref - 1 })

def iunlockput (fs : Files) (ip : Option Nat) : Except Halt Files := do
  let fs ← iunlock fs ip
  iput fs ip

def idup (fs : Files) (ip : Option Nat) : Except Halt Files :=
  match ip with
  | none => throw .undefined
  | some i => pure (fs.setInode i { fs.inode i with ref := (fs.inode i).ref + 1 })

def PipePage.close (x : PipePage) (writable : Bool) : PipePage :=
  if writable then { x with writeopen := false } else { x with readopen := false }

/-- `pipeclose` on page `pg`. -/
def pipeclose (fs : Files) (pg : Nat) (writable : Bool) : Files :=
  let x := (fs.page pg).close writable
  let x := if x.readopen || x.writeopen then x else { x with freed := x.freed + 1 }
  { fs with page := update fs.page pg x }

def fileclose (fs : Files) (f : Nat) : Except Halt Files :=
  let x := fs.file f
  if x.ref < 1 then throw (.panic "fileclose")
  else if 1 < x.ref then pure (fs.setFile f { x with ref := x.ref - 1 })
  else
    let fs := fs.setFile f { x with ref := 0, type := .none }
    match x.type with
    | .inode => iput fs x.ip
    | .pipe =>
      match x.pipe with
      | none => throw .undefined
      | some pg => pure (pipeclose fs pg x.writable)
    | .none => pure fs

/-- `readi`: the bytes copied, or none for -1. The only device that can be read is the
console. -/
def readi (fs : Files) (ip : Option Nat) (off n : Nat) : Option (List UInt8) × Files :=
  match ip with
  | none => (none, fs)
  | some i =>
    let x := fs.inode i
    if x.type = 3 then
      if x.major = 1 then
        ((fs.console fs.reads).map (·.take n), { fs with reads := fs.reads + 1 })
      else (none, fs)
    else if x.data.length < off ∨ (off + n) % 0x100000000 < off then (none, fs)
    else (some ((x.data.drop off).take n), fs)

/-- `writei`: the number of bytes written, or none for -1. A file ends at
`MAXFILE*BSIZE`. -/
def writei (fs : Files) (ip : Option Nat) (src : List UInt8) (off : Nat) : Option Nat × Files :=
  match ip with
  | none => (none, fs)
  | some i =>
    let x := fs.inode i
    let n := src.length
    if x.type = 3 then (if x.major = 1 then some n else none, fs)
    else if x.data.length < off ∨ (off + n) % 0x100000000 < off then (none, fs)
    else if 71680 < off + n then (none, fs)
    else (some n, fs.setInode i { x with data := x.data.take off ++ src ++ x.data.drop (off + n) })

/-- The loop of `filewrite` over chunks of 1536 bytes: whether all bytes were written. -/
def writeChunks : Nat → Files → Nat → List UInt8 → Except Halt (Bool × Files)
  | 0, fs, _, src => pure (src.isEmpty, fs)
  | n + 1, fs, f, src =>
    if src.isEmpty then pure (true, fs)
    else do
      let ip := (fs.file f).ip
      let fs ← ilock fs ip
      let (r, fs) := writei fs ip (src.take 1536) (fs.file f).off
      let fs := fs.setFile f
        { fs.file f with off := ((fs.file f).off + r.getD 0) % 0x100000000 }
      let fs ← iunlock fs ip
      match r with
      | none => pure (false, fs)
      | some _ => writeChunks n fs f (src.drop 1536)

/-- `filewrite`: false for a negative result. -/
def filewrite (fs : Files) (f : Nat) (src : List UInt8) : Except Halt (Bool × Files) :=
  if (fs.file f).writable = false then pure (false, fs)
  else
    match (fs.file f).type with
    | .pipe =>
      match fs.pipe fs.writes with
      | none => throw .sleeps
      | some b => pure (b, { fs with writes := fs.writes + 1 })
    | .inode => writeChunks (src.length / 1536 + 1) fs f src
    | .none => throw (.panic "filewrite")

end Xv6
