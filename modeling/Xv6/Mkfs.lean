import Xv6.FsLayout

/-!
`mkfs.c`: the image of a file system with a list of files. An input file is given by its
name and by the pieces in which `read` returns its bytes; that it can be opened and that the
image can be written is taken for granted. A failed assertion ends the program.
-/

namespace Xv6

open Function
namespace Mkfs

def nbitmap : Nat := 1000 / (512 * 8) + 1

def ninodeblocks : Nat := 200 / 8 + 1

def nlog : Nat := 30

/-- The boot block, the superblock, the log, the inodes and the bitmap. -/
def nmeta : Nat := 2 + nlog + ninodeblocks + nbitmap

def sb : Superblock where
  size := 1000
  nblocks := 1000 - nmeta
  ninodes := 200
  nlog := nlog
  logstart := 2
  inodestart := 2 + nlog
  bmapstart := 2 + nlog + ninodeblocks

structure State where
  img : Blocks
  freeinode : Nat
  freeblock : Nat

def rinode (img : Blocks) (inum : Nat) : Dinode := getDinode (img (sb.iblock inum)) (inum % 8)

def winode (img : Blocks) (inum : Nat) (d : Dinode) : Blocks :=
  update img (sb.iblock inum) (putDinode (img (sb.iblock inum)) (inum % 8) d)

def ialloc (s : State) (type : Nat) : Nat × State :=
  (s.freeinode, { s with
    img := winode s.img s.freeinode { type := type, nlink := 1 }
    freeinode := s.freeinode + 1 })

/-- The part of `iappend` that finds block `fbn` of an inode, with the blocks it takes from
`freeblock` on. -/
def blockFor (img : Blocks) (freeblock : Nat) (d : Dinode) (fbn : Nat) :
    Nat × Blocks × Nat × Dinode :=
  if h : fbn < 12 then
    if d.addrs ⟨fbn, direct_lt h⟩ = 0 then
      (freeblock, img, freeblock + 1,
        { d with addrs := update d.addrs ⟨fbn, direct_lt h⟩ freeblock })
    else (d.addrs ⟨fbn, direct_lt h⟩, img, freeblock, d)
  else
    let (freeblock, d) :=
      if d.addrs 12 = 0 then
        (freeblock + 1, { d with addrs := update d.addrs 12 freeblock })
      else (freeblock, d)
    let indirect := img (d.addrs 12)
    if wordAt indirect (fbn - 12) = 0 then
      (freeblock, update img (d.addrs 12) (putWord indirect (fbn - 12) freeblock),
        freeblock + 1, d)
    else (wordAt indirect (fbn - 12), img, freeblock, d)

/-- The loop of `iappend` at offset `off`, which makes at most `n` turns: the image, the first
free block, the inode and the offset behind the last byte. -/
def appendLoop : Nat → Blocks → Nat → Dinode → List UInt8 → Nat →
    Option (Blocks × Nat × Dinode × Nat)
  | 0, img, freeblock, d, _, off => some (img, freeblock, d, off)
  | n + 1, img, freeblock, d, p, off =>
    if p.isEmpty then some (img, freeblock, d, off)
    else
      let fbn := off / 512
      if 140 ≤ fbn then none
      else
        let (x, img, freeblock, d) := blockFor img freeblock d fbn
        let n1 := min p.length ((fbn + 1) * 512 - off)
        let img := update img x (Lib.splice (img x) (off - fbn * 512) (p.take n1))
        appendLoop n img freeblock d (p.drop n1) (off + n1)

/-- `iappend`; every turn of its loop copies at least one byte. -/
def iappend (s : State) (inum : Nat) (p : List UInt8) : Option State := do
  let d := rinode s.img inum
  let (img, freeblock, d, off) ← appendLoop p.length s.img s.freeblock d p d.size
  pure { s with img := winode img inum { d with size := off }, freeblock := freeblock }

/-- The loop of `balloc` over the blocks in use. -/
def markUsed : Nat → (Nat → UInt8) → Nat → UInt8
  | 0, buf => buf
  | n + 1, buf => Lib.setBit (markUsed n buf) n

def balloc (img : Blocks) (used : Nat) : Option Blocks :=
  if used < 512 * 8 then some (update img sb.bmapstart (markUsed used fun _ => 0)) else none

structure Input where
  name : List UInt8
  chunks : List (List UInt8)

def Input.bytes (f : Input) : List UInt8 := f.chunks.flatten

def Input.entry (f : Input) : List UInt8 := if f.name.head? = some 95 then f.name.tail else f.name

def appendChunks (inum : Nat) : List (List UInt8) → State → Option State
  | [], s => some s
  | c :: cs, s => do
      let s ← iappend s inum c
      appendChunks inum cs s

/-- One turn of the loop of `main` over the files; a name with a `/` fails an assertion. -/
def addFile (s : State) (f : Input) : Option State :=
  if 47 ∈ f.name then none
  else do
    let (inum, s) := ialloc s 2
    let s ← iappend s 1 (direntBytes inum f.entry)
    appendChunks inum f.chunks s

def addFiles : List Input → State → Option State
  | [], s => some s
  | f :: fs, s => do
      let s ← addFile s f
      addFiles fs s

/-- The zeroed image with the superblock, and the root directory with its first entries. -/
def rootOnly : Option State := do
  let img : Blocks := update (fun _ _ => 0) 1 (putSuperblock (fun _ => 0) sb)
  let (rootino, s) := ialloc ⟨img, 1, nmeta⟩ 1
  let s ← iappend s rootino (direntBytes rootino [46])
  iappend s rootino (direntBytes rootino [46, 46])

/-- The size of the root directory is rounded up. -/
def fixRoot (img : Blocks) : Blocks :=
  let d := rinode img 1
  winode img 1 { d with size := (d.size / 512 + 1) * 512 }

/-- `main`: the image that is written. -/
def mkfs (files : List Input) : Option Blocks := do
  let s ← rootOnly
  let s ← addFiles files s
  balloc (fixRoot s.img) s.freeblock

end Mkfs
end Xv6
