import Xv6.FsLayout
import Xv6.Layout

/-!
Blocks and inodes in the kernel, `fs.c` from `balloc` to `dirlookup`. The functions work on
what the buffer cache and the log present as the contents of the blocks of one device. An
inode in memory is a copy of the fields of the inode on disk; its caller holds its lock. What
a device answers is given.
-/

namespace Xv6

open Function Lib

structure Fs where
  sb : Superblock
  block : Blocks

namespace Fs

def mount (img : Blocks) : Fs := ⟨getSuperblock (img 1), img⟩

def setBlock (fs : Fs) (b : Nat) (x : Nat → UInt8) : Fs :=
  { fs with block := update fs.block b x }

/-- The inner loop of `balloc`, over the bits in the bitmap block of `b`. -/
def freeBit (fs : Fs) (b : Nat) : Option Nat :=
  (List.range 4096).find? fun bi =>
    b + bi < fs.sb.size && !bitAt (fs.block (fs.sb.bblock b)) bi

/-- The two loops of `balloc`: the first free block. -/
def firstFree (fs : Fs) : Option Nat :=
  (List.range ((fs.sb.size + 4095) / 4096)).findSome? fun k =>
    (fs.freeBit (k * 4096)).map fun bi => k * 4096 + bi

/-- `balloc`: the block is marked and zeroed. -/
def balloc (fs : Fs) : Except Halt (Nat × Fs) :=
  match fs.firstFree with
  | none => throw (.panic "balloc: out of blocks")
  | some b =>
    let bb := fs.sb.bblock b
    let fs := fs.setBlock bb (setBit (fs.block bb) (b % 4096))
    pure (b, fs.setBlock b fun _ => 0)

def bfree (fs : Fs) (b : Nat) : Except Halt Fs :=
  let bb := fs.sb.bblock b
  if bitAt (fs.block bb) (b % 4096) then
    pure (fs.setBlock bb (clearBit (fs.block bb) (b % 4096)))
  else throw (.panic "freeing free block")

def dinode (fs : Fs) (inum : Nat) : Dinode := getDinode (fs.block (fs.sb.iblock inum)) (inum % 8)

def iupdate (fs : Fs) (inum : Nat) (ip : Dinode) : Fs :=
  fs.setBlock (fs.sb.iblock inum) (putDinode (fs.block (fs.sb.iblock inum)) (inum % 8) ip)

def load (fs : Fs) (inum : Nat) : Except Halt Dinode :=
  if (fs.dinode inum).type = 0 then throw (.panic "ilock: no type") else pure (fs.dinode inum)

/-- The part of `bmap` that allocates the indirect block. -/
def indirect (fs : Fs) (ip : Dinode) : Except Halt (Fs × Dinode) :=
  if ip.addrs 12 = 0 then do
    let (addr, fs) ← fs.balloc
    pure (fs, { ip with addrs := update ip.addrs 12 addr })
  else pure (fs, ip)

/-- `bmap`: the number of block `bn`, which is allocated when there is none. -/
def bmap (fs : Fs) (ip : Dinode) (bn : Nat) : Except Halt (Nat × Fs × Dinode) :=
  if h : bn < 12 then
    if ip.addrs ⟨bn, direct_lt h⟩ = 0 then do
      let (addr, fs) ← fs.balloc
      pure (addr, fs, { ip with addrs := update ip.addrs ⟨bn, direct_lt h⟩ addr })
    else pure (ip.addrs ⟨bn, direct_lt h⟩, fs, ip)
  else if bn - 12 < 128 then do
    let (fs, ip) ← fs.indirect ip
    let a := fs.block (ip.addrs 12)
    if wordAt a (bn - 12) = 0 then do
      let (addr, fs) ← fs.balloc
      pure (addr, fs.setBlock (ip.addrs 12) (putWord (fs.block (ip.addrs 12)) (bn - 12) addr), ip)
    else pure (wordAt a (bn - 12), fs, ip)
  else throw (.panic "bmap: out of range")

/-- The first loop of `itrunc`. -/
def truncDirect : List (Fin 13) → Fs → Dinode → Except Halt (Fs × Dinode)
  | [], fs, ip => pure (fs, ip)
  | i :: is, fs, ip =>
    if ip.addrs i = 0 then truncDirect is fs ip
    else do
      let fs ← fs.bfree (ip.addrs i)
      truncDirect is fs { ip with addrs := update ip.addrs i 0 }

/-- The loop of `itrunc` over the entries of the indirect block. -/
def truncEntries (a : Nat → UInt8) : List (Fin 128) → Fs → Except Halt Fs
  | [], fs => pure fs
  | j :: js, fs =>
    if wordAt a j.val = 0 then truncEntries a js fs
    else do
      let fs ← fs.bfree (wordAt a j.val)
      truncEntries a js fs

def direct : List (Fin 13) := (List.finRange 12).map Fin.castSucc

/-- The part of `itrunc` for the indirect block. -/
def truncIndirect (fs : Fs) (ip : Dinode) : Except Halt (Fs × Dinode) :=
  if ip.addrs 12 = 0 then pure (fs, ip)
  else do
    let fs ← truncEntries (fs.block (ip.addrs 12)) (List.finRange 128) fs
    let fs ← fs.bfree (ip.addrs 12)
    pure (fs, { ip with addrs := update ip.addrs 12 0 })

def itrunc (fs : Fs) (inum : Nat) (ip : Dinode) : Except Halt (Fs × Dinode) := do
  let (fs, ip) ← truncDirect direct fs ip
  let (fs, ip) ← fs.truncIndirect ip
  let ip := { ip with size := 0 }
  pure (fs.iupdate inum ip, ip)

/-- The loop of `readi` for `n` bytes from `off` on, in at most as many turns as the first
argument says, with the bytes copied. -/
def readLoop : Nat → Fs → Dinode → Nat → Nat → Except Halt (List UInt8 × Fs × Dinode)
  | 0, fs, ip, _, _ => pure ([], fs, ip)
  | k + 1, fs, ip, off, n =>
    if n = 0 then pure ([], fs, ip)
    else do
      let (addr, fs, ip) ← fs.bmap ip (off / 512)
      let m := min n (512 - off % 512)
      let bytes := (List.range m).map fun i => fs.block addr (off % 512 + i)
      let (rest, fs, ip) ← readLoop k fs ip (off + m) (n - m)
      pure (bytes ++ rest, fs, ip)

/-- `readi`: the bytes, none for -1. Type 3 is a device, which answers `dev`. -/
def readi (fs : Fs) (ip : Dinode) (off n : Nat) (dev : Option (List UInt8)) :
    Except Halt (Option (List UInt8) × Fs × Dinode) :=
  if ip.type = 3 then pure (dev, fs, ip)
  else if ip.size < off ∨ (off + n) % 0x100000000 < off then pure (none, fs, ip)
  else do
    let n := if ip.size < off + n then ip.size - off else n
    let (bytes, fs, ip) ← readLoop n fs ip off n
    pure (some bytes, fs, ip)

/-- The loop of `writei`, in at most as many turns as the first argument says, with the
offset behind the last byte. -/
def writeLoop : Nat → Fs → Dinode → List UInt8 → Nat → Except Halt (Nat × Fs × Dinode)
  | 0, fs, ip, _, off => pure (off, fs, ip)
  | k + 1, fs, ip, src, off =>
    if src.isEmpty then pure (off, fs, ip)
    else do
      let (addr, fs, ip) ← fs.bmap ip (off / 512)
      let m := min src.length (512 - off % 512)
      let fs := fs.setBlock addr (splice (fs.block addr) (off % 512) (src.take m))
      writeLoop k fs ip (src.drop m) (off + m)

/-- `writei`: the number of bytes written, none for -1. -/
def writei (fs : Fs) (inum : Nat) (ip : Dinode) (src : List UInt8) (off : Nat) (dev : Option Nat) :
    Except Halt (Option Nat × Fs × Dinode) :=
  if ip.type = 3 then pure (dev, fs, ip)
  else if ip.size < off ∨ (off + src.length) % 0x100000000 < off then pure (none, fs, ip)
  else if 140 * 512 < off + src.length then pure (none, fs, ip)
  else do
    let (off, fs, ip) ← writeLoop src.length fs ip src off
    if 0 < src.length ∧ ip.size < off then
      let ip := { ip with size := off }
      pure (some src.length, fs.iupdate inum ip, ip)
    else pure (some src.length, fs, ip)

/-- The loop of `dirlookup`, with `n` entries to go from offset `off`. -/
def lookupLoop (name : List UInt8) : Nat → Fs → Dinode → Nat →
    Except Halt (Option (Nat × Nat) × Fs × Dinode)
  | 0, fs, dp, _ => pure (none, fs, dp)
  | n + 1, fs, dp, off => do
      let (r, fs, dp) ← fs.readi dp off 16 none
      match r with
      | none => throw (.panic "dirlookup read")
      | some de =>
        if de.length ≠ 16 then throw (.panic "dirlookup read")
        else if direntInum de = 0 then lookupLoop name n fs dp (off + 16)
        else if strncmpZero 14 name (de.drop 2) then pure (some (off, direntInum de), fs, dp)
        else lookupLoop name n fs dp (off + 16)

/-- `dirlookup`: the offset of the entry and the number of the inode. -/
def dirlookup (fs : Fs) (dp : Dinode) (name : List UInt8) :
    Except Halt (Option (Nat × Nat) × Fs × Dinode) :=
  if dp.type ≠ 1 then throw (.panic "dirlookup not DIR")
  else lookupLoop name ((dp.size + 15) / 16) fs dp 0

end Fs

end Xv6
