import Xv6.Layout
import Xv6.Lib.Ring

/-!
The buffer cache of `bio.c` on the disk driver of `ide.c`. A block is the 128 words
that one request transfers. A drive answers without errors; a request takes effect when
it is started, in the order of the queue. Drive 1 is present.
-/

namespace Xv6

open Function

/-- Buffers of the cache. -/
abbrev NBUF : Nat := 30

abbrev FSSIZE : Nat := 1000

/-- The `BSIZE/4` words of a block. -/
abbrev Block := Fin 128 → Nat

/-- A `struct buf`. `valid` and `dirty` are the flags `B_VALID` and `B_DIRTY`, `lock`
names the process that holds the sleep lock. -/
structure Buf where
  valid : Bool := false
  dirty : Bool := false
  dev : Nat := 0
  blockno : Nat := 0
  lock : Option Nat := none
  refcnt : Nat := 0
  data : Block := fun _ => 0

structure Write where
  dev : Nat
  blockno : Nat
  data : Block

/-- The drives: what their sectors hold, and the writes they got so far, oldest first. -/
structure Drives where
  sector : Nat → Nat → Block
  writes : List Write := []

/-- Bit 0 of `dev` selects the drive. -/
def Drives.read (d : Drives) (dev blockno : Nat) : Block := d.sector (dev % 2) blockno

def Drives.put (d : Drives) (w : Write) : Drives where
  sector := update d.sector (w.dev % 2)
    (update (d.sector (w.dev % 2)) w.blockno w.data)
  writes := d.writes ++ [w]

structure Bcache where
  buf : Fin NBUF → Buf
  /-- the links `next` and `prev`, with `none` for `&bcache.head` -/
  ring : Lib.Ring (Fin NBUF)
  idequeue : List (Fin NBUF)
  drives : Drives

def Bcache.setBuf (c : Bcache) (i : Fin NBUF) (b : Buf) : Bcache :=
  { c with buf := update c.buf i b }

/-- `binit` on the zeroed cache: every buffer in turn goes behind the head. -/
def binit (d : Drives) : Bcache where
  buf := fun _ => {}
  ring := (List.finRange NBUF).foldl Lib.Ring.insertHead Lib.Ring.empty
  idequeue := []
  drives := d

def idestart (c : Bcache) (i : Fin NBUF) : Except Halt Bcache :=
  let b := c.buf i
  if FSSIZE ≤ b.blockno then throw (.panic "incorrect blockno")
  else if b.dirty then pure { c with drives := c.drives.put ⟨b.dev, b.blockno, b.data⟩ }
  else pure c

def ideintr (c : Bcache) : Except Halt Bcache :=
  match c.idequeue with
  | [] => pure c
  | i :: rest =>
    let b := c.buf i
    let b := if b.dirty then b else { b with data := c.drives.read b.dev b.blockno }
    let c := { c with idequeue := rest }.setBuf i { b with valid := true, dirty := false }
    match rest with
    | [] => pure c
    | j :: _ => idestart c j

/-- The wait of `iderw`, woken by at most `n` interrupts. -/
def ideWait : Nat → Bcache → Fin NBUF → Except Halt Bcache
  | n, c, i =>
    if (c.buf i).valid && !(c.buf i).dirty then pure c
    else
      match n with
      | 0 => throw .sleeps
      | n + 1 => do ideWait n (← ideintr c) i

def iderw (c : Bcache) (p : Nat) (i : Fin NBUF) : Except Halt Bcache :=
  let b := c.buf i
  if b.lock ≠ some p then throw (.panic "iderw: buf not locked")
  else if b.valid && !b.dirty then throw (.panic "iderw: nothing to do")
  else do
    let q := c.idequeue ++ [i]
    let c := { c with idequeue := q }
    let c ← if q.head? = some i then idestart c i else pure c
    ideWait q.length c i

def acquiresleep (c : Bcache) (p : Nat) (i : Fin NBUF) : Except Halt Bcache :=
  match (c.buf i).lock with
  | some _ => throw .sleeps
  | none => pure (c.setBuf i { c.buf i with lock := some p })

def bget (c : Bcache) (p dev blockno : Nat) : Except Halt (Fin NBUF × Bcache) :=
  let cached := fun i => (c.buf i).dev == dev && (c.buf i).blockno == blockno
  match Lib.Ring.find c.ring.next cached NBUF (c.ring.next none) with
  | none => throw .diverges
  | some (some i) => do
      let c := c.setBuf i { c.buf i with refcnt := (c.buf i).refcnt + 1 }
      pure (i, ← acquiresleep c p i)
  | some none =>
    let unused := fun i => (c.buf i).refcnt == 0 && !(c.buf i).dirty
    match Lib.Ring.find c.ring.prev unused NBUF (c.ring.prev none) with
    | none => throw .diverges
    | some none => throw (.panic "bget: no buffers")
    | some (some i) => do
        let c := c.setBuf i
          { c.buf i with dev := dev, blockno := blockno, valid := false, dirty := false, refcnt := 1 }
        pure (i, ← acquiresleep c p i)

def bread (c : Bcache) (p dev blockno : Nat) : Except Halt (Fin NBUF × Bcache) := do
  let (i, c) ← bget c p dev blockno
  if (c.buf i).valid then pure (i, c)
  else pure (i, ← iderw c p i)

def bwrite (c : Bcache) (p : Nat) (i : Fin NBUF) : Except Halt Bcache :=
  if (c.buf i).lock ≠ some p then throw (.panic "bwrite")
  else iderw (c.setBuf i { c.buf i with dirty := true }) p i

def brelse (c : Bcache) (p : Nat) (i : Fin NBUF) : Except Halt Bcache :=
  let b := c.buf i
  if b.lock ≠ some p then throw (.panic "brelse")
  else
    let c := c.setBuf i { b with lock := none, refcnt := b.refcnt - 1 }
    if b.refcnt - 1 = 0 then pure { c with ring := (c.ring.unlink i).insertHead i }
    else pure c

def Bcache.memmove (c : Bcache) (i : Fin NBUF) (data : Block) : Bcache :=
  c.setBuf i { c.buf i with data := data }

end Xv6
