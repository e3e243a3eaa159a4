import Xv6.Bcache

/-!
The log of `log.c`. The functions on the log record are the critical sections of
`begin_op`, `log_write` and `end_op`; the storage below a file system is the cache, the
log and the place `commit` or `recover_from_log` has reached. Each iteration of their
loops is one step, so that a crash can fall between any two block writes.
-/

namespace Xv6

/-- Most blocks that an operation writes. -/
abbrev MAXOPBLOCKS : Nat := 10

/-- Most data blocks in the log. -/
abbrev LOGSIZE : Nat := 30

structure LogArea where
  dev : Nat
  start : Nat
  size : Nat
  device : dev ≠ 0
  header : 0 < size
  fits : start + size ≤ FSSIZE

def mkfsLog : LogArea where
  dev := 1
  start := 2
  size := 30
  device := by decide
  header := by decide
  fits := by decide

structure Log where
  area : LogArea
  outstanding : Nat := 0
  committing : Bool := false
  /-- `lh.block[0..lh.n)` -/
  lh : List Nat := []

def LogArea.Holds (g : LogArea) (blockno : Nat) : Prop :=
  g.start ≤ blockno ∧ blockno < g.start + g.size

instance (g : LogArea) (blockno : Nat) : Decidable (g.Holds blockno) := inferInstanceAs (Decidable (_ ∧ _))

/-- Word `i` of a block. -/
def Block.word (b : Block) (i : Nat) : Nat := if h : i < 128 then b ⟨i, h⟩ else 0

def Block.header (b : Block) : List Nat := (List.range (b.word 0)).map fun i => b.word (i + 1)

/-- The assignments of `write_head` to the buffer: `n`, then `block[0..n)`. -/
def Block.setHeader (b : Block) (lh : List Nat) : Block := fun i =>
  match i.val with
  | 0 => lh.length
  | j + 1 => lh.getD j (b i)

/-- One turn of the loop of `begin_op`. -/
def Log.beginOp (g : Log) : Except Halt Log :=
  if g.committing then throw .sleeps
  else if LOGSIZE < g.lh.length + (g.outstanding + 1) * MAXOPBLOCKS then throw .sleeps
  else pure { g with outstanding := g.outstanding + 1 }

/-- The first critical section of `end_op`, with `do_commit`. -/
def Log.endOp (g : Log) : Except Halt (Bool × Log) :=
  let g := { g with outstanding := g.outstanding - 1 }
  if g.committing then throw (.panic "log.committing")
  else if g.outstanding = 0 then pure (true, { g with committing := true })
  else pure (false, g)

/-- The tests of `log_write`, made before it takes the lock. -/
def Log.checkWrite (g : Log) : Except Halt Unit :=
  if LOGSIZE ≤ g.lh.length ∨ g.area.size ≤ g.lh.length + 1 then
    throw (.panic "too big a transaction")
  else if g.outstanding < 1 then throw (.panic "log_write outside of trans")
  else pure ()

/-- The critical section of `log_write`. -/
def Log.absorb (g : Log) (blockno : Nat) : Log :=
  let i := g.lh.idxOf blockno
  { g with lh := if i = g.lh.length then g.lh ++ [blockno] else g.lh.set i blockno }

/-- Where a process stands in `commit` or in `recover_from_log`. -/
inductive Pc where
  | idle
  | writeLog (p tail : Nat)
  | install (p tail : Nat)
  | finish (p : Nat)
  | readHead (p : Nat)
deriving DecidableEq, Repr

structure Storage where
  cache : Bcache
  log : Log
  pc : Pc

/-- The body of the loops of `write_log` and `install_trans`: copy log block `tail`
from or to the home of its block, and write the copy. -/
def copyTail (toLog : Bool) (s : Storage) (p tail : Nat) : Except Halt Storage := do
  let (a, c) ← bread s.cache p s.log.area.dev (s.log.area.start + tail + 1)
  let (b, c) ← bread c p s.log.area.dev (s.log.lh.getD tail 0)
  let dst := if toLog then a else b
  let src := if toLog then b else a
  let c := c.memmove dst (c.buf src).data
  let c ← bwrite c p dst
  let c ← brelse c p src
  let c ← brelse c p dst
  pure { s with cache := c }

def writeLogBody := copyTail true

def installBody := copyTail false

def readHead (s : Storage) (p : Nat) : Except Halt Storage := do
  let (i, c) ← bread s.cache p s.log.area.dev s.log.area.start
  let lh := (c.buf i).data.header
  let c ← brelse c p i
  pure { s with cache := c, log := { s.log with lh := lh } }

def writeHead (s : Storage) (p : Nat) : Except Halt Storage := do
  let (i, c) ← bread s.cache p s.log.area.dev s.log.area.start
  let c := c.memmove i ((c.buf i).data.setHeader s.log.lh)
  let c ← bwrite c p i
  let c ← brelse c p i
  pure { s with cache := c }

def Storage.clear (s : Storage) : Storage := { s with log := { s.log with lh := [] } }

/-- The next statement of `commit`, of the end of `end_op` or of `recover_from_log`. -/
def Storage.advance (s : Storage) : Except Halt Storage :=
  match s.pc with
  | .idle => throw .sleeps
  | .writeLog p tail =>
    if tail < s.log.lh.length then do
      let s ← writeLogBody s p tail
      pure { s with pc := .writeLog p (tail + 1) }
    else do
      let s ← writeHead s p
      pure { s with pc := .install p 0 }
  | .install p tail =>
    if tail < s.log.lh.length then do
      let s ← installBody s p tail
      pure { s with pc := .install p (tail + 1) }
    else do
      let s ← writeHead s.clear p
      pure { s with pc := if s.log.committing then .finish p else .idle }
  | .finish _ => pure { s with log := { s.log with committing := false }, pc := .idle }
  | .readHead p => do
      let s ← readHead s p
      pure { s with pc := .install p 0 }

/-- What processes do with the storage. `logWrite` is a change of a buffer in place
followed by `log_write`. -/
inductive Op where
  | bread (p blockno : Nat)
  | logWrite (p : Nat) (i : Fin NBUF) (data : Block)
  | brelse (p : Nat) (i : Fin NBUF)
  | beginOp (p : Nat)
  | endOp (p : Nat)
  | advance

def logWrite (s : Storage) (i : Fin NBUF) : Except Halt Storage := do
  s.log.checkWrite
  let b := s.cache.buf i
  pure { s with cache := s.cache.setBuf i { b with dirty := true }, log := s.log.absorb b.blockno }

def Op.perform (op : Op) (s : Storage) : Except Halt Storage :=
  match op with
  | .bread p blockno => do
      let (_, c) ← Xv6.bread s.cache p s.log.area.dev blockno
      pure { s with cache := c }
  | .logWrite _ i data => Xv6.logWrite { s with cache := s.cache.memmove i data } i
  | .brelse p i => do pure { s with cache := ← Xv6.brelse s.cache p i }
  | .beginOp _ => do pure { s with log := ← s.log.beginOp }
  | .endOp p => do
      let (commit, g) ← s.log.endOp
      let pc := if commit then (if 0 < g.lh.length then .writeLog p 0 else .finish p) else s.pc
      pure { s with log := g, pc := pc }
  | .advance => s.advance

/-- What the callers promise: the buffer they log is one they hold and lies outside the
log, and an operation ends that has begun. -/
def Op.Allowed (op : Op) (s : Storage) : Prop :=
  match op with
  | .logWrite p i _ =>
    (s.cache.buf i).lock = some p ∧ ¬ s.log.area.Holds (s.cache.buf i).blockno
  | .endOp _ => 0 < s.log.outstanding
  | _ => True

/-- Power fails and the machine comes up again: only the drives keep what they hold, and
`initlog` calls `recover_from_log`. -/
def Storage.crash (s : Storage) (p : Nat) : Storage where
  cache := binit s.cache.drives
  log := { area := s.log.area }
  pc := .readHead p

/-- `n` turns of the loop of `install_trans`. -/
def installTrans : Nat → Nat → Storage → Nat → Except Halt Storage
  | 0, _, s, _ => pure s
  | n + 1, tail, s, p => do installTrans n (tail + 1) (← installBody s p tail) p

def recoverFromLog (s : Storage) (p : Nat) : Except Halt Storage := do
  let s ← readHead s p
  let s ← installTrans s.log.lh.length 0 s p
  let s ← writeHead s.clear p
  pure { s with pc := .idle }

end Xv6
