import Xv6.Bcache
import Xv6.Lib.Chain
import Xv6.Lib.Run

/-!
The request queue of the disk driver. Processes are inside `iderw`, each on the buffer whose
sleep lock it holds, while the drive raises interrupts; a step is one of the sections that
`idelock` makes exclusive, from an `acquire` to the next `release` or `sleep`. The queue is
linked through `qnext`. Histories record the buffers in the order in which they were
appended, started and completed.
-/

namespace Xv6.Ide

open Function

/-- What `idestart` writes to the registers of the controller. -/
structure Command where
  dev : Nat
  sector : Nat
  write : Option Block

/-- Where a process is. `n` says which of the requests ever appended is its own. -/
inductive Pc where
  | out
  /-- `acquire(&idelock)` -/
  | entering (b : Fin NBUF)
  /-- inside `sleep(b, &idelock)` -/
  | sleeping (b : Fin NBUF) (n : Nat)
  /-- woken, and about to test the flags again -/
  | woken (b : Fin NBUF) (n : Nat)
deriving DecidableEq

/-- The buffer a process has in `iderw`. -/
def Pc.buf : Pc → Option (Fin NBUF)
  | out => none
  | entering b | sleeping b _ | woken b _ => some b

def Pc.request : Pc → Option (Fin NBUF × Nat)
  | out | entering _ => none
  | sleeping b n | woken b n => some (b, n)

structure Driver where
  buf : Fin NBUF → Buf
  qnext : Fin NBUF → Option (Fin NBUF)
  idequeue : Option (Fin NBUF)
  havedisk1 : Bool
  /-- commands the drives have not answered yet -/
  drive : List Command
  pc : Nat → Pc
  appended : List (Fin NBUF)
  started : List (Fin NBUF)
  completed : List (Fin NBUF)

def Driver.setBuf (s : Driver) (b : Fin NBUF) (x : Buf) : Driver := { s with buf := update s.buf b x }

def Driver.setPc (s : Driver) (p : Nat) (c : Pc) : Driver := { s with pc := update s.pc p c }

/-- `(b->flags & (B_VALID|B_DIRTY)) == B_VALID` -/
def Driver.synced (s : Driver) (b : Fin NBUF) : Bool := (s.buf b).valid && !(s.buf b).dirty

def idestart (s : Driver) (b : Option (Fin NBUF)) : Except Halt Driver :=
  match b with
  | none => throw (.panic "idestart")
  | some b =>
    let x := s.buf b
    if FSSIZE ≤ x.blockno then throw (.panic "incorrect blockno")
    else
      let cmd : Command := ⟨x.dev % 2, x.blockno, if x.dirty then some x.data else none⟩
      pure { s with drive := s.drive ++ [cmd], started := s.started ++ [b] }

/-- `wakeup(b)` -/
def Pc.wakeup (b : Fin NBUF) : Pc → Pc
  | sleeping c n => if c = b then woken c n else sleeping c n
  | c => c

/-- `ideintr`; `bytes` is what the drive has read, none when it reports an error. -/
def ideintr (s : Driver) (bytes : Option Block) : Except Halt Driver :=
  match s.idequeue with
  | none => pure s
  | some b => do
      let s := { s with idequeue := s.qnext b }
      let x := s.buf b
      let x := if x.dirty then x else { x with data := bytes.getD x.data }
      let s := s.setBuf b { x with valid := true, dirty := false }
      let s := { s with pc := fun p => (s.pc p).wakeup b, completed := s.completed ++ [b] }
      if s.idequeue ≠ none then idestart s s.idequeue else pure s

/-- The tests of `iderw` before it takes the lock. -/
def iderwTests (s : Driver) (p : Nat) (b : Fin NBUF) : Except Halt Unit :=
  if (s.buf b).lock ≠ some p then throw (.panic "iderw: buf not locked")
  else if s.synced b then throw (.panic "iderw: nothing to do")
  else if (s.buf b).dev ≠ 0 ∧ s.havedisk1 = false then throw (.panic "iderw: ide disk 1 not present")
  else pure ()

/-- Append `b` to `idequeue`. A queue without an end would keep the loop going forever. -/
def append (s : Driver) (b : Fin NBUF) : Except Halt Driver :=
  let s := { s with qnext := update s.qnext b none, appended := s.appended ++ [b] }
  match s.idequeue with
  | none => pure { s with idequeue := some b }
  | some h =>
    match Lib.chainEnd s.qnext NBUF h with
    | none => throw .diverges
    | some z => pure { s with qnext := update s.qnext z (some b) }

/-- The test of the loop: `iderw` returns, or sleeps on `b`. -/
def iderwTest (s : Driver) (p : Nat) (b : Fin NBUF) (n : Nat) : Driver :=
  if s.synced b then s.setPc p .out else s.setPc p (.sleeping b n)

/-- `iderw` from its `acquire` on. -/
def iderw (s : Driver) (p : Nat) (b : Fin NBUF) : Except Halt Driver := do
  let n := s.appended.length
  let s ← append s b
  let s ← if s.idequeue = some b then idestart s (some b) else pure s
  pure (iderwTest s p b n)

inductive Act where
  | call (p : Nat) (b : Fin NBUF)
  | enqueue (p : Nat)
  /-- a sleeping process is killed -/
  | kill (p : Nat)
  | retest (p : Nat)
  | interrupt (bytes : Option Block)
  /-- the rest of the kernel locks, unlocks, changes or reuses a buffer -/
  | change (b : Fin NBUF) (x : Buf)

/-- A command is answered by one interrupt. Buffers inside `iderw` are left alone by the rest
of the kernel, for their locks are held. -/
inductive Step : Driver → Act → Driver → Prop where
  | call {s : Driver} {p : Nat} {b : Fin NBUF} (hpc : s.pc p = .out) (h : iderwTests s p b = .ok ()) :
      Step s (.call p b) (s.setPc p (.entering b))
  | enqueue {s t : Driver} {p : Nat} {b : Fin NBUF} (hpc : s.pc p = .entering b) (h : iderw s p b = .ok t) :
      Step s (.enqueue p) t
  | kill {s : Driver} {p : Nat} {b : Fin NBUF} {n : Nat} (hpc : s.pc p = .sleeping b n) :
      Step s (.kill p) (s.setPc p (.woken b n))
  | retest {s : Driver} {p : Nat} {b : Fin NBUF} {n : Nat} (hpc : s.pc p = .woken b n) :
      Step s (.retest p) (iderwTest s p b n)
  | interrupt {s t : Driver} {cmd : Command} {rest : List Command} {bytes : Option Block}
      (hdrive : s.drive = cmd :: rest) (h : ideintr { s with drive := rest } bytes = .ok t) :
      Step s (.interrupt bytes) t
  | change {s : Driver} {b : Fin NBUF} {x : Buf} (hfree : ∀ p, (s.pc p).buf ≠ some b) :
      Step s (.change b x) (s.setBuf b x)

structure Quiet (s : Driver) : Prop where
  queue : s.idequeue = none
  drive : s.drive = []
  pc : ∀ p, s.pc p = .out
  appended : s.appended = []
  started : s.started = []
  completed : s.completed = []

end Xv6.Ide
