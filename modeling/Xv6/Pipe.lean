import Xv6.Layout
import Xv6.Lib.Cyclic

/-!
Pipes. Any number of processes are inside `pipewrite`, `piperead` and `pipeclose` of one
pipe, each at a control point of its own; between two control points other processes run,
as far as the lock of the pipe lets them, and any process can be killed. `sleep` gives up
the lock and waits in one step, as `ptable.lock` makes it do.
-/

namespace Xv6

open Function

abbrev PIPESIZE : Nat := 512

/-- `struct pipe`, less the lock. `nread` and `nwrite` are 32-bit words. -/
structure Pipe where
  data : Nat → UInt8
  nread : Nat
  nwrite : Nat
  readopen : Bool
  writeopen : Bool

def Pipe.buffer (p : Pipe) : Lib.Cyclic UInt8 := ⟨p.data, p.nread, p.nwrite⟩

def Pipe.isEmpty (p : Pipe) : Bool := p.nread = p.nwrite

def Pipe.isFull (p : Pipe) : Bool := p.nwrite = (p.nread + 512) % 0x100000000

/-- `p->data[p->nwrite++ % PIPESIZE] = b` -/
def Pipe.put (p : Pipe) (b : UInt8) : Pipe :=
  { p with data := update p.data (p.nwrite % 512) b,
           nwrite := (p.nwrite + 1) % 0x100000000 }

/-- `p->data[p->nread++ % PIPESIZE]` -/
def Pipe.get (p : Pipe) : UInt8 × Pipe :=
  (p.data (p.nread % 512), { p with nread := (p.nread + 1) % 0x100000000 })

def Pipe.shut (p : Pipe) (writable : Bool) : Pipe :=
  if writable then { p with writeopen := false } else { p with readopen := false }

inductive PipeChan where
  | nread
  | nwrite
deriving DecidableEq

/-- Where a process that holds the lock is. The bytes still to be written, the number still
to be read and the bytes read so far go with it. -/
inductive PipeAt where
  /-- the tests of the loops of `pipewrite` -/
  | write (src : List UInt8)
  /-- the pipe is full: the test of `readopen` and `killed` -/
  | full (src : List UInt8)
  /-- `wakeup(&p->nread)` before the writer sleeps -/
  | signal (src : List UInt8)
  /-- `sleep(&p->nwrite, &p->lock)` -/
  | waitRoom (src : List UInt8)
  /-- `wakeup(&p->nread)` behind the loop -/
  | wrote
  /-- the test of the first loop of `piperead` -/
  | read (n : Nat)
  /-- the pipe is empty: the test of `killed` -/
  | empty (n : Nat)
  /-- `sleep(&p->nread, &p->lock)` -/
  | waitData (n : Nat)
  /-- the loop that copies -/
  | copy (n : Nat) (got : List UInt8)
  /-- `wakeup(&p->nwrite)` -/
  | gave (got : List UInt8)
  /-- `release` and return of the bytes read -/
  | finish (got : List UInt8)
  /-- `pipeclose` -/
  | close (writable : Bool)
  /-- the test whether both ends are closed -/
  | last
  /-- `release` and any other return -/
  | release
deriving DecidableEq

inductive PipePc where
  | idle
  | acquire (c : PipeAt)
  | holds (c : PipeAt)
  | sleeping (chan : PipeChan) (c : PipeAt)
deriving DecidableEq

inductive PipeCall where
  | write (src : List UInt8)
  | read (n : Nat)
  | close (writable : Bool)

/-- The end of the pipe a call is made on: true is the write end. -/
def PipeCall.side : PipeCall → Bool
  | write _ => true
  | read _ => false
  | close w => w

def PipeCall.closes : PipeCall → Bool
  | close _ => true
  | _ => false

def PipeCall.enter : PipeCall → PipeAt
  | write src => .write src
  | read n => .read n
  | close w => .close w

/-- A pipe and the processes that use it. `files w` says whether the open file of end `w`
has references, `busy p` on which end process `p` has a call under way. -/
structure PipeSys where
  pipe : Pipe
  lock : Option (Fin NPROC)
  pc : Fin NPROC → PipePc
  killed : Fin NPROC → Bool
  files : Bool → Bool
  busy : Fin NPROC → Option Bool
  freed : Bool

/-- What `pipealloc` sets up. -/
def Pipe.fresh (data : Nat → UInt8) : Pipe := ⟨data, 0, 0, true, true⟩

def PipeSys.fresh (data : Nat → UInt8) (killed : Fin NPROC → Bool) : PipeSys :=
  ⟨.fresh data, none, fun _ => .idle, killed, fun _ => true, fun _ => none, false⟩

inductive PipeAct where
  | call (p : Fin NPROC) (c : PipeCall)
  /-- the next step of a call -/
  | run (p : Fin NPROC)
  | kill (p : Fin NPROC)

/-- What a step stores in the pipe or returns to a reader. -/
inductive PipeEvent where
  | silent
  | stored (b : UInt8)
  | returned (got : List UInt8)

def PipePc.woken (chan : PipeChan) : PipePc → PipePc
  | .sleeping ch c => if ch = chan then .acquire c else .sleeping ch c
  | pc => pc

/-- `kill` makes a sleeping process runnable. -/
def PipePc.roused : PipePc → PipePc
  | .sleeping _ c => .acquire c
  | pc => pc

namespace PipeSys

def setPc (s : PipeSys) (p : Fin NPROC) (pc : PipePc) : PipeSys :=
  { s with pc := update s.pc p pc }

def goto (s : PipeSys) (p : Fin NPROC) (c : PipeAt) : PipeSys := s.setPc p (.holds c)

def wakeup (s : PipeSys) (chan : PipeChan) : PipeSys :=
  { s with pc := fun q => (s.pc q).woken chan }

/-- `sleep(chan, &p->lock)`; the call goes on at `c`. -/
def sleep (s : PipeSys) (p : Fin NPROC) (chan : PipeChan) (c : PipeAt) : PipeSys :=
  { s with lock := none }.setPc p (.sleeping chan c)

def leave (s : PipeSys) (p : Fin NPROC) : PipeSys :=
  { s with lock := none, busy := update s.busy p none }.setPc p .idle

/-- A step of process `p`, which holds the lock. -/
def exec (s : PipeSys) (p : Fin NPROC) : PipeAt → PipeEvent × PipeSys
  | .write [] => (.silent, s.goto p .wrote)
  | .write (b :: src) =>
    if s.pipe.isFull then (.silent, s.goto p (.full (b :: src)))
    else (.stored b, { s with pipe := s.pipe.put b }.goto p (.write src))
  | .full src =>
    if !s.pipe.readopen || s.killed p then (.silent, s.goto p .release)
    else (.silent, s.goto p (.signal src))
  | .signal src => (.silent, (s.wakeup .nread).goto p (.waitRoom src))
  | .waitRoom src => (.silent, s.sleep p .nwrite (.write src))
  | .wrote => (.silent, (s.wakeup .nread).goto p .release)
  | .read n =>
    if s.pipe.isEmpty && s.pipe.writeopen then (.silent, s.goto p (.empty n))
    else (.silent, s.goto p (.copy n []))
  | .empty n =>
    if s.killed p then (.silent, s.goto p .release) else (.silent, s.goto p (.waitData n))
  | .waitData n => (.silent, s.sleep p .nread (.read n))
  | .copy n got =>
    if n = 0 || s.pipe.isEmpty then (.silent, s.goto p (.gave got))
    else (.silent, { s with pipe := s.pipe.get.2 }.goto p (.copy (n - 1) (got ++ [s.pipe.get.1])))
  | .gave got => (.silent, (s.wakeup .nwrite).goto p (.finish got))
  | .finish got => (.returned got, s.leave p)
  | .close w =>
    (.silent, ({ s with pipe := s.pipe.shut w }.wakeup (if w then .nread else .nwrite)).goto p .last)
  | .last =>
    if !s.pipe.readopen && !s.pipe.writeopen then
      (.silent, { s with freed := true }.goto p .release)
    else (.silent, s.goto p .release)
  | .release => (.silent, s.leave p)

/-- A step, when it can be taken. A call is made on a file with references, and
`fileclose` closes an end only when it gives up the last one, that is when no process has a
call under way on that end. -/
def step (s : PipeSys) : PipeAct → Option (PipeEvent × PipeSys)
  | .call p c =>
    if s.pc p = .idle ∧ s.files c.side = true ∧
        (c.closes = true → ∀ q, s.busy q ≠ some c.side) then
      some (.silent, { s with
        busy := update s.busy p (some c.side)
        files := if c.closes then update s.files c.side false else s.files
      }.setPc p (.acquire c.enter))
    else none
  | .run p =>
    match s.pc p with
    | .idle => none
    | .sleeping _ _ => none
    | .acquire c => if s.lock = none then some (.silent, { s with lock := some p }.goto p c) else none
    | .holds c => some (s.exec p c)
  | .kill p =>
    some (.silent, { s with killed := update s.killed p true }.setPc p (s.pc p).roused)

end PipeSys

def PipeStep (s : PipeSys) (l : PipeAct × PipeEvent) (s' : PipeSys) : Prop :=
  s.step l.1 = some (l.2, s')

end Xv6
