import Xv6.Process
import Xv6.Lib.Run

/-!
`sleep`, `wakeup` and `sched`, statement by statement. Any number of processors run the
scheduler and processes. A process waits for a condition, with `sleep(chan, lk)` in a loop
under `lk`, or makes the condition true, with a `wakeup(chan)` before it releases `lk`; the
lock can be `ptable.lock` itself. `acquiresleep` and `releasesleep` are the two routines for
the condition that the sleep lock is free, which the waiting process makes false again.
-/

namespace Xv6.Sleep

open Function

inductive Lock where
  | ptable
  | own
deriving DecidableEq

inductive Routine where
  | waits
  | wakes
deriving DecidableEq

inductive Pc where
  | idle
  /-- `acquire(lk)` -/
  | enter (r : Routine)
  /-- the test of the condition -/
  | test
  /-- `acquire(&ptable.lock)` and `release(lk)` in `sleep` -/
  | sleepAcquire
  | sleepRelease
  /-- `p->chan = chan` and `p->state = SLEEPING` -/
  | setChan
  | setState
  | sched
  /-- `p->chan = 0` -/
  | clearChan
  /-- `release(&ptable.lock)` and `acquire(lk)` at the end of `sleep` -/
  | woken
  | reacquire
  /-- `release(lk)` -/
  | leave
  | setCond
  /-- `acquire(&ptable.lock)` in `wakeup` -/
  | wakeup
  /-- `wakeup1` at slot `i` -/
  | scan (i : Nat)
  /-- `release(&ptable.lock)` in `wakeup` -/
  | wakeupRelease
  /-- the statements of `yield`; a new process begins behind its `sched`, as in `forkret` -/
  | yield (next : Pc)
  | yieldSet (next : Pc)
  | yieldSched (next : Pc)
  | yieldRelease (next : Pc)
deriving DecidableEq

/-- What a statement does, and where it goes on. -/
inductive Op where
  | stop
  | skip (next : Pc)
  | acquire (l : Lock) (next : Pc)
  | release (l : Lock) (next : Pc)
  | test (yes no : Pc)
  | setCond (next : Pc)
  | setChan (chan : Bool) (next : Pc)
  | setState (x : ProcState) (next : Pc)
  | swtch (next : Pc)
  | wake (i : Fin NPROC) (next : Pc)

/-- The statements. With `ptable.lock` for `lk`, `sleep` does not change locks, and the waking
process calls `wakeup1`. -/
def Pc.op (lk : Lock) : Pc → Op
  | idle => .stop
  | enter .waits => .acquire lk test
  | enter .wakes => .acquire lk setCond
  | test => .test leave (if lk = .ptable then setChan else sleepAcquire)
  | sleepAcquire => .acquire .ptable sleepRelease
  | sleepRelease => .release lk setChan
  | setChan => .setChan true setState
  | setState => .setState .sleeping sched
  | sched => .swtch clearChan
  | clearChan => .setChan false (if lk = .ptable then test else woken)
  | woken => .release .ptable reacquire
  | reacquire => .acquire lk test
  | leave => .release lk idle
  | setCond => .setCond (if lk = .ptable then scan 0 else wakeup)
  | wakeup => .acquire .ptable (scan 0)
  | scan i =>
    if h : i < NPROC then .wake ⟨i, h⟩ (scan (i + 1))
    else .skip (if lk = .ptable then leave else wakeupRelease)
  | wakeupRelease => .release .ptable leave
  | yield next => .acquire .ptable (yieldSet next)
  | yieldSet next => .setState .runnable (yieldSched next)
  | yieldSched next => .swtch (yieldRelease next)
  | yieldRelease next => .release .ptable next

/-- What a processor runs: a process, or its scheduler. -/
inductive Ctx where
  | runs (p : Fin NPROC)
  /-- `acquire(&ptable.lock)` -/
  | acquire
  /-- the loop over the table at slot `i` -/
  | look (i : Nat)
  /-- `release(&ptable.lock)` -/
  | release
deriving DecidableEq

structure Sys where
  cond : Bool
  /-- the processor that holds a lock -/
  holder : Lock → Option Nat
  state : Fin NPROC → ProcState
  /-- whether `p->chan` is the channel; it is 0 otherwise -/
  chan : Fin NPROC → Bool
  pc : Fin NPROC → Pc
  cpu : Nat → Ctx

def Sys.goto (s : Sys) (p : Fin NPROC) (next : Pc) : Sys := { s with pc := update s.pc p next }

def Sys.turn (s : Sys) (c : Nat) (x : Ctx) : Sys := { s with cpu := update s.cpu c x }

def Sys.mark (s : Sys) (p : Fin NPROC) (x : ProcState) : Sys :=
  { s with state := update s.state p x }

/-- `acquire` on processor `c`; it spins while another one holds the lock. -/
def Sys.acquire (s : Sys) (c : Nat) (l : Lock) : Except Halt Sys :=
  if s.holder l = some c then throw (.panic "acquire")
  else if s.holder l = none then pure { s with holder := update s.holder l (some c) }
  else throw .sleeps

def Sys.release (s : Sys) (c : Nat) (l : Lock) : Except Halt Sys :=
  if s.holder l = some c then pure { s with holder := update s.holder l none }
  else throw (.panic "release")

def Sys.schedTests (s : Sys) (c : Nat) (p : Fin NPROC) : Except Halt Unit :=
  if s.holder .ptable ≠ some c then throw (.panic "sched ptable.lock")
  else if s.holder .own = some c then throw (.panic "sched locks")
  else if s.state p = .running then throw (.panic "sched running")
  else pure ()

/-- Process `p`, on processor `c`, makes a step. At the test, `take` says that the process makes
the condition false, or that it gives up when it is false, as a killed process does. -/
def Sys.run (lk : Lock) (s : Sys) (c : Nat) (p : Fin NPROC) (take : Bool) : Except Halt Sys :=
  match (s.pc p).op lk with
  | .stop => throw .sleeps
  | .skip next => pure (s.goto p next)
  | .acquire l next => do return (← s.acquire c l).goto p next
  | .release l next => do return (← s.release c l).goto p next
  | .test yes no =>
    if s.cond then pure ({ s with cond := !take }.goto p yes)
    else pure (s.goto p (if take then yes else no))
  | .setCond next => pure ({ s with cond := true }.goto p next)
  | .setChan chan next => pure ({ s with chan := update s.chan p chan }.goto p next)
  | .setState x next => pure ((s.mark p x).goto p next)
  | .swtch next => do
      s.schedTests c p
      return (s.goto p next).turn c (.look (p + 1))
  | .wake i next =>
    if s.state i = .sleeping ∧ s.chan i = true then pure ((s.mark i .runnable).goto p next)
    else pure (s.goto p next)

/-- Processor `c` makes a step. -/
def Sys.exec (lk : Lock) (s : Sys) (c : Nat) (take : Bool) : Except Halt Sys :=
  match s.cpu c with
  | .runs p => s.run lk c p take
  | .acquire => do return (← s.acquire c .ptable).turn c (.look 0)
  | .look i =>
    if h : i < NPROC then
      if s.state ⟨i, h⟩ = .runnable then pure ((s.mark ⟨i, h⟩ .running).turn c (.runs ⟨i, h⟩))
      else pure (s.turn c (.look (i + 1)))
    else pure (s.turn c .release)
  | .release => do return (← s.release c .ptable).turn c .acquire

inductive Act where
  | exec (c : Nat) (take : Bool)
  /-- a process calls one of the routines -/
  | call (c : Nat) (r : Routine)
  /-- the timer interrupts a process that holds no lock -/
  | preempt (c : Nat)
  /-- `kill` wakes a process -/
  | kill (p : Fin NPROC)

def Sys.act (lk : Lock) (s : Sys) : Act → Except Halt Sys
  | .exec c take => s.exec lk c take
  | .call c r =>
    match s.cpu c with
    | .runs p => if s.pc p = .idle then pure (s.goto p (.enter r)) else throw .sleeps
    | _ => throw .sleeps
  | .preempt c =>
    match s.cpu c with
    | .runs p =>
      if s.holder .ptable = some c ∨ s.holder .own = some c then throw .sleeps
      else pure (s.goto p (.yield (s.pc p)))
    | _ => throw .sleeps
  | .kill p =>
    if s.holder .ptable ≠ none then throw .sleeps
    else if s.state p = .sleeping then pure (s.mark p .runnable)
    else pure s

def Step (lk : Lock) (s : Sys) (a : Act) (t : Sys) : Prop := s.act lk a = .ok t

/-- All processes are new, and all processors in their schedulers. -/
structure Start (s : Sys) : Prop where
  holder : ∀ l, s.holder l = none
  state : ∀ p, s.state p = .runnable
  pc : ∀ p, s.pc p = .yieldRelease .idle
  cpu : ∀ c, s.cpu c = .acquire

end Xv6.Sleep
