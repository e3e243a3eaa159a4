import Xv6.Process

/-!
The process table at the granularity of `ptable.lock`. One step is what a process does
between taking the lock and giving it up, in `allocproc` and at the end of `fork`, in
`exit`, `wait`, `kill`, `sleep`, `wakeup` and the scheduler. A process that was asleep in
`wait` holds the lock when it runs again and scans the table in the same step.
-/

namespace Xv6

open Function

/-- The addresses processes sleep on: a `struct proc`, or anything else. -/
inductive Chan where
  | proc (p : Fin NPROC)
  | other (n : Nat)
deriving DecidableEq

/-- The call a process is inside of. `fork np adopted` is between `allocproc` and the step
that makes the child runnable; `adopted` says whether `np->parent` has been set. -/
inductive TaskCall where
  | none
  | fork (np : Fin NPROC) (adopted : Bool)
  | wait
deriving DecidableEq

/-- The fields of `struct proc` that these steps use. -/
structure Task where
  state : ProcState := .unused
  pid : Nat := 0
  parent : Option (Fin NPROC) := none
  killed : Bool := false
  chan : Option Chan := none
  call : TaskCall := .none

/-- The table. A process is a slot together with the number of processes the slot has held;
`maker` is the process that forked it. -/
structure Ptable where
  task : Fin NPROC → Task
  initproc : Fin NPROC
  nextpid : Nat
  gen : Fin NPROC → Nat
  maker : Fin NPROC → Option (Fin NPROC × Nat)

inductive TreeEvent where
  | silent
  | exited (c : Fin NPROC × Nat)
  | reaped (by_ c : Fin NPROC × Nat)

inductive TreeAct where
  | dispatch (p : Fin NPROC)
  | yield (p : Fin NPROC)
  | sleep (p : Fin NPROC) (n : Nat)
  | wakeup (n : Nat)
  | allocproc (p : Fin NPROC)
  | adopt (p : Fin NPROC)
  | publish (p : Fin NPROC)
  | exit (p : Fin NPROC)
  | wait (p : Fin NPROC)
  | kill (pid : Nat)

def wakeup1 (t : Fin NPROC → Task) (chan : Chan) (q : Fin NPROC) : Task :=
  if (t q).state = .sleeping ∧ (t q).chan = some chan then { t q with state := .runnable } else t q

/-- The loop of `exit` that passes the children of `p` to `init`. -/
def passChildren (p init : Fin NPROC) : List (Fin NPROC) → (Fin NPROC → Task) → Fin NPROC → Task
  | [], t => t
  | q :: qs, t =>
    if (t q).parent = some p then
      let t := update t q { t q with parent := some init }
      passChildren p init qs (if (t q).state = .zombie then wakeup1 t (.proc init) else t)
    else passChildren p init qs t

namespace Ptable

def ident (t : Ptable) (p : Fin NPROC) : Fin NPROC × Nat := (p, t.gen p)

def set (t : Ptable) (p : Fin NPROC) (x : Task) : Ptable :=
  { t with task := update t.task p x }

def exit (t : Ptable) (p : Fin NPROC) : Ptable :=
  let ts := match (t.task p).parent with
    | none => t.task
    | some q => wakeup1 t.task (.proc q)
  let ts := passChildren p t.initproc (List.finRange NPROC) ts
  { t with task := update ts p { ts p with state := .zombie } }

def children (t : Ptable) (p : Fin NPROC) : List (Fin NPROC) :=
  (List.finRange NPROC).filter fun q => (t.task q).parent = some p

/-- One turn of the loop of `wait`, under the lock. -/
def scan (t : Ptable) (p : Fin NPROC) : TreeEvent × Ptable :=
  match (t.children p).find? fun q => (t.task q).state = .zombie with
  | some c =>
    (.reaped (t.ident p) (t.ident c),
      (t.set c { t.task c with pid := 0, parent := none, killed := false, state := .unused }).set p
        { t.task p with call := .none })
  | none =>
    if (t.children p).isEmpty || (t.task p).killed then
      (.silent, t.set p { t.task p with call := .none })
    else
      (.silent, t.set p
        { t.task p with call := .wait, chan := some (.proc p), state := .sleeping })

/-- `allocproc` finds the slot `np`. -/
def take (t : Ptable) (p np : Fin NPROC) : Ptable :=
  { ({ t with nextpid := t.nextpid + 1 }.set np
      { t.task np with state := .embryo, pid := t.nextpid }).set p
      { t.task p with call := .fork np false } with
    gen := update t.gen np (t.gen np + 1) }

def step (t : Ptable) : TreeAct → Option (TreeEvent × Ptable)
  | .dispatch p =>
    if (t.task p).state = .runnable then
      let x := { t.task p with state := .running, chan := none }
      if x.call = .wait then some ((t.set p x).scan p) else some (.silent, t.set p x)
    else none
  | .yield p =>
    if (t.task p).state = .running then some (.silent, t.set p { t.task p with state := .runnable })
    else none
  | .sleep p n =>
    if (t.task p).state = .running then
      some (.silent, t.set p { t.task p with state := .sleeping, chan := some (.other n) })
    else none
  | .wakeup n => some (.silent, { t with task := wakeup1 t.task (.other n) })
  | .allocproc p =>
    if (t.task p).state = .running ∧ (t.task p).call = .none then
      ((List.finRange NPROC).find? fun q => (t.task q).state = .unused).map fun np =>
        (.silent, t.take p np)
    else none
  | .adopt p =>
    match (t.task p).call with
    | .fork np false =>
      if (t.task p).state = .running then
        some (.silent, { (t.set np { t.task np with parent := some p }).set p
          { t.task p with call := .fork np true } with
          maker := update t.maker np (some (t.ident p)) })
      else none
    | _ => none
  | .publish p =>
    match (t.task p).call with
    | .fork np true =>
      if (t.task p).state = .running then
        some (.silent, (t.set np { t.task np with state := .runnable }).set p
          { t.task p with call := .none })
      else none
    | _ => none
  | .exit p =>
    if (t.task p).state = .running ∧ (t.task p).call = .none ∧ p ≠ t.initproc then
      some (.exited (t.ident p), t.exit p)
    else none
  | .wait p =>
    if (t.task p).state = .running ∧ (t.task p).call = .none then some (t.scan p) else none
  | .kill pid =>
    match (List.finRange NPROC).find? fun q => (t.task q).pid = pid with
    | none => some (.silent, t)
    | some q =>
      let x := { t.task q with killed := true }
      some (.silent, t.set q (if x.state = .sleeping then { x with state := .runnable } else x))

def start (init : Fin NPROC) : Ptable where
  task := update (fun _ => {}) init { state := .runnable, pid := 1 }
  initproc := init
  nextpid := 2
  gen := update (fun _ => 0) init 1
  maker := fun _ => none

end Ptable

def TreeStep (t : Ptable) (l : TreeAct × TreeEvent) (t' : Ptable) : Prop :=
  t.step l.1 = some (l.2, t')

end Xv6
