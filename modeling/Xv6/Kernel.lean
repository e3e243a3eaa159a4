import Xv6.Wmap

/-!
Process system calls and the page-fault handler: `handle_cow_fault`, the `T_PGFLT`
branch of `trap`, `fork`, `exit` and `wait`. Wakeups and sleeping are left out: a call
that would wait for an event halts with `sleeps` and is taken again later.
-/

namespace Xv6

open Function

/-- The tests of `handle_cow_fault` up to the read of the count: the frame and the count,
or none for the return of -1. -/
def cowRead (m : Machine) (x : Proc) (va : Nat) : Option (Frame × Nat) :=
  if x.sz ≤ va then none
  else
    match x.pgdir.walk va with
    | none => none
    | some pte =>
      if !pte.p || !pte.u then none
      else if !pte.cow then none
      else
        let refCount := m.getCount pte.ppn
        if refCount < 1 then none else some (pte.ppn, refCount)

/-- The rest of `handle_cow_fault`, from the frame and the count that were read on:
whether the result is 0. -/
def cowResolve (m : Machine) (d : PgDir) (va : Nat) (pa : Frame) (refCount : Nat) :
    Except Halt (Bool × PgDir × Machine) :=
  match d.walk va with
  | none => throw .undefined
  | some pte =>
    if refCount = 1 then
      pure (true, d.setPte va { pte with w := true, cow := false }, m.lcr3 d.frame)
    else
      match kalloc m.kmem with
      | (none, k) => pure (false, d, { m with kmem := k })
      | (some mem, k) => do
          let m := { m with kmem := k, mem := update m.mem mem (m.mem pa) }
          let m := m.decCount pa
          let flags := { pte.toFlags with w := true, cow := false }
          let d := d.setPte va Pte.zero
          let (ok, d, k) ← mappages m.kmem d (pgrounddown va) 4096 mem flags
          let m := { m with kmem := k }
          if ok then pure (true, d, (m.setCount mem 1).lcr3 d.frame)
          else do
            let m ← kfree m mem
            pure (false, d, m)

def handleCowFault (k : Kernel) (p : Fin NPROC) (va : Nat) : Except Halt (Bool × Kernel) :=
  let x := k.proc p
  match cowRead k.mach x va with
  | none => pure (false, k)
  | some (pa, refCount) => do
      let (ok, d, m) ← cowResolve k.mach x.pgdir va pa refCount
      pure (ok, { k with mach := m }.setProc p { x with pgdir := d })

/-- The loop of `exit` that unmaps every region; results are ignored. -/
def unmapAll (p : Fin NPROC) : List (Fin MAX_WMMAP_INFO) → Kernel → Except Halt Kernel
  | [], k => pure k
  | i :: is, k =>
    let r := (k.proc p).wmap.slot i
    if r.isEmpty then unmapAll p is k
    else do
      let (_, k) ← wunmap k p r.addr
      unmapAll p is k

/-- The loop of `exit` over the present directory entries. -/
def decTables : List Frame → Machine → Machine
  | [], m => m
  | x :: xs, m => decTables xs (m.decCount x)

/-- The loop of `exit` that closes every open file. -/
def closeAll (p : Fin NPROC) : List (Fin NOFILE) → Kernel → Except Halt Kernel
  | [], k => pure k
  | fd :: fds, k =>
    let x := k.proc p
    match x.ofile fd with
    | none => closeAll p fds k
    | some f => do
        let fs ← fileclose k.fs f
        closeAll p fds
          ({ k with fs := fs }.setProc p { x with ofile := update x.ofile fd none })

/-- Children of `p` go to `initproc`. -/
def reparent (k : Kernel) (p : Fin NPROC) : Kernel :=
  { k with proc := fun q =>
      let y := k.proc q
      if y.parent = some p then { y with parent := some k.initproc } else y }

/-- `exit`, up to the switch to the scheduler. -/
def exit (k : Kernel) (p : Fin NPROC) : Except Halt Kernel :=
  if p = k.initproc then throw (.panic "init exiting")
  else do
    let k ← unmapAll p (List.finRange MAX_WMMAP_INFO) k
    let k := { k with mach := decTables (k.proc p).pgdir.tables k.mach }
    let k ← closeAll p (List.finRange NOFILE) k
    let fs ← iput k.fs (k.proc p).cwd
    let k := reparent ({ k with fs := fs }.setProc p { k.proc p with cwd := none }) p
    pure (k.setProc p { k.proc p with state := .zombie })

def Kernel.children (k : Kernel) (p : Fin NPROC) : List (Fin NPROC) :=
  (List.finRange NPROC).filter fun q => (k.proc q).parent = some p

def Kernel.zombieChild (k : Kernel) (p : Fin NPROC) : Option (Fin NPROC) :=
  (k.children p).find? fun q => (k.proc q).state = .zombie

/-- `wait`: the pid of a reaped child, or none for -1. -/
def wait (k : Kernel) (p : Fin NPROC) : Except Halt (Option Nat × Kernel) :=
  match k.zombieChild p with
  | some q =>
    let y := k.proc q
    match y.kstack with
    | none => throw (.panic "kfree")
    | some s => do
        let m ← kfree k.mach s
        let m ← freevm m y.pgdir
        pure (some y.pid, { k with mach := m }.setProc q
          { y with kstack := none, pid := 0, parent := none, name := [], killed := false,
                   state := .unused })
  | none =>
    if (k.children p).isEmpty || (k.proc p).killed then pure (none, k) else throw .sleeps

/-- The loop of `fork` that duplicates the open files. -/
def dupAll (p np : Fin NPROC) : List (Fin NOFILE) → Kernel → Except Halt Kernel
  | [], k => pure k
  | i :: is, k =>
    match (k.proc p).ofile i with
    | none => dupAll p np is k
    | some f => do
        let fs ← filedup k.fs f
        let y := k.proc np
        dupAll p np is
          ({ k with fs := fs }.setProc np { y with ofile := update y.ofile i (some f) })

/-- `kfree(np->kstack)`, with the slot given up. -/
def dropSlot (k : Kernel) (np : Fin NPROC) : Except Halt Kernel :=
  let y := k.proc np
  match y.kstack with
  | none => throw (.panic "kfree")
  | some s => do
      let m ← kfree k.mach s
      pure ({ k with mach := m }.setProc np { y with kstack := none, state := .unused })

/-- `fork`: the pid of the child, or none for -1. -/
def fork (k : Kernel) (p : Fin NPROC) : Except Halt (Option Nat × Kernel) :=
  match allocproc k with
  | (none, k) => pure (none, k)
  | (some np, k) => do
      let x := k.proc p
      let (child, pgdir, m) ← copyuvm k.mach x.pgdir x.sz
      let x := { x with pgdir := pgdir }
      let k := { k with mach := m }.setProc p x
      match child with
      | none => do
          let k ← dropSlot k np
          pure (none, k)
      | some d => do
          let m := (k.mach.lcr3 x.pgdir.frame).lcr3 d.frame
          let y := k.proc np
          let y := { y with pgdir := d, wmap := { y.wmap with isChild := true }, sz := x.sz,
                            parent := some p, tf := { x.tf with eax := 0 } }
          let k ← dupAll p np (List.finRange NOFILE) ({ k with mach := m }.setProc np y)
          let fs ← idup k.fs (k.proc p).cwd
          let y := { k.proc np with cwd := (k.proc p).cwd, name := (k.proc p).name,
                                    state := .runnable }
          let (ok, k) ← copyWmap ({ k with fs := fs }.setProc np y) p np
          if ok then pure (some (k.proc np).pid, k)
          else do
            let k ← dropSlot k np
            pure (none, k)

/-- The first region that covers a fault address. -/
def Wmap.covering (w : Wmap) (va : Nat) : Option (Fin MAX_WMMAP_INFO) :=
  (List.finRange MAX_WMMAP_INFO).find? fun i =>
    !(w.slot i).isEmpty && vasIntersect va 1 (w.slot i).addr (w.slot i).length

def setKilled (k : Kernel) (p : Fin NPROC) : Kernel :=
  k.setProc p { k.proc p with killed := true }

/-- The `T_PGFLT` branch of `trap` at fault address `va`. -/
def pageFault (k : Kernel) (p : Fin NPROC) (va : Nat) : Except Halt Kernel :=
  if va < 0x60000000 ∨ 0x80000000 ≤ va then do
    let (ok, k) ← handleCowFault k p va
    pure (if ok then k else setKilled k p)
  else
    match (k.proc p).wmap.covering va with
    | none => pure k
    | some i => do
        let (ok, k) ← allocateAndMap k p va 4096 i
        pure (if ok then k else setKilled k p)

/-- The end of `trap`: a killed process exits when the trap was taken in user mode. The
Boolean says whether control returns to the interrupted instruction. -/
def leaveTrap (k : Kernel) (p : Fin NPROC) (user : Bool) : Except Halt (Bool × Kernel) :=
  if (k.proc p).killed && user then do
    let k ← exit k p
    pure (false, k)
  else pure (true, k)

def trap (k : Kernel) (p : Fin NPROC) (va : Nat) (user : Bool) : Except Halt (Bool × Kernel) := do
  let k ← pageFault k p va
  leaveTrap k p user

end Xv6
