import Xv6.Exec

/-!
The running system: the state `main` hands to the scheduler and the steps processes
take from there. Each system call is one step, as is a page fault; a copy-on-write
fault can also be taken in two steps, around the read of the count. Every process that
runs has a CPU, and with it a register CR3, of its own.
-/

namespace Xv6

def Proc.zero : Proc where
  sz := 0
  pgdir := PgDir.empty 0
  kstack := none
  state := .unused
  pid := 0
  parent := none
  tf := {}
  killed := false
  ofile := fun _ => none
  cwd := none
  name := []
  wmap := ⟨0, fun _ => ⟨0, 0, 0, false, 0⟩, false⟩
  cowFault := none

/-- `inituvm`; neither allocation is tested in the source. -/
def inituvm (m : Machine) (d : PgDir) (init : List UInt8) : Except Halt (PgDir × Machine) :=
  if 4096 ≤ init.length then throw (.panic "inituvm: more than a page")
  else
    match kalloc m.kmem with
    | (none, _) => throw .undefined
    | (some mem, k) => do
        let m := { m with kmem := k }.memset mem 0
        let (_, d, k) ← mappages m.kmem d 0 4096 mem { w := true, u := true }
        pure (d, ({ m with kmem := k }.write mem 0 init).setCount mem 1)

/-- `kvmalloc` and `userinit` on a free list, with the inode of the root directory. -/
def boot (image : Image) (freelist : List Frame) (fs : Files) (root : Nat)
    (initcode : List UInt8) : Except Halt Kernel := do
  let m : Machine := ⟨image, ⟨freelist, false⟩, fun _ => 0, fun _ _ => 1, 0⟩
  match ← setupkvm m with
  | (none, _) => throw .undefined
  | (some kpgdir, m) =>
    let k : Kernel := ⟨m.lcr3 kpgdir.frame, fs, fun _ => Proc.zero, 0, 1, kpgdir, fun _ => 0⟩
    match allocproc k with
    | (none, _) => throw .undefined
    | (some p, k) => do
        match ← setupkvm k.mach with
        | (none, _) => throw (.panic "userinit: out of memory?")
        | (some d, m) => do
            let (d, m) ← inituvm m d initcode
            let fs ← idup k.fs (some root)
            pure ({ k with mach := m, fs := fs, initproc := p }.setProc p
              { k.proc p with pgdir := d, sz := 4096, tf := { esp := 4096 },
                              cwd := some root, state := .runnable })

/-- Whether an access through a page directory is permitted. Kernel code needs no
`PTE_U`, but `CR0_WP` makes it respect `PTE_W`. -/
def PgDir.permits (d : PgDir) (va : Nat) (write user : Bool) : Bool :=
  match d.walk va with
  | none => false
  | some pte => pte.p && (pte.u || !user) && (pte.w || !write)

def Kernel.dirAt (k : Kernel) (x : Frame) : Option PgDir :=
  if k.kpgdir.frame = x then some k.kpgdir
  else ((List.finRange NPROC).find? fun q => (k.proc q).live ∧ (k.proc q).pgdir.frame = x).map
    fun q => (k.proc q).pgdir

/-- An access by process `p`, through the page directory loaded on its CPU. -/
def Kernel.permits (k : Kernel) (p : Fin NPROC) (va : Nat) (write user : Bool) : Bool :=
  match k.dirAt (k.loaded p) with
  | none => false
  | some d => d.permits va write user

def Kernel.frameAt (k : Kernel) (p : Fin NPROC) (va : Nat) (write : Bool) : Option Frame :=
  match k.dirAt (k.loaded p) with
  | none => none
  | some d => if d.permits va write true then (d.walk va).map Pte.ppn else none

def Kernel.load (k : Kernel) (p : Fin NPROC) (va : Nat) : Option UInt8 :=
  (k.frameAt p va false).map fun x => k.mach.mem x (va % 4096)

def Kernel.store (k : Kernel) (p : Fin NPROC) (va : Nat) (b : UInt8) : Option Kernel :=
  (k.frameAt p va true).map fun x => { k with mach := k.mach.write x (va % 4096) [b] }

inductive Act where
  | dispatch (p : Fin NPROC)
  | yield (p : Fin NPROC)
  | fork (p : Fin NPROC)
  | exec (p : Fin NPROC) (ip : Option Nat) (path : List UInt8) (argv : List (List UInt8))
      (slept : Nat → Bool)
  | exit (p : Fin NPROC)
  | wait (p : Fin NPROC)
  | sbrk (p : Fin NPROC) (n : Int)
  | wmap (p : Fin NPROC) (addr : Nat) (length : Int) (flags : Nat) (fd : Int)
  | wunmap (p : Fin NPROC) (addr : Nat)
  | fault (p : Fin NPROC) (va : Nat) (write user : Bool)
  | cowRead (p : Fin NPROC) (va : Nat)
  | cowResolve (p : Fin NPROC) (user : Bool)
  | store (p : Fin NPROC) (va : Nat) (b : UInt8)
  /-- any call on files: new descriptors for `p`, any change of the file system -/
  | files (p : Fin NPROC) (ofile : Fin NOFILE → Option Nat) (fs : Files)

def Act.proc : Act → Fin NPROC
  | dispatch p | yield p | fork p | exec p _ _ _ _ | exit p | wait p | sbrk p _
  | wmap p _ _ _ _ | wunmap p _ | fault p _ _ _ | cowRead p _ | cowResolve p _ | store p _ _
  | files p _ _ => p

/-- Whether process `p` can start a step of its own. -/
def Kernel.ready (k : Kernel) (p : Fin NPROC) : Prop :=
  (k.proc p).state = .running ∧ (k.proc p).cowFault = none

/-- When a step can be taken. A page fault needs an access that is not permitted; the
kernel only follows user pointers below `sz`. -/
def Act.enabled (k : Kernel) : Act → Prop
  | dispatch p => (k.proc p).state = .runnable
  | cowResolve p _ => (k.proc p).state = .running ∧ (k.proc p).cowFault ≠ none
  | fault p va write user =>
    k.ready p ∧ va < 0x100000000 ∧ k.permits p va write user = false ∧
      (user = false → va < (k.proc p).sz)
  | cowRead p va => k.ready p ∧ (va < 0x60000000 ∨ 0x80000000 ≤ va)
  | store p va _ => k.ready p ∧ va < 0x100000000
  | sbrk p n => k.ready p ∧ -0x80000000 ≤ n ∧ n < 0x80000000
  | wmap p addr length _ _ => k.ready p ∧ addr < 0x100000000 ∧
      -0x80000000 ≤ length ∧ length < 0x80000000
  | wunmap p addr => k.ready p ∧ addr < 0x100000000
  | a => k.ready a.proc

/-- Process `p` enters the kernel: CR3 of the executing CPU is the one of its CPU. -/
def Kernel.enter (k : Kernel) (p : Fin NPROC) : Kernel :=
  { k with mach := k.mach.lcr3 (k.loaded p) }

/-- The kernel has run on the CPU of process `p`. -/
def Kernel.leave (k : Kernel) (p : Fin NPROC) : Kernel :=
  { k with loaded := Function.update k.loaded p k.mach.cr3 }

/-- Run kernel code on the CPU of process `p`. -/
def Kernel.onCpu (k : Kernel) (p : Fin NPROC) (f : Kernel → Except Halt Kernel) :
    Except Halt Kernel := do
  let k ← f (k.enter p)
  pure (k.leave p)

def Act.perform (k : Kernel) : Act → Except Halt Kernel
  | dispatch p =>
    let k := k.setProc p { k.proc p with state := .running }
    pure { k with loaded := Function.update k.loaded p (k.proc p).pgdir.frame }
  | yield p => pure (k.setProc p { k.proc p with state := .runnable })
  | fork p => k.onCpu p fun k => do pure (← Xv6.fork k p).2
  | exec p ip path argv slept => k.onCpu p fun k => do pure (← Xv6.exec k p ip path argv slept).2
  | exit p => k.onCpu p fun k => Xv6.exit k p
  | wait p => k.onCpu p fun k => do pure (← Xv6.wait k p).2
  | sbrk p n => k.onCpu p fun k => do pure (← growproc k p n).2
  | wmap p addr length flags fd =>
    k.onCpu p fun k => do pure (← sysWmap k p addr length flags fd).2
  | wunmap p addr => k.onCpu p fun k => do pure (← sysWunmap k p addr).2
  | fault p va _ user => k.onCpu p fun k => do pure (← trap k p va user).2
  | cowRead p va =>
    match Xv6.cowRead k.mach (k.proc p) va with
    | none => throw .sleeps
    | some (pa, refCount) =>
      pure (k.setProc p { k.proc p with cowFault := some (va, pa, refCount) })
  | cowResolve p user =>
    match (k.proc p).cowFault with
    | none => throw .sleeps
    | some (va, pa, refCount) => k.onCpu p fun k => do
        let (ok, d, m) ← Xv6.cowResolve k.mach (k.proc p).pgdir va pa refCount
        let k := { k with mach := m }.setProc p { k.proc p with pgdir := d, cowFault := none }
        pure (← leaveTrap (if ok then k else setKilled k p) p user).2
  | store p va b =>
    match k.store p va b with
    | none => throw .sleeps
    | some k => pure k
  | files p ofile fs => pure ({ k with fs := fs }.setProc p { k.proc p with ofile := ofile })

def Step (k : Kernel) (a : Act) (k' : Kernel) : Prop := a.enabled k ∧ a.perform k = .ok k'

end Xv6
