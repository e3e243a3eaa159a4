import Xv6.UserVm
import Xv6.Files

/-!
Processes, their region tables, and the kernel state.
-/

namespace Xv6

inductive ProcState where
  | unused
  | embryo
  | sleeping
  | runnable
  | running
  | zombie
deriving DecidableEq, Repr

/-- Slot `i` of `struct wmapinfo` and `struct wmapinfoExtra`. -/
structure Region where
  addr : Nat
  length : Int
  nLoaded : Int
  fileBacked : Bool
  fd : Int
deriving DecidableEq, Repr

/-- The pair (0, -1) marks a free slot. -/
def Region.empty : Region := ⟨0, -1, 0, false, -1⟩

def Region.isEmpty (r : Region) : Bool := r.addr = 0 && r.length = -1

structure Wmap where
  total : Int
  slot : Fin MAX_WMMAP_INFO → Region
  isChild : Bool

def Wmap.init : Wmap := ⟨0, fun _ => Region.empty, false⟩

/-- `updateWmap`; the index is one of the slots. -/
def Wmap.update (w : Wmap) (i : Fin MAX_WMMAP_INFO) (r : Region) (total : Int) : Wmap :=
  { w with slot := Function.update w.slot i r, total := total }

/-- The registers of a trap frame that `fork` and `exec` set. -/
structure Trapframe where
  eax : Nat := 0
  eip : Nat := 0
  esp : Nat := 0

/-- `struct proc`. `cowFault` is not a field of the source: while a process is inside
`handle_cow_fault` it holds the fault address and the frame and count it has read. -/
structure Proc where
  sz : Nat
  pgdir : PgDir
  kstack : Option Frame
  state : ProcState
  pid : Nat
  parent : Option (Fin NPROC)
  tf : Trapframe
  killed : Bool
  ofile : Fin NOFILE → Option Nat
  cwd : Option Nat
  name : List UInt8
  wmap : Wmap
  cowFault : Option (Nat × Frame × Nat)

/-- The kernel. `loaded p` is CR3 of the CPU that runs process `p`. -/
structure Kernel where
  mach : Machine
  fs : Files
  proc : Fin NPROC → Proc
  initproc : Fin NPROC
  nextpid : Nat
  kpgdir : PgDir
  loaded : Fin NPROC → Frame

def Kernel.setProc (k : Kernel) (p : Fin NPROC) (x : Proc) : Kernel :=
  { k with proc := Function.update k.proc p x }

section
variable (k : Kernel) (p : Fin NPROC) (x : Proc)

@[simp] theorem Kernel.proc_setProc_self : (k.setProc p x).proc p = x := by
  simp [setProc]

variable {k p x} in
theorem Kernel.proc_setProc_ne {q : Fin NPROC} (h : q ≠ p) : (k.setProc p x).proc q = k.proc q := by
  simp [setProc, h]

@[simp] theorem Kernel.mach_setProc : (k.setProc p x).mach = k.mach := rfl

@[simp] theorem Kernel.fs_setProc : (k.setProc p x).fs = k.fs := rfl

@[simp] theorem Kernel.initproc_setProc : (k.setProc p x).initproc = k.initproc := rfl

@[simp] theorem Kernel.kpgdir_setProc : (k.setProc p x).kpgdir = k.kpgdir := rfl

@[simp] theorem Kernel.loaded_setProc : (k.setProc p x).loaded = k.loaded := rfl

end

def Proc.live (x : Proc) : Prop := x.state ≠ .unused

instance (x : Proc) : Decidable x.live := inferInstanceAs (Decidable (_ ≠ _))

def allocproc (k : Kernel) : Option (Fin NPROC) × Kernel :=
  match (List.finRange NPROC).find? fun p => (k.proc p).state = .unused with
  | none => (none, k)
  | some p =>
    let x := { k.proc p with state := .embryo, pid := k.nextpid }
    let k := { k with nextpid := k.nextpid + 1 }
    match kalloc k.mach.kmem with
    | (none, a) =>
      (none, { k with mach := { k.mach with kmem := a } }.setProc p
        { x with kstack := none, state := .unused })
    | (some s, a) =>
      (some p, { k with mach := { k.mach with kmem := a } }.setProc p
        { x with kstack := some s, wmap := Wmap.init })

def switchuvm (k : Kernel) (p : Fin NPROC) : Kernel :=
  { k with mach := k.mach.lcr3 (k.proc p).pgdir.frame }

/-- The call of `growproc(n)` that changes the address space: the new size, 0 on error. -/
def resize (m : Machine) (d : PgDir) (sz : Nat) (n : Int) : Except Halt (Nat × PgDir × Machine) :=
  if 0 < n then allocuvm m d sz (addInt sz n)
  else if n < 0 then deallocuvm m d sz (addInt sz n)
  else pure (sz, d, m)

/-- `growproc(n)` for process `p`: whether it succeeds. -/
def growproc (k : Kernel) (p : Fin NPROC) (n : Int) : Except Halt (Bool × Kernel) := do
  let x := k.proc p
  let (sz, d, m) ← resize k.mach x.pgdir x.sz n
  let k := { k with mach := m }
  if n ≠ 0 ∧ sz = 0 then pure (false, k.setProc p { x with pgdir := d })
  else pure (true, switchuvm (k.setProc p { x with pgdir := d, sz := sz }) p)

end Xv6
