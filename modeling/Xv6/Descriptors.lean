import Xv6.System

/-!
The system calls of `sysfile.c` that change a process's descriptors, with `filealloc` and
`pipealloc` below them. The inode `open` works on is the one `namei` or `create` found;
for `pipe` it is given whether there was a page for the pipe. Pages are numbered in the
order in which pipes get them.
-/

namespace Xv6

open Function

abbrev NFILE : Nat := 100

/-- `argfd` on a fetched argument: the descriptor and its file, none for -1. -/
def argfd (x : Proc) (fd : Int) : Option (Fin NOFILE × Nat) :=
  if h : 0 ≤ fd ∧ fd < NOFILE then
    (x.ofile ⟨fd.toNat, toNat_lt_nofile h⟩).map fun f => (⟨fd.toNat, toNat_lt_nofile h⟩, f)
  else none

/-- `fdalloc`: the lowest free descriptor, none for -1. -/
def fdalloc (x : Proc) (f : Nat) : Option (Fin NOFILE × Proc) :=
  ((List.finRange NOFILE).find? fun i => (x.ofile i).isNone).map fun i =>
    (i, { x with ofile := update x.ofile i (some f) })

/-- `filealloc`: the first `struct file` without a reference. -/
def filealloc (fs : Files) : Option Nat × Files :=
  match (List.range NFILE).find? fun f => (fs.file f).ref = 0 with
  | none => (none, fs)
  | some f => (some f, fs.setFile f { fs.file f with ref := 1 })

def sysDup (k : Kernel) (p : Fin NPROC) (fd : Int) : Except Halt (Option (Fin NOFILE) × Kernel) :=
  match argfd (k.proc p) fd with
  | none => pure (none, k)
  | some (_, f) =>
    match fdalloc (k.proc p) f with
    | none => pure (none, k)
    | some (i, x) => do
        let fs ← filedup k.fs f
        pure (some i, { k with fs := fs }.setProc p x)

/-- `sys_close`: whether the result is 0. -/
def sysClose (k : Kernel) (p : Fin NPROC) (fd : Int) : Except Halt (Bool × Kernel) :=
  match argfd (k.proc p) fd with
  | none => pure (false, k)
  | some (i, f) => do
      let x := { k.proc p with ofile := update (k.proc p).ofile i none }
      let fs ← fileclose k.fs f
      pure (true, { k with fs := fs }.setProc p x)

/-- `sys_open`; `O_WRONLY` is 1, `O_RDWR` 2 and `O_CREATE` 0x200. -/
def sysOpen (k : Kernel) (p : Fin NPROC) (ip : Option Nat) (omode : Nat) :
    Except Halt (Option (Fin NOFILE) × Kernel) :=
  match ip with
  | none => pure (none, k)
  | some i => do
      let fs ← idup k.fs ip
      let fs ← ilock fs ip
      if omode &&& 0x200 = 0 ∧ (fs.inode i).type = 1 ∧ omode ≠ 0 then do
        let fs ← iunlockput fs ip
        pure (none, { k with fs := fs })
      else
        match filealloc fs with
        | (none, fs) => do
            let fs ← iunlockput fs ip
            pure (none, { k with fs := fs })
        | (some f, fs) =>
          match fdalloc (k.proc p) f with
          | none => do
              let fs ← fileclose fs f
              let fs ← iunlockput fs ip
              pure (none, { k with fs := fs })
          | some (fd, x) => do
              let fs ← iunlock fs ip
              let y := { fs.file f with
                type := .inode, ip := ip, off := 0, readable := omode &&& 1 = 0,
                writable := omode &&& 1 ≠ 0 || omode &&& 2 ≠ 0 }
              pure (some fd, { k with fs := fs.setFile f y }.setProc p x)

def initPipe (fs : Files) (f0 f1 : Nat) : Files :=
  let p := fs.npages
  let fs := { fs with
    page := update fs.page p { readopen := true, writeopen := true }, npages := p + 1 }
  let fs := fs.setFile f0
    { fs.file f0 with type := .pipe, readable := true, writable := false, pipe := some p }
  fs.setFile f1
    { fs.file f1 with type := .pipe, readable := false, writable := true, pipe := some p }

/-- `pipealloc`: the files of the two ends, none for -1. -/
def pipealloc (fs : Files) (page : Bool) : Except Halt (Option (Nat × Nat) × Files) :=
  match filealloc fs with
  | (none, fs) => pure (none, fs)
  | (some f0, fs) =>
    match filealloc fs with
    | (none, fs) => do
        let fs ← fileclose fs f0
        pure (none, fs)
    | (some f1, fs) =>
      if page then pure (some (f0, f1), initPipe fs f0 f1)
      else do
        let fs ← fileclose fs f0
        let fs ← fileclose fs f1
        pure (none, fs)

/-- `sys_pipe` on a pointer that `argptr` accepts: whether the result is 0. -/
def sysPipe (k : Kernel) (p : Fin NPROC) (page : Bool) : Except Halt (Bool × Kernel) := do
  let (r, fs) ← pipealloc k.fs page
  match r with
  | none => pure (false, { k with fs := fs })
  | some (rf, wf) =>
    match fdalloc (k.proc p) rf with
    | none => do
        let fs ← fileclose fs rf
        let fs ← fileclose fs wf
        pure (false, { k with fs := fs })
    | some (fd0, x) =>
      match fdalloc x wf with
      | none => do
          let x := { x with ofile := update x.ofile fd0 none }
          let fs ← fileclose fs rf
          let fs ← fileclose fs wf
          pure (false, { k with fs := fs }.setProc p x)
      | some (_, x) => pure (true, { k with fs := fs }.setProc p x)

inductive FdCall where
  | open (ip : Option Nat) (omode : Nat)
  | close (fd : Int)
  | dup (fd : Int)
  | pipe (page : Bool)

def FdCall.perform (k : Kernel) (p : Fin NPROC) : FdCall → Except Halt Kernel
  | .open ip omode => do pure (← sysOpen k p ip omode).2
  | .close fd => do pure (← sysClose k p fd).2
  | .dup fd => do pure (← sysDup k p fd).2
  | .pipe page => do pure (← sysPipe k p page).2

end Xv6
