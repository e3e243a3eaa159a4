import Xv6.System
import Xv6.UserMemory

/-!
`sys_exec` with the memory it reads from. The kernel follows the pointers of the caller where
it needs the bytes: `sys_exec` checks the strings and keeps their addresses only, and `exec`
reads them when the new image is there. Each load goes through the page directory that CR3
points to at that moment, and `loaduvm` has put the new one there.
-/

namespace Xv6

/-- The page directory in CR3: the one `exec` is building, or one of the system. -/
def Kernel.activeDir (k : Kernel) (new : Option PgDir) : Option PgDir :=
  match new with
  | none => k.dirAt k.mach.cr3
  | some d => if d.frame = k.mach.cr3 then some d else k.dirAt k.mach.cr3

section
variable (p : Fin NPROC) (new : Option PgDir)

/-- A load by the kernel from address `va` of the caller, tried `n` times: a page fault taken
in kernel mode returns to the load. -/
def loadUser : Nat → Kernel → Nat → Except Halt (UInt8 × Kernel)
  | 0, _, _ => throw .diverges
  | n + 1, k, va =>
    match k.activeDir new with
    | none => throw .undefined
    | some d =>
      if d.permits va false false then pure (k.mach.byteAt d va, k)
      else do
        let k ← pageFault k p va
        loadUser n k va

def loadBytes : Nat → Kernel → Nat → Except Halt (List UInt8 × Kernel)
  | 0, k, _ => pure ([], k)
  | n + 1, k, va => do
      let (c, k) ← loadUser p new 0x100000000 k va
      let (cs, k) ← loadBytes n k ((va + 1) % 0x100000000)
      pure (c :: cs, k)

/-- The bytes before the first NUL among the `n` from `va` on, and whether there is one. -/
def scanStr : Nat → Kernel → Nat → Except Halt ((List UInt8 × Bool) × Kernel)
  | 0, k, _ => pure (([], false), k)
  | n + 1, k, va => do
      let (c, k) ← loadUser p new 0x100000000 k va
      if c = 0 then pure (([], true), k)
      else do
        let ((cs, ok), k) ← scanStr n k ((va + 1) % 0x100000000)
        pure ((c :: cs, ok), k)

def loadStr (k : Kernel) (va : Nat) : Except Halt (List UInt8 × Kernel) := do
  let ((s, ok), k) ← scanStr p new 0x100000000 k va
  if ok then pure (s, k) else throw .diverges

def strlen (k : Kernel) (va : Nat) : Except Halt (Nat × Kernel) := do
  let (s, k) ← loadStr p new k va
  pure (s.length, k)

/-- The last component of the path at `path`: the loop over the path, then `safestrcpy` of at
most 15 bytes. -/
def loadName (k : Kernel) (path : Nat) : Except Halt (List UInt8 × Kernel) := do
  let (s, k) ← loadStr p new k path
  let last := path + (s.length - (s.reverse.takeWhile (· ≠ 47)).length)
  let ((name, _), k) ← scanStr p new 15 k (last % 0x100000000)
  pure (name, k)

end

section
variable (p : Fin NPROC)

/-- The loop of `exec` that pushes the strings at the addresses `argv`. No string overlaps
its copy, so that the bytes can be read before `copyout` writes them. -/
def pushStrings : List Nat → Kernel → PgDir → Nat → List Nat →
    Except Halt (Option (Nat × List Nat) × Kernel)
  | [], k, _, sp, ustack => pure (some (sp, ustack), k)
  | a :: argv, k, d, sp, ustack =>
    if 32 ≤ ustack.length then pure (none, k)
    else do
      let (n, k) ← strlen p (some d) k a
      let sp := (sp + 0x100000000 - (n + 1)) % 0x100000000 / 4 * 4
      let (n, k) ← strlen p (some d) k a
      let (bytes, k) ← loadBytes p (some d) (n + 1) k a
      let (ok, m) ← copyout k.mach d sp bytes
      let k := { k with mach := m }
      if ok then pushStrings argv k d sp (ustack ++ [sp]) else pure (none, k)

/-- The part of `exec` from the loaded segments to the name: the size, the stack pointer and
the name, or none for `goto bad`. -/
def userStack (path : Nat) (argv : List Nat) (k : Kernel) (d : PgDir) (sz : Nat) :
    Except Halt (Option (Nat × Nat × List UInt8) × PgDir × Kernel) := do
  let sz := pgroundup sz
  let (sz, d, m) ← allocuvm k.mach d sz (sz + 2 * 4096)
  let k := { k with mach := m }
  if sz = 0 then pure (none, d, k)
  else do
    let d ← clearpteu d (sz - 2 * 4096)
    match ← pushStrings p argv k d sz [] with
    | (none, k) => pure (none, d, k)
    | (some (sp, ustack), k) => do
        let argc := ustack.length
        let argvAddr := (sp + 0x100000000 - (argc + 1) * 4) % 0x100000000
        let sp := (sp + 0x100000000 - (3 + argc + 1) * 4) % 0x100000000
        let words := [0xFFFFFFFF, argc, argvAddr] ++ ustack ++ [0]
        let (ok, m) ← copyout k.mach d sp (words.flatMap le32)
        let k := { k with mach := m }
        if ok then do
          let (name, k) ← loadName p (some d) k path
          pure (some (sz, sp, name), d, k)
        else pure (none, d, k)

/-- `exec`, with the part that reads the arguments as a parameter. -/
def execWith
    (stack : Kernel → PgDir → Nat → Except Halt (Option (Nat × Nat × List UInt8) × PgDir × Kernel))
    (k : Kernel) (ip : Option Nat) (slept : Nat → Bool) : Except Halt (Bool × Kernel) := do
  match ip with
  | none => pure (false, k)
  | some _ => do
      let own := (k.proc p).pgdir.frame
      let fs ← idup k.fs ip
      let fs ← ilock fs ip
      let (elf, fs) := readi fs ip 0 52
      let k := { k with fs := fs, mach := if slept 0 then k.mach.lcr3 own else k.mach }
      let hdr := elf.getD []
      if hdr.length ≠ 52 ∨ field hdr 0 4 ≠ 0x464C457F then execBad k none ip
      else do
        match ← setupkvm k.mach with
        | (none, m) => execBad { k with mach := m } none ip
        | (some d, m) => do
            let (ok, l) ← loadSegments own slept ip (field hdr 44 2) ⟨m, k.fs, d, 0, 1⟩
              (field hdr 28 4)
            let k := { k with mach := l.mach, fs := l.fs }
            if !ok then execBad k (some l.d) ip
            else do
              let fs ← iunlockput k.fs ip
              let m := if slept l.reads then k.mach.lcr3 own else k.mach
              match ← stack { k with mach := m, fs := fs } l.d l.sz with
              | (none, d, k) => execBad k (some d) none
              | (some (sz, sp, name), d, k) => do
                  let x := k.proc p
                  let tf := { x.tf with eip := field hdr 24 4, esp := sp }
                  let k := switchuvm (k.setProc p
                    { x with name := name, pgdir := d, sz := sz, tf := tf }) p
                  let m ← freevm k.mach x.pgdir
                  pure (true, { k with mach := m })

/-- `exec` on the addresses of the path and of the arguments. -/
def execUser (k : Kernel) (ip : Option Nat) (path : Nat) (argv : List Nat) (slept : Nat → Bool) :
    Except Halt (Bool × Kernel) :=
  execWith p (userStack p path argv) k ip slept

/-- `fetchint`, none for -1. -/
def fetchint (k : Kernel) (addr : Nat) : Except Halt (Option Nat × Kernel) :=
  if (k.proc p).sz ≤ addr ∨ (k.proc p).sz < (addr + 4) % 0x100000000 then pure (none, k)
  else do
    let (bytes, k) ← loadBytes p none 4 k addr
    pure (some (field bytes 0 4), k)

/-- `fetchstr`: whether there is a NUL below `sz`. -/
def fetchstr (k : Kernel) (addr : Nat) : Except Halt (Bool × Kernel) :=
  if (k.proc p).sz ≤ addr then pure (false, k)
  else do
    let ((_, ok), k) ← scanStr p none ((k.proc p).sz - addr) k addr
    pure (ok, k)

def argint (k : Kernel) (n : Nat) : Except Halt (Option Nat × Kernel) :=
  fetchint p k (((k.proc p).tf.esp + 4 + 4 * n) % 0x100000000)

/-- The loop of `sys_exec`, with room for `n` more arguments: their addresses, or none. -/
def fetchArgs : Nat → Kernel → Nat → Except Halt (Option (List Nat) × Kernel)
  | 0, k, _ => pure (none, k)
  | n + 1, k, uargv => do
      match ← fetchint p k uargv with
      | (none, k) => pure (none, k)
      | (some uarg, k) =>
        if uarg = 0 then pure (some [], k)
        else do
          let (ok, k) ← fetchstr p k uarg
          if !ok then pure (none, k)
          else do
            let (argv, k) ← fetchArgs n k ((uargv + 4) % 0x100000000)
            pure (argv.map (uarg :: ·), k)

/-- The part of `sys_exec` before the call of `exec`: the addresses of the path and of the
arguments, or none for -1. -/
def fetchExec (k : Kernel) : Except Halt (Option (Nat × List Nat) × Kernel) := do
  match ← argint p k 0 with
  | (none, k) => pure (none, k)
  | (some path, k) => do
      let (ok, k) ← fetchstr p k path
      if !ok then pure (none, k)
      else do
        match ← argint p k 1 with
        | (none, k) => pure (none, k)
        | (some uargv, k) => do
            let (argv, k) ← fetchArgs p 32 k uargv
            pure (argv.map (path, ·), k)

/-- `sys_exec`, with the inode that `namei` finds: whether the result is 0. -/
def sysExec (k : Kernel) (ip : Option Nat) (slept : Nat → Bool) : Except Halt (Bool × Kernel) := do
  match ← fetchExec p k with
  | (none, k) => pure (false, k)
  | (some (path, argv), k) => execUser p k ip path argv slept

end

end Xv6
