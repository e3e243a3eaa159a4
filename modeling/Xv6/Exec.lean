import Xv6.Kernel

/-!
`exec`. The arguments are the strings the kernel reads from the caller, the inode is
what `namei` found, and `slept` says of each read of the file whether the process was
switched out in it: then the scheduler has loaded its own page directory again.
-/

namespace Xv6

def field (bytes : List UInt8) (off n : Nat) : Nat :=
  (List.range n).foldr (fun j v => (bytes.getD (off + j) 0).toNat + 256 * v) 0

/-- What `exec` carries through its loops: the new directory and size, and the number of
reads made so far. -/
structure Loading where
  mach : Machine
  fs : Files
  d : PgDir
  sz : Nat
  reads : Nat

section
variable (own : Frame) (slept : Nat → Bool) (ip : Option Nat)

/-- `readi(ip, .., off, n)` on behalf of `exec`. -/
def Loading.read (l : Loading) (off n : Nat) : Option (List UInt8) × Loading :=
  let (bytes, fs) := readi l.fs ip (off % 0x100000000) n
  (bytes, { l with fs := fs, mach := if slept l.reads then l.mach.lcr3 own else l.mach,
                   reads := l.reads + 1 })

/-- The loop of `loaduvm`, with `n` pages to go from offset `i`. -/
def loadPages (addr offset sz : Nat) (w : Bool) :
    Nat → Loading → Nat → Except Halt (Bool × Loading)
  | 0, l, _ => pure (true, l)
  | n + 1, l, i =>
    match l.d.walk ((addr + i) % 0x100000000) with
    | none => throw (.panic "loaduvm: address should exist")
    | some pte =>
      let len := min (sz - i) 4096
      let (bytes, l) := l.read own slept ip (offset + i) len
      let l := { l with mach := l.mach.write pte.ppn 0 (bytes.getD []) }
      if bytes.map List.length ≠ some len then pure (false, l)
      else
        let d := l.d.setPte ((addr + i) % 0x100000000) { pte with w := w }
        loadPages addr offset sz w n { l with d := d, mach := l.mach.lcr3 d.frame } (i + 4096)

def loaduvm (addr offset sz : Nat) (w : Bool) (l : Loading) : Except Halt (Bool × Loading) :=
  if addr % 4096 ≠ 0 then throw (.panic "loaduvm: addr must be page aligned")
  else loadPages own slept ip addr offset sz w (pagesTo 0 sz) l 0

/-- The loop of `exec` over `n` program headers from offset `off`: false is `goto bad`. -/
def loadSegments : Nat → Loading → Nat → Except Halt (Bool × Loading)
  | 0, l, _ => pure (true, l)
  | n + 1, l, off =>
    match l.read own slept ip off 32 with
    | (none, l) => pure (false, l)
    | (some ph, l) =>
      let vaddr := field ph 8 4
      let filesz := field ph 16 4
      let memsz := field ph 20 4
      if ph.length ≠ 32 then pure (false, l)
      else if field ph 0 4 ≠ 1 then loadSegments n l (off + 32)
      else if memsz < filesz then pure (false, l)
      else if (vaddr + memsz) % 0x100000000 < vaddr then pure (false, l)
      else do
        let (sz, d, m) ← allocuvm l.mach l.d l.sz (vaddr + memsz)
        let l := { l with mach := m, d := d, sz := sz }
        if sz = 0 then pure (false, l)
        else if vaddr % 4096 ≠ 0 then pure (false, l)
        else do
          let (ok, l) ← loaduvm own slept ip vaddr (field ph 4 4) filesz
            (field ph 24 4 &&& 2 ≠ 0) l
          if ok then loadSegments n l (off + 32) else pure (false, l)

end

def le32 (n : Nat) : List UInt8 :=
  [n, n / 0x100, n / 0x10000, n / 0x1000000].map UInt8.ofNat

/-- The loop of `exec` that pushes the argument strings, with the addresses pushed so far:
the stack pointer and all addresses, or none for `goto bad`. -/
def pushArgs : List (List UInt8) → Machine → PgDir → Nat → List Nat →
    Except Halt (Option (Nat × List Nat) × Machine)
  | [], m, _, sp, ustack => pure (some (sp, ustack), m)
  | s :: argv, m, d, sp, ustack =>
    if 32 ≤ ustack.length then pure (none, m)
    else do
      let sp := (sp + 0x100000000 - (s.length + 1)) % 0x100000000 / 4 * 4
      let (ok, m) ← copyout m d sp (s ++ [0])
      if ok then pushArgs argv m d sp (ustack ++ [sp]) else pure (none, m)

/-- The stack image of `exec` from the loaded segments on: the stack pointer, or none for
`goto bad`. -/
def buildStack (m : Machine) (d : PgDir) (sz : Nat) (argv : List (List UInt8)) :
    Except Halt (Option (Nat × Nat) × PgDir × Machine) := do
  let sz := pgroundup sz
  let (sz, d, m) ← allocuvm m d sz (sz + 2 * 4096)
  if sz = 0 then pure (none, d, m)
  else do
    let d ← clearpteu d (sz - 2 * 4096)
    match ← pushArgs argv m d sz [] with
    | (none, m) => pure (none, d, m)
    | (some (sp, ustack), m) => do
        let argc := ustack.length
        let argvAddr := (sp + 0x100000000 - (argc + 1) * 4) % 0x100000000
        let sp := (sp + 0x100000000 - (3 + argc + 1) * 4) % 0x100000000
        let words := [0xFFFFFFFF, argc, argvAddr] ++ ustack ++ [0]
        let (ok, m) ← copyout m d sp (words.flatMap le32)
        pure (if ok then some (sz, sp) else none, d, m)

def lastComponent (path : List UInt8) : List UInt8 :=
  (path.reverse.takeWhile (· ≠ 47)).reverse.take 15

/-- `if(pgdir) freevm(pgdir)` -/
def freeNew (m : Machine) : Option PgDir → Except Halt Machine
  | none => pure m
  | some d => freevm m d

/-- `if(ip) iunlockput(ip)` -/
def putInode (fs : Files) : Option Nat → Except Halt Files
  | none => pure fs
  | some i => iunlockput fs (some i)

/-- `goto bad`: the new directory, if any, is freed, and the inode, if still held, put. -/
def execBad (k : Kernel) (d : Option PgDir) (ip : Option Nat) : Except Halt (Bool × Kernel) := do
  let m ← freeNew k.mach d
  let fs ← putInode k.fs ip
  pure (false, { k with mach := m, fs := fs })

/-- `exec` of process `p`: whether the result is 0. -/
def exec (k : Kernel) (p : Fin NPROC) (ip : Option Nat) (path : List UInt8)
    (argv : List (List UInt8)) (slept : Nat → Bool) : Except Halt (Bool × Kernel) := do
  match ip with
  | none => pure (false, k)
  | some _ => do
      let own := (k.proc p).pgdir.frame
      let fs ← idup k.fs ip
      let fs ← ilock fs ip
      let (elf, fs) := readi fs ip 0 52
      let k := { k with fs := fs, mach := if slept 0 then k.mach.lcr3 own else k.mach }
      let hdr := elf.getD []
      if hdr.length ≠ 52 ∨ field hdr 0 4 ≠ 0x464C457F then execBad k none ip
      else do
        match ← setupkvm k.mach with
        | (none, m) => execBad { k with mach := m } none ip
        | (some d, m) => do
            let (ok, l) ← loadSegments own slept ip (field hdr 44 2) ⟨m, k.fs, d, 0, 1⟩
              (field hdr 28 4)
            let k := { k with mach := l.mach, fs := l.fs }
            if !ok then execBad k (some l.d) ip
            else do
              let fs ← iunlockput k.fs ip
              let m := if slept l.reads then k.mach.lcr3 own else k.mach
              match ← buildStack m l.d l.sz argv with
              | (none, d, m) => execBad { k with mach := m, fs := fs } (some d) none
              | (some (sz, sp), d, m) => do
                  let x := k.proc p
                  let tf := { x.tf with eip := field hdr 24 4, esp := sp }
                  let k := switchuvm ({ k with mach := m, fs := fs }.setProc p
                    { x with name := lastComponent path, pgdir := d, sz := sz, tf := tf }) p
                  let m ← freevm k.mach x.pgdir
                  pure (true, { k with mach := m })

end Xv6
