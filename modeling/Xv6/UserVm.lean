import Xv6.Machine

/-!
Building and releasing address spaces: `setupkvm`, `allocuvm`, `deallocuvm`,
`freevm`, `copyuvm`, `clearpteu` and `copyout`. A function that changes a page
directory returns the changed directory next to the machine.
-/

namespace Xv6

/-- The page loop of `deallocuvm` and `dellocateAndUnmap`: `walkpgdir` at each page,
a jump behind an absent page table, `body` at each present entry. The body says
whether the loop goes on; the result, whether it ran to its end. -/
def sweep {σ : Type} (dir : σ → PgDir) (body : σ → Nat → Pte → Except Halt (σ × Bool)) :
    Nat → σ → Nat → Nat → Except Halt (σ × Bool)
  | 0, s, a, bound => if a < bound then throw .diverges else pure (s, true)
  | n + 1, s, a, bound =>
    if a < bound then
      match (dir s).walk a with
      | none => sweep dir body n s (nextDir a) bound
      | some pte =>
        if pte.p then do
          let (s, go) ← body s a pte
          if go then sweep dir body n s ((a + 4096) % 0x100000000) bound
          else pure (s, false)
        else sweep dir body n s ((a + 4096) % 0x100000000) bound
    else pure (s, true)

/-- `deallocuvm` at a present entry: the frame is freed when its count is 0, the
entry is cleared in any case. -/
def deallocPage (s : Machine × PgDir) (a : Nat) (pte : Pte) :
    Except Halt ((Machine × PgDir) × Bool) :=
  if pte.ppn = 0 then throw (.panic "kfree")
  else do
    let m ← kfreeUnless (s.1.getCount pte.ppn != 0) s.1 pte.ppn
    pure ((m, s.2.setPte a Pte.zero), true)

def deallocuvm (m : Machine) (d : PgDir) (oldsz newsz : Nat) :
    Except Halt (Nat × PgDir × Machine) :=
  if oldsz ≤ newsz then pure (oldsz, d, m)
  else do
    let a := pgroundup newsz
    let ((m, d), _) ← sweep Prod.snd deallocPage (pagesTo a oldsz) (m, d) a oldsz
    pure (newsz, d, m)

/-- The loop of `freevm` over the present directory entries. -/
def freeTables : List Frame → Machine → Except Halt Machine
  | [], m => pure m
  | x :: xs, m => do
      let m ← kfreeUnless (0 < m.getCount x) m x
      freeTables xs m

def freevm (m : Machine) (d : PgDir) : Except Halt Machine := do
  let (_, d, m) ← deallocuvm m d 0x80000000 0
  let m ← freeTables d.tables m
  kfree m d.frame

/-- An entry of the table `kmap`. -/
structure Kmap where
  virt : Nat
  physStart : Nat
  physEnd : Nat
  perm : Flags

def kmap (i : Image) : List Kmap :=
  [⟨0x80000000, 0, 0x100000, { w := true }⟩,
   ⟨0x80100000, 0x100000, i.data * 4096, {}⟩,
   ⟨0x80000000 + i.data * 4096, i.data * 4096, 0xE000000, { w := true }⟩,
   ⟨0xFE000000, 0xFE000000, 0, { w := true }⟩]

/-- The loop of `setupkvm` over `kmap`. -/
def mapKernel : List Kmap → Machine → PgDir → Except Halt (Option PgDir × Machine)
  | [], m, d => pure (some d, m)
  | k :: ks, m, d => do
      let size := (k.physEnd + 0x100000000 - k.physStart) % 0x100000000
      let (ok, d, a) ← mappages m.kmem d k.virt size (k.physStart / 4096) k.perm
      let m := { m with kmem := a }
      if ok then mapKernel ks m d
      else do
        let m ← freevm m d
        pure (none, m)

/-- `setupkvm`. Its test `P2V(PHYSTOP) > DEVSPACE` compares two constants and never
panics. -/
def setupkvm (m : Machine) : Except Halt (Option PgDir × Machine) :=
  match kalloc m.kmem with
  | (none, a) => pure (none, { m with kmem := a })
  | (some x, a) => mapKernel (kmap m.image) { m with kmem := a } (PgDir.empty x)

/-- The loop of `allocuvm`, with `n` pages to go from `a`. -/
def allocLoop (oldsz newsz : Nat) : Nat → Machine → PgDir → Nat →
    Except Halt (Nat × PgDir × Machine)
  | 0, m, d, _ => pure (newsz, d, m)
  | n + 1, m, d, a =>
    match kalloc m.kmem with
    | (none, k) => do
        let (_, d, m) ← deallocuvm { m with kmem := k } d newsz oldsz
        pure (0, d, m)
    | (some x, k) => do
        let m := { m with kmem := k }.memset x 0
        let (ok, d, k) ← mappages m.kmem d a 4096 x { w := true, u := true }
        let m := { m with kmem := k }
        if ok then allocLoop oldsz newsz n (m.setCount x 1) d (a + 4096)
        else do
          let (_, d, m) ← deallocuvm m d newsz oldsz
          let m ← kfree m x
          pure (0, d, m)

/-- `allocuvm`: the new size, or 0 on error. -/
def allocuvm (m : Machine) (d : PgDir) (oldsz newsz : Nat) : Except Halt (Nat × PgDir × Machine) :=
  if 0x80000000 ≤ newsz then pure (0, d, m)
  else if newsz < oldsz then pure (oldsz, d, m)
  else
    let a := pgroundup oldsz
    allocLoop oldsz newsz (pagesTo a newsz) m d a

/-- What `copyuvm` makes of an entry, in the parent and in the child. -/
def Pte.share (e : Pte) : Pte :=
  if e.w then { e with w := false, cow := true, p := true, u := true } else e

/-- The loop of `copyuvm`, with `n` pages to go from `i`: the child's directory, none
on failure, and the parent's. -/
def copyLoop : Nat → Machine → PgDir → PgDir → Nat →
    Except Halt (Option PgDir × PgDir × Machine)
  | 0, m, pgdir, d, _ => pure (some d, pgdir, m)
  | n + 1, m, pgdir, d, i =>
    match pgdir.walk i with
    | none => throw (.panic "copyuvm: pte should exist")
    | some pte =>
      if !pte.p then throw (.panic "copyuvm: page not present")
      else do
        let pgdir := if pte.w then pgdir.setPte i pte.share else pgdir
        let (ok, d, k) ← mappages m.kmem d i 4096 pte.ppn pte.share.toFlags
        let m := { m with kmem := k }
        if ok then
          copyLoop n (((m.incCount pte.ppn).lcr3 pgdir.frame).lcr3 d.frame) pgdir d (i + 4096)
        else do
          let m ← freevm m d
          pure (none, pgdir, m)

def copyuvm (m : Machine) (pgdir : PgDir) (sz : Nat) :
    Except Halt (Option PgDir × PgDir × Machine) := do
  match ← setupkvm m with
  | (none, m) => pure (none, pgdir, m)
  | (some d, m) => copyLoop (pagesTo 0 sz) m pgdir d 0

def clearpteu (d : PgDir) (uva : Nat) : Except Halt PgDir :=
  match d.walk uva with
  | none => throw (.panic "clearpteu")
  | some pte => pure (d.setPte uva { pte with u := false })

/-- `uva2ka`: the frame behind a user page. The source dereferences the result of
`walkpgdir` without a test. -/
def uva2ka (d : PgDir) (uva : Nat) : Except Halt (Option Frame) :=
  match d.walk uva with
  | none => throw .undefined
  | some pte => pure (if pte.p && pte.u then some pte.ppn else none)

/-- `memmove` of `bytes` to offset `off` of a frame. -/
def Machine.write (m : Machine) (x : Frame) (off : Nat) (bytes : List UInt8) : Machine :=
  { m with mem := Function.update m.mem x fun j =>
      if off ≤ j ∧ j < off + bytes.length then bytes.getD (j - off) 0 else m.mem x j }

/-- The loop of `copyout`; each turn but the first starts on a page boundary. -/
def copyLoopOut : Nat → Machine → PgDir → Nat → List UInt8 → Except Halt (Bool × Machine)
  | 0, m, _, _, _ => pure (true, m)
  | n + 1, m, d, va, bytes =>
    if bytes.isEmpty then pure (true, m)
    else do
      let va0 := pgrounddown va
      match ← uva2ka d va0 with
      | none => pure (false, m)
      | some x =>
        let len := min (4096 - (va - va0)) bytes.length
        copyLoopOut n (m.write x (va - va0) (bytes.take len)) d ((va0 + 4096) % 0x100000000)
          (bytes.drop len)

/-- `copyout`, with a turn of the loop for each byte at most. -/
def copyout (m : Machine) (d : PgDir) (va : Nat) (bytes : List UInt8) :
    Except Halt (Bool × Machine) :=
  copyLoopOut (bytes.length + 1) m d va bytes

end Xv6
