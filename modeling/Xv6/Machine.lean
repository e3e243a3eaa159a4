import Xv6.PageDir

/-!
Physical memory: the free list, the copy-on-write counts, the bytes of the frames
and the register CR3 of the executing CPU. Bytes are those of data frames; the
contents of page tables are in the directory that owns them.
-/

namespace Xv6

open Function

/-- Where the linker placed the kernel, as page numbers: `V2P(data)` and the first
page at or above `V2P(end)`. -/
structure Image where
  data : Frame
  kend : Frame
  text : 256 < data
  order : data < kend
  phys : kend ≤ 0xE000

/-- The allocator. `failed` records that some `kalloc` has returned 0. -/
structure Kmem where
  freelist : List Frame
  failed : Bool := false

structure Machine where
  image : Image
  kmem : Kmem
  /-- `cow_ref_counts`, a byte for each frame -/
  counts : Frame → Nat
  mem : Frame → Nat → UInt8
  cr3 : Frame

def kalloc (a : Kmem) : Option Frame × Kmem :=
  match a.freelist with
  | [] => (none, { a with failed := true })
  | r :: next => (some r, { a with freelist := next })

/-- `memset(P2V(x), c, PGSIZE)` -/
def Machine.memset (m : Machine) (x : Frame) (c : UInt8) : Machine :=
  { m with mem := update m.mem x fun _ => c }

def kfree (m : Machine) (x : Frame) : Except Halt Machine :=
  if x < m.image.kend ∨ 0xE000 ≤ x then throw (.panic "kfree")
  else
    let m := m.memset x 1
    pure { m with kmem := { m.kmem with freelist := x :: m.kmem.freelist } }

/-- `kfree` under a test that may keep the frame. -/
def kfreeUnless (keep : Bool) (m : Machine) (x : Frame) : Except Halt Machine :=
  if keep then pure m else kfree m x

def Machine.setCount (m : Machine) (x : Frame) (c : Nat) : Machine :=
  { m with counts := update m.counts x c }

def Machine.incCount (m : Machine) (x : Frame) : Machine :=
  if m.counts x < 255 then m.setCount x (m.counts x + 1) else m

def Machine.decCount (m : Machine) (x : Frame) : Machine :=
  if 0 < m.counts x then m.setCount x (m.counts x - 1) else m

def Machine.getCount (m : Machine) (x : Frame) : Nat := m.counts x

def Machine.lcr3 (m : Machine) (pgdir : Frame) : Machine := { m with cr3 := pgdir }

/-- `walkpgdir(pgdir, va, 1)`: the entry pointed to, with the directory and the
allocator it leaves. -/
def walkpgdir (a : Kmem) (d : PgDir) (va : Nat) : Option Pte × PgDir × Kmem :=
  match d.pde (pdx va) with
  | some t => (some (t.pte (ptx va)), d, a)
  | none =>
    match kalloc a with
    | (none, a) => (none, d, a)
    | (some x, a) =>
      (some Pte.zero,
        { d with pde := update d.pde (pdx va) (some ⟨x, fun _ => Pte.zero⟩) }, a)

/-- The loop of `mappages`, with `n` pages between `a` and `last`. The result says
whether all pages were mapped. -/
def mapLoop (perm : Flags) : Nat → Kmem → PgDir → Nat → Frame → Except Halt (Bool × PgDir × Kmem)
  | n, k, d, a, pa =>
    match walkpgdir k d a with
    | (none, d, k) => pure (false, d, k)
    | (some pte, d, k) =>
      if pte.p then throw (.panic "remap")
      else
        let d := d.setPte a (Pte.make pa perm)
        match n with
        | 0 => pure (true, d, k)
        | n + 1 => mapLoop perm n k d ((a + 4096) % 0x100000000) ((pa + 1) % 0x100000)

def mappages (k : Kmem) (d : PgDir) (va size : Nat) (pa : Frame) (perm : Flags) :
    Except Halt (Bool × PgDir × Kmem) :=
  let a := pgrounddown va
  let last := pgrounddown ((va + size + 0xFFFFFFFF) % 0x100000000)
  mapLoop perm ((last + 0x100000000 - a) % 0x100000000 / 4096) k d a pa

end Xv6
