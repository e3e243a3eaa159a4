import Xv6.Process

/-!
The memory-mapping calls of `vm.c` and their entry points in `sysproc.c`. A call
that can answer FAILED returns a Boolean, or an optional address for `wmap`.
-/

namespace Xv6

/-- `vasIntersect`, with the sums of address and length in `uint`. -/
def vasIntersect (addr1 : Nat) (length1 : Int) (addr2 : Nat) (length2 : Int) : Bool :=
  if length1 ≤ 0 ∨ length2 ≤ 0 then false
  else if addInt addr1 length1 ≤ addr2 ∨ addInt addr2 length2 ≤ addr1 then false
  else true

theorem toNat_lt_nofile {fd : Int} (h : 0 ≤ fd ∧ fd < NOFILE) : fd.toNat < NOFILE := by
  omega

/-- The pointer `p->ofile[fd]`. Index -1 reads the field in front of the array, `killed`,
which is the null pointer while the process has not been killed. -/
def Proc.fdget (x : Proc) (fd : Int) : Except Halt (Option Nat) :=
  if h : 0 ≤ fd ∧ fd < NOFILE then pure (x.ofile ⟨fd.toNat, toNat_lt_nofile h⟩)
  else if fd = -1 ∧ x.killed = false then pure none
  else throw .undefined

/-- `duplicateFd`: the new descriptor, or -1. -/
def duplicateFd (k : Kernel) (p : Fin NPROC) (fd : Int) : Except Halt (Int × Kernel) :=
  if h : 0 ≤ fd ∧ fd < NOFILE then
    match (k.proc p).ofile ⟨fd.toNat, toNat_lt_nofile h⟩ with
    | none => pure (-1, k)
    | some f =>
      match (List.finRange NOFILE).find? fun i => ((k.proc p).ofile i).isNone with
      | none => pure (-1, k)
      | some i => do
          let x := { k.proc p with ofile := Function.update (k.proc p).ofile i (some f) }
          let fs ← filedup k.fs f
          pure (i.val, { k with fs := fs }.setProc p x)
  else pure (-1, k)

/-- The scan of `wmap` over the slots: the first free slot, none when the new range meets
a region. -/
def findSpot (w : Wmap) (addr : Nat) (length : Int) :
    List (Fin MAX_WMMAP_INFO) → Option (Fin MAX_WMMAP_INFO) →
      Option (Option (Fin MAX_WMMAP_INFO))
  | [], spot => some spot
  | i :: is, spot =>
    if (w.slot i).isEmpty then findSpot w addr length is (spot <|> some i)
    else if vasIntersect addr length (w.slot i).addr (w.slot i).length then none
    else findSpot w addr length is spot

/-- What `wmap` does to the region table of its caller, once the descriptor to store is
known. -/
def Wmap.add (w : Wmap) (addr : Nat) (length : Int) (fileBacked : Bool) (fd : Int) : Option Wmap :=
  if w.total = MAX_WMMAP_INFO then none
  else
    match findSpot w addr length (List.finRange MAX_WMMAP_INFO) none with
    | some (some i) => some (w.update i ⟨addr, length, 0, fileBacked, fd⟩ (w.total + 1))
    | _ => none

def storedFd (k : Kernel) (p : Fin NPROC) (fd : Int) : Except Halt (Int × Kernel) :=
  if 0 ≤ fd then duplicateFd k p fd else pure (-1, k)

/-- `wmap`; `MAP_ANONYMOUS` is 4. -/
def wmap (k : Kernel) (p : Fin NPROC) (addr : Nat) (length : Int) (flags : Nat) (fd : Int) :
    Except Halt (Option Nat × Kernel) := do
  let fileBacked := flags &&& 4 = 0
  let (fdToStore, k) ← storedFd k p fd
  let x := k.proc p
  match x.wmap.add addr length fileBacked fdToStore with
  | none => pure (none, k)
  | some w => pure (some addr, k.setProc p { x with wmap := w })

/-- `sys_wmap` on fetched arguments; `MAP_FIXED` is 8, `MAP_SHARED` is 2. -/
def sysWmap (k : Kernel) (p : Fin NPROC) (addr : Nat) (length : Int) (flags : Nat) (fd : Int) :
    Except Halt (Option Nat × Kernel) :=
  if addr < 0x60000000 ∨ 0x80000000 < addInt addr length then pure (none, k)
  else if flags &&& 8 = 0 then pure (none, k)
  else if flags &&& 2 = 0 then pure (none, k)
  else if addr % 4096 ≠ 0 then pure (none, k)
  else if length ≤ 0 then pure (none, k)
  else wmap k p addr length flags fd

def Machine.page (m : Machine) (x : Frame) : List UInt8 := (List.range 4096).map (m.mem x)

/-- The write-back of `dellocateAndUnmap` for the page at `a` in frame `x`; false is the
return FAILED. -/
def writeBack (p : Fin NPROC) (i : Fin MAX_WMMAP_INFO) (k : Kernel) (a : Nat) (x : Frame) :
    Except Halt (Bool × Files) :=
  let r := (k.proc p).wmap.slot i
  if r.fileBacked then do
    match ← (k.proc p).fdget r.fd with
    | none => pure (false, k.fs)
    | some f =>
      let offset := (a + 0x100000000 - r.addr) % 0x100000000
      filewrite (k.fs.setFile f { k.fs.file f with off := offset }) f (k.mach.page x)
  else pure (true, k.fs)

/-- `dellocateAndUnmap` at a present entry of process `p`; false is the return FAILED. -/
def unmapPage (p : Fin NPROC) (i : Fin MAX_WMMAP_INFO) (k : Kernel) (a : Nat) (pte : Pte) :
    Except Halt (Kernel × Bool) :=
  if pte.ppn = 0 then throw (.panic "kfree")
  else do
    let (ok, fs) ← writeBack p i k a pte.ppn
    if ok then do
      let x := k.proc p
      let m ← kfreeUnless x.wmap.isChild k.mach pte.ppn
      pure ({ k with mach := m, fs := fs }.setProc p
        { x with pgdir := x.pgdir.setPte a Pte.zero }, true)
    else pure ({ k with fs := fs }, false)

/-- The page loop of `dellocateAndUnmap`, made only when pages were loaded. From an address
that is not on a page boundary, the jump behind an absent table can cost a turn. -/
def unmapPages (k : Kernel) (p : Fin NPROC) (addr bound : Nat) (i : Fin MAX_WMMAP_INFO) :
    Except Halt (Kernel × Bool) :=
  if 0 < ((k.proc p).wmap.slot i).nLoaded then
    sweep (fun k => (k.proc p).pgdir) (unmapPage p i) (pagesTo addr bound + 1) k addr bound
  else pure (k, true)

def dellocateAndUnmap (k : Kernel) (p : Fin NPROC) (addr : Nat) (length : Int)
    (i : Fin MAX_WMMAP_INFO) : Except Halt (Bool × Kernel) := do
  let (k, go) ← unmapPages k p addr (addInt addr length) i
  if go then
    let x := k.proc p
    pure (true, k.setProc p { x with wmap := x.wmap.update i Region.empty (x.wmap.total - 1) })
  else pure (false, k)

/-- The scan of `wunmap`: the first region that starts at `addr`. -/
def Wmap.startsAt (w : Wmap) (addr : Nat) : Option (Fin MAX_WMMAP_INFO) :=
  (List.finRange MAX_WMMAP_INFO).find? fun i => !(w.slot i).isEmpty && (w.slot i).addr = addr

def wunmap (k : Kernel) (p : Fin NPROC) (addr : Nat) : Except Halt (Bool × Kernel) :=
  if (k.proc p).wmap.total = 0 then pure (true, k)
  else
    match (k.proc p).wmap.startsAt addr with
    | none => pure (false, k)
    | some i => dellocateAndUnmap k p addr ((k.proc p).wmap.slot i).length i

/-- `sys_wunmap` on a fetched argument. -/
def sysWunmap (k : Kernel) (p : Fin NPROC) (addr : Nat) : Except Halt (Bool × Kernel) :=
  if addr < 0x60000000 ∨ 0x80000000 < addr then pure (false, k) else wunmap k p addr

/-- The part of `allocateAndMap` that fills the new frame of a file-backed region. False
is the return FAILED; on an empty read the inode stays locked. -/
def loadPage (k : Kernel) (p : Fin NPROC) (a : Nat) (i : Fin MAX_WMMAP_INFO) (mem : Frame) :
    Except Halt (Bool × Kernel) := do
  let r := (k.proc p).wmap.slot i
  if r.fileBacked then
    match ← (k.proc p).fdget r.fd with
    | none => pure (false, k)
    | some f => do
        let ip := (k.fs.file f).ip
        let fs ← ilock k.fs ip
        let (n, fs) := readi fs ip ((a + 0x100000000 - r.addr) % 0x100000000) 4096
        let k := { k with fs := fs, mach := k.mach.write mem 0 (n.getD []) }
        if n = some [] then pure (false, k)
        else do
          let fs ← iunlock k.fs ip
          pure (true, { k with fs := fs })
  else pure (true, k)

/-- The loop of `allocateAndMap`, with `n` pages to go from `a`. -/
def mapRegion (p : Fin NPROC) (i : Fin MAX_WMMAP_INFO) (endAddr : Nat) :
    Nat → Kernel → Nat → Except Halt (Bool × Kernel)
  | 0, k, _ => pure (true, k)
  | n + 1, k, a =>
    match kalloc k.mach.kmem with
    | (none, km) => do
        let (_, k) ← dellocateAndUnmap { k with mach := { k.mach with kmem := km } } p endAddr a i
        pure (false, k)
    | (some mem, km) => do
        let k := { k with mach := { k.mach with kmem := km }.memset mem 0 }
        let (loaded, k) ← loadPage k p a i mem
        if !loaded then pure (false, k)
        else do
          let x := k.proc p
          let (ok, d, km) ← mappages k.mach.kmem x.pgdir a 4096 mem
            { w := true, u := true, p := true }
          let k := { k with mach := { k.mach with kmem := km } }.setProc p { x with pgdir := d }
          if !ok then do
            let m ← kfree k.mach mem
            let (_, k) ← dellocateAndUnmap { k with mach := m } p endAddr a i
            pure (false, k)
          else
            let x := k.proc p
            let r := x.wmap.slot i
            let w := x.wmap.update i { r with nLoaded := r.nLoaded + 1 } x.wmap.total
            mapRegion p i endAddr n (k.setProc p { x with wmap := w }) (a + 4096)

def allocateAndMap (k : Kernel) (p : Fin NPROC) (addr length : Nat) (i : Fin MAX_WMMAP_INFO) :
    Except Halt (Bool × Kernel) :=
  let a := pgrounddown addr
  let endAddr := (a + pgroundup length) % 0x100000000
  if 0x80000000 ≤ endAddr then pure (false, k)
  else mapRegion p i endAddr (pagesTo a endAddr) k a

/-- The inner loop of `copyWmap`, with `n` pages to go from `a`: whether every present
page of the parent was mapped in the child. -/
def copyRegion (parent : PgDir) : Nat → Kmem → PgDir → Nat → Except Halt (Bool × PgDir × Kmem)
  | 0, k, d, _ => pure (true, d, k)
  | n + 1, k, d, a =>
    match parent.walk a with
    | none => copyRegion parent n k d ((a + 4096) % 0x100000000)
    | some pte =>
      if pte.p then
        if pte.ppn = 0 then throw (.panic "copyWmap: kfree")
        else do
          let (ok, d, k) ← mappages k d a 4096 pte.ppn pte.toFlags
          if ok then copyRegion parent n k d ((a + 4096) % 0x100000000)
          else pure (false, d, k)
      else copyRegion parent n k d ((a + 4096) % 0x100000000)

/-- The outer loop of `copyWmap` over the slots of the parent. -/
def copySlots (parent child : Fin NPROC) :
    List (Fin MAX_WMMAP_INFO) → Kernel → Except Halt (Bool × Kernel)
  | [], k => pure (true, k)
  | i :: is, k =>
    let x := k.proc parent
    let r := x.wmap.slot i
    if r.isEmpty then copySlots parent child is k
    else do
      let bound := (r.addr + pgroundup (addInt 0 r.length)) % 0x100000000
      let y := k.proc child
      let (ok, d, km) ←
        copyRegion x.pgdir (pagesTo r.addr bound) k.mach.kmem y.pgdir r.addr
      let k := { k with mach := { k.mach with kmem := km } }
      if ok then
        copySlots parent child is
          (k.setProc child { y with pgdir := d, wmap := y.wmap.update i r x.wmap.total })
      else pure (false, k.setProc child { y with pgdir := d })

def copyWmap (k : Kernel) (parent child : Fin NPROC) : Except Halt (Bool × Kernel) :=
  copySlots parent child (List.finRange MAX_WMMAP_INFO) k

end Xv6
