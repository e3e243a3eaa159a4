import Mathlib.Logic.Function.Basic
import Mathlib.Data.Fintype.Basic

/-!
Address arithmetic of the 32-bit machine and the outcomes of kernel code.
Addresses are natural numbers below 2^32; every sum that the source forms in
`uint` is reduced where it is formed. Frames are physical page numbers.
-/

namespace Xv6

/-- A physical page number, `PPN(pa)`. -/
abbrev Frame := Nat

abbrev NPROC : Nat := 64

/-- Slots of a region table. -/
abbrev MAX_WMMAP_INFO : Nat := 16

abbrev NOFILE : Nat := 16

instance : @NeZero Nat Zero.ofOfNat0 NPROC := ⟨by decide⟩

instance : @NeZero Nat Zero.ofOfNat0 NOFILE := ⟨by decide⟩

/-- Why a piece of kernel code does not return to its caller. `sleeps` is a wait
for an inode lock that is held, `undefined` a dereference C gives no meaning to,
`diverges` a loop that never reaches its bound. -/
inductive Halt where
  | panic (msg : String)
  | sleeps
  | undefined
  | diverges
deriving DecidableEq, Repr

def pdx (va : Nat) : Nat := va / 0x400000 % 1024

def ptx (va : Nat) : Nat := va / 4096 % 1024

def pgroundup (sz : Nat) : Nat := (sz + 4095) % 0x100000000 / 4096 * 4096

def pgrounddown (a : Nat) : Nat := a / 4096 * 4096

/-- `PGADDR(PDX(a) + 1, 0, 0)`: the first address behind the directory entry of `a`. -/
def nextDir (a : Nat) : Nat := (pdx a + 1) * 0x400000 % 0x100000000

/-- Pages a loop `for(; a < bound; a += PGSIZE)` visits. -/
def pagesTo (a bound : Nat) : Nat := (bound - a + 4095) / 4096

/-- Sum of an unsigned and a signed 32-bit value, as `uint`. -/
def addInt (a : Nat) (n : Int) : Nat := (((a : Int) + n) % 0x100000000).toNat

end Xv6
