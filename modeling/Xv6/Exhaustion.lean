import Xv6.UnmapFailure

/-!
The clean-up of `allocateAndMap` when memory has run out. It unmaps from the page behind the
faulting one, but takes the address of that page for the length of the range, so that the
loop leaves the region and ends in the kernel half. `examined` records which entries it reads.
-/

namespace Xv6

open Lib Kernel

section
variable {σ : Type} (dir : σ → PgDir) (body : σ → Nat → Pte → Except Halt (σ × Bool))

variable {dir body}

section
variable {mid bound : Nat} (top : Nat) (htop : top % 0x400000 = 0) (hhigh : top < 0xFFC00000)
include htop hhigh

end

end

section
variable {k k1 k' : Kernel} {p : Fin NPROC} {i : Fin MAX_WMMAP_INFO} {va a : Nat}

theorem FaultsIn.ok (h : FaultsIn k p i va) : ((k.proc p).wmap.slot i).Ok := by
  obtain ⟨h1, h2, h3⟩ := h.window
  change (0x60000000 : Int) ≤ ((k.proc p).wmap.slot i).addr at h1
  change 0 < ((k.proc p).wmap.slot i).length at h2
  change (((k.proc p).wmap.slot i).addr : Int) + ((k.proc p).wmap.slot i).length ≤ 0x80000000 at h3
  exact ⟨h.aligned, by omega, by omega, h2, by omega, Or.inl h3⟩

section
variable {fin : Nat} (hal : a % 4096 = 0) (hlow : 0x60000000 ≤ a) (hhigh : a < 0x7FFFF000)
  (hfin : fin ≤ 0x80000000) (hn : 0 < ((k.proc p).wmap.slot i).nLoaded)
include hal hlow hhigh hfin hn

end

end

section
variable {d : PgDir} {n : Int}

end

end Xv6
