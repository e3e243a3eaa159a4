import Xv6.WriteBack

/-!
What a failing `wunmap` leaves behind. The page loop gives pages up one after the other and
stops at the first write-back that fails; nothing is taken back.
-/

namespace Xv6

open Lib Kernel

section
variable {σ : Type} (dir : σ → PgDir) (body : σ → Nat → Pte → Except Halt (σ × Bool)) {s : σ} {vs : List Nat}

end

section
variable {k k' : Kernel} {p : Fin NPROC} {i : Fin MAX_WMMAP_INFO} {addr : Nat}

end

theorem Wmap.ok_single {length nLoaded fd : Int} {fb : Bool} (hpos : 0 < length) (hlen : length ≤ 0x20000000) :
    (Wmap.init.update 0 ⟨0x60000000, length, nLoaded, fb, fd⟩ 1).Ok := by
  intro i hi
  have hi0 : i = 0 := by
    by_contra hne
    rw [Wmap.mem_active, Wmap.slot_update_ne hne] at hi
    cases hi
  subst hi0
  rw [Wmap.slot_update_self]
  refine ⟨show 0x60000000 % 4096 = 0 by decide, le_rfl, show 0x60000000 < 0x100000000 by decide, hpos, ?_,
    Or.inl ?_⟩
  · dsimp only
    omega
  · dsimp only
    omega

end Xv6
