import Xv6.LazyLoad

/-!
A page-in that fails although memory has not run out. On the last page below the kernel it
has taken nothing yet. On a page that cannot be read, it has taken a frame that it does not
give back, and when the read came back empty it has locked the inode as well.
-/

namespace Xv6

/-- A failed page-in of process `p` has given back what it took: no inode is locked that was
not locked before, the free list has its frames, and the process, killed for the fault, gets
through `exit` if it would have without the attempt. -/
structure Released (k : Kernel) (p : Fin NPROC) (k' : Kernel) : Prop where
  locks : ∀ j, (k'.fs.inode j).locked = true → (k.fs.inode j).locked = true
  free : k'.mach.kmem.free = k.mach.kmem.free
  exits : (∃ k1, exit (setKilled k p) p = .ok k1) → ∃ k1, exit (setKilled k' p) p = .ok k1

theorem Released.refl (k : Kernel) (p : Fin NPROC) : Released k p k :=
  ⟨fun _ h => h, rfl, fun h => h⟩

section
variable {k k' : Kernel} {p : Fin NPROC} {i : Fin MAX_WMMAP_INFO} {va : Nat}

/-- The frame of a page that could not be read is missing from the free list. -/
theorem Unread.not_released {a : Nat} {x : Frame} {km : Kmem} (h : Unread k p a i k' x km) :
    ¬ Released k p k' := by
  intro hr
  have hk : k'.mach.kmem = km := congrArg (fun k => k.mach.kmem) h.eq
  have hcard := congrArg Multiset.card hr.free
  rw [hk, free_kalloc h.alloc, Multiset.card_cons] at hcard
  omega

/-- A page-in that does not run out of memory gives back what it took, if it fails, exactly
when the page is the last one below the kernel or can be read. -/
theorem pageIn_released_iff {b : Bool} (hva : va < 0x80000000)
    (hmem : ∀ k1, ¬ OutOfMemory k p (pgrounddown va) i k1)
    (h : allocateAndMap k p va 4096 i = .ok (b, k')) :
    (b = false → Released k p k') ↔ 0x7FFFF000 ≤ va ∨ k.Readable p (pgrounddown va) i := by
  by_cases hlast : 0x7FFFF000 ≤ va
  · rw [allocateAndMap_last hlast hva] at h
    cases h
    exact ⟨fun _ => Or.inl hlast, fun _ _ => Released.refl k p⟩
  rcases allocateAndMap_outcome (Nat.lt_of_not_le hlast) h with
    ⟨-, k1, -, hout, -⟩ | ⟨hb, x, km, hun⟩ | ⟨hb, x, km, hl⟩
  · exact (hmem k1 hout).elim
  · refine ⟨fun hr => (hun.not_released (hr hb)).elim, ?_⟩
    rintro (hlast' | hread)
    · exact (hlast hlast').elim
    · exact (hun.unreadable hread).elim
  · rw [hb]
    exact ⟨fun _ => Or.inr hl.readable, nofun⟩

end

/-- Two frames are free, and process 0 has mapped one page of an empty file at `addr`. -/
def Kernel.emptyFile (addr : Nat) : Kernel :=
  { Kernel.fresh with
    mach := { Kernel.fresh.mach with kmem := ⟨[1024, 1025], false⟩ }
    initproc := 1
    fs := { Kernel.fresh.fs with
      file := fun _ => { type := .inode, ref := 1, readable := true, writable := true, ip := some 1 }
      inode := fun _ => { ref := 1, type := 2, nlink := 1 } } }.setProc 0
    { Proc.zero with
      state := .running
      ofile := Function.update (fun _ => none) 0 (some 0)
      cwd := some 2
      wmap := Wmap.init.update 0 ⟨addr, 4096, 0, true, 0⟩ 1 }

theorem pageIn_released_last :
    allocateAndMap (Kernel.emptyFile 0x7FFFF000) 0 0x7FFFF000 4096 0 =
      .ok (false, Kernel.emptyFile 0x7FFFF000) ∧
    Released (Kernel.emptyFile 0x7FFFF000) 0 (Kernel.emptyFile 0x7FFFF000) := by
  have hcall : allocateAndMap (Kernel.emptyFile 0x7FFFF000) 0 0x7FFFF000 4096 0 =
      .ok (false, Kernel.emptyFile 0x7FFFF000) := allocateAndMap_last le_rfl (by decide)
  have hmem : ∀ k1, ¬ OutOfMemory (Kernel.emptyFile 0x7FFFF000) 0 (pgrounddown 0x7FFFF000) 0 k1 := by
    intro k1 hout
    obtain ⟨-, hnil | ⟨hone, -⟩⟩ := hout.starved (by decide) (by decide)
    · cases hnil
    · cases hone
  exact ⟨hcall, (pageIn_released_iff (by decide) hmem hcall).mpr (Or.inl le_rfl) rfl⟩

/-- The fault on the first page of the empty file leaves the inode locked and the frame out of
the free list, and the killed process waits for the lock in `exit` for ever. -/
theorem pageIn_keeps_lock : ∃ k',
    allocateAndMap (Kernel.emptyFile 0x60000000) 0 0x60000000 4096 0 = .ok (false, k') ∧
    (∀ k1, ¬ OutOfMemory (Kernel.emptyFile 0x60000000) 0 0x60000000 0 k1) ∧
    ((Kernel.emptyFile 0x60000000).fs.inode 1).locked = false ∧ (k'.fs.inode 1).locked = true ∧
    (Kernel.emptyFile 0x60000000).mach.kmem.freelist = [1024, 1025] ∧
    k'.mach.kmem.freelist = [1025] ∧
    (∃ k1, exit (setKilled (Kernel.emptyFile 0x60000000) 0) 0 = .ok k1) ∧
    exit (setKilled k' 0) 0 = .error .sleeps := by
  refine ⟨_, rfl, ?_, rfl, rfl, rfl, rfl, ⟨_, rfl⟩, rfl⟩
  intro k1 hout
  obtain ⟨-, hnil | ⟨hone, -⟩⟩ := hout.starved (by decide) (by decide)
  · cases hnil
  · cases hone

end Xv6
