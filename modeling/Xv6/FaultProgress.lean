import Xv6.CowContract
import Xv6.System
import Xv6.WindowSpec

/-!
When a page fault makes progress. A fault taken in user mode ends with the access
permitted or the process gone, except at an address of the window that no region covers:
there `trap` does nothing. A fault taken in the kernel has no second way out, so it must be
one the handlers can serve.
-/

namespace Xv6

variable {va : Nat} {k k' : Kernel} {p : Fin NPROC} {b user write : Bool} {d d' : PgDir}
  {i : Fin MAX_WMMAP_INFO}

/-- The handlers can serve a fault at `va`: a copy-on-write page with memory for the copy if
one is needed, or a page of a region, not the last one below the kernel, with memory for
the page and its table and with something to load. -/
def Kernel.Resolvable (k : Kernel) (p : Fin NPROC) (va : Nat) : Prop :=
  if va < 0x60000000 ∨ 0x80000000 ≤ va then
    va < (k.proc p).sz ∧
      let pte := (k.proc p).pgdir.entry (va / 4096)
      pte.p = true ∧ pte.u = true ∧ pte.cow = true ∧ 1 ≤ k.mach.counts pte.ppn ∧
        (k.mach.counts pte.ppn = 1 ∨ k.mach.kmem.freelist ≠ [])
  else
    ∃ i, (k.proc p).wmap.covering va = some i ∧ va < 0x7FFFF000 ∧
      k.Readable p (pgrounddown va) i ∧ k.mach.kmem.freelist ≠ [] ∧
      ((k.proc p).pgdir.walk (pgrounddown va) = none → k.mach.kmem.freelist.length ≠ 1)

theorem PgDir.permits_eq (d : PgDir) (write user : Bool) (hva : va < 0x100000000) :
    d.permits va write user = ((d.entry (va / 4096)).p && ((d.entry (va / 4096)).u || !user) &&
      ((d.entry (va / 4096)).w || !write)) := by
  unfold permits
  split
  · rename_i hw
    simp [entry_of_walk_none hva hw]
  · rename_i pte hw
    rw [entry_of_walk hva hw]

theorem PgDir.permits_congr (hva : va < 0x100000000)
    (h : d'.entry (va / 4096) = d.entry (va / 4096)) :
    d'.permits va write user = d.permits va write user := by
  rw [permits_eq d' write user hva, permits_eq d write user hva, h]

theorem CowResolved.permits {m m' : Machine} {pa : Frame} {refCount : Nat} (hva : va < 0x100000000)
    (hp : (d.entry (va / 4096)).p = true) (hu : (d.entry (va / 4096)).u = true)
    (h : CowResolved m d (va / 4096) pa refCount true d' m') : d'.permits va write user = true := by
  rw [PgDir.permits_eq d' write user hva]
  cases h with
  | upgraded _ hr => simp [hr.entry, hp, hu]
  | copied _ _ hr => simp [hr.entry, Pte.make, hu]

/-- `handle_cow_fault` succeeds on the faults it can serve and otherwise changes no entry. -/
theorem handleCowFault_resolves (write user : Bool) (hva : va < 0x100000000)
    (hw : va < 0x60000000 ∨ 0x80000000 ≤ va) (h : handleCowFault k p va = .ok (b, k')) :
    (b = true ∧ k.Resolvable p va ∧ (k'.proc p).pgdir.permits va write user = true) ∨
    (b = false ∧ ¬ k.Resolvable p va ∧
      (k'.proc p).pgdir.entry (va / 4096) = (k.proc p).pgdir.entry (va / 4096)) := by
  unfold Kernel.Resolvable
  rw [if_pos hw]
  rcases handleCowFault_spec k p hva with ⟨hr, hnone⟩ | ⟨pa, refCount, b', d, m, hread, hres, hr⟩
  · rw [hr] at h
    cases h
    refine Or.inr ⟨rfl, ?_, rfl⟩
    rintro ⟨hsz, hp, hu, hcow, hcount, -⟩
    unfold cowRead at hnone
    rw [if_neg (not_le.mpr hsz), PgDir.walk_of_present hva hp] at hnone
    simp [hp, hu, hcow, Machine.getCount, not_lt.mpr hcount] at hnone
  obtain ⟨hsz, rfl, hone, pte, hwalk, hp, hu, hcow, rfl⟩ := cowRead_some hread
  have he := PgDir.entry_of_walk hva hwalk
  rw [hr] at h
  cases h
  simp only [Kernel.proc_setProc_self, he]
  cases b with
  | true =>
    refine Or.inl ⟨rfl, ⟨hsz, hp, hu, hcow, hone, ?_⟩, ?_⟩
    · cases hres with
      | upgraded h1 _ => exact Or.inl h1
      | copied _ hk _ =>
        right
        rw [(kalloc_some hk).1]
        exact List.cons_ne_nil _ _
    · exact hres.permits hva (by rw [he]; exact hp) (by rw [he]; exact hu)
  | false =>
    cases hres with
    | starved h1 hf =>
      refine Or.inr ⟨rfl, ?_, he⟩
      rintro ⟨-, -, -, -, -, h2 | h2⟩
      · exact h1 h2
      · exact h2 hf

/-- `allocateAndMap` succeeds on the faults it can serve and otherwise leaves the entry of
the page as it was. -/
theorem allocateAndMap_resolves (write user : Bool) (hlo : 0x60000000 ≤ va) (hhi : va < 0x80000000)
    (hbase : (k.proc p).pgdir.KernelBase) (hcov : (k.proc p).wmap.covering va = some i)
    (h : allocateAndMap k p va 4096 i = .ok (b, k')) :
    (b = true ∧ k.Resolvable p va ∧ (k'.proc p).pgdir.permits va write user = true) ∨
    (b = false ∧ ¬ k.Resolvable p va ∧
      (k'.proc p).pgdir.entry (va / 4096) = (k.proc p).pgdir.entry (va / 4096)) := by
  have hva : pgrounddown va / 4096 = va / 4096 := by
    unfold pgrounddown
    omega
  unfold Kernel.Resolvable
  rw [if_neg (by omega)]
  simp only [hcov, Option.some.injEq, exists_eq_left']
  rcases allocateAndMap_spec hlo hhi hbase h with
    ⟨rfl, hlast, rfl⟩ | ⟨rfl, -, k1, done, hr⟩ | ⟨rfl, -, x, km, hu⟩ | ⟨rfl, hlt, x, km, hl⟩
  · refine Or.inr ⟨rfl, ?_, rfl⟩
    rintro ⟨hlt, -⟩
    omega
  · refine Or.inr ⟨rfl, ?_, ?_⟩
    · rintro ⟨-, -, hne, hone⟩
      rcases hr.short with hf | ⟨hf, hw⟩
      · exact hne hf
      · exact hone hw hf
    · rw [hr.unmapped.cleared.kept, congrArg (fun k => k.proc p) hr.starved.eq]
      intro hd
      have := (mem_pageRange (by unfold pgrounddown; omega)).mp (hr.pages _ hd)
      unfold pgrounddown at this
      omega
  · refine Or.inr ⟨rfl, fun hres => hu.unreadable hres.2.1, ?_⟩
    rw [hu.eq]
  · refine Or.inl ⟨rfl, ⟨hlt, hl.readable, ?_, ?_⟩, ?_⟩
    · rw [(kalloc_some hl.alloc).1]
      exact List.cons_ne_nil _ _
    · intro hw hlen
      rw [(kalloc_some hl.alloc).1, List.length_cons] at hlen
      exact hl.table hw (List.length_eq_zero_iff.mp (by omega))
    · rw [PgDir.permits_eq _ write user (by omega), hl.entry, if_pos hva.symm]
      simp [Pte.make]

theorem handleCowFault_proc (hva : va < 0x100000000) (h : handleCowFault k p va = .ok (b, k')) :
    (k'.proc p).state = (k.proc p).state ∧ (k'.proc p).killed = (k.proc p).killed ∧
      (k'.proc p).cowFault = (k.proc p).cowFault := by
  rcases handleCowFault_spec k p hva with ⟨hr, -⟩ | ⟨pa, refCount, b', d, m, -, -, hr⟩
  · rw [hr] at h
    cases h
    exact ⟨rfl, rfl, rfl⟩
  · rw [hr] at h
    cases h
    simp

theorem allocateAndMap_proc (hlo : 0x60000000 ≤ va) (hhi : va < 0x80000000)
    (hbase : (k.proc p).pgdir.KernelBase) (h : allocateAndMap k p va 4096 i = .ok (b, k')) :
    (k'.proc p).state = (k.proc p).state ∧ (k'.proc p).killed = (k.proc p).killed ∧
      (k'.proc p).cowFault = (k.proc p).cowFault := by
  rcases allocateAndMap_spec hlo hhi hbase h with
    ⟨-, -, rfl⟩ | ⟨-, -, k1, done, hr⟩ | ⟨-, -, x, km, hu⟩ | ⟨-, -, x, km, hl⟩
  · exact ⟨rfl, rfl, rfl⟩
  · rw [hr.unmapped.proc_self, congrArg (fun k => k.proc p) hr.starved.eq]
    exact ⟨rfl, rfl, rfl⟩
  · rw [hu.eq]
    exact ⟨rfl, rfl, rfl⟩
  · rw [hl.eq]
    simp

/-- A fault at an address of the window that no region covers. -/
def Kernel.Stray (k : Kernel) (p : Fin NPROC) (va : Nat) : Prop :=
  0x60000000 ≤ va ∧ va < 0x80000000 ∧ (k.proc p).wmap.covering va = none

/-- The `T_PGFLT` branch serves the fault, or leaves the entry as it was and kills the
process unless the address is a stray one. -/
theorem pageFault_resolves (write user : Bool) (hva : va < 0x100000000)
    (hbase : (k.proc p).pgdir.KernelBase) (h : pageFault k p va = .ok k') :
    (k'.proc p).state = (k.proc p).state ∧ (k'.proc p).cowFault = (k.proc p).cowFault ∧
    ((k.Resolvable p va ∧ ¬ k.Stray p va ∧ (k'.proc p).pgdir.permits va write user = true ∧
        (k'.proc p).killed = (k.proc p).killed) ∨
      (¬ k.Resolvable p va ∧
        (k'.proc p).pgdir.permits va write user = (k.proc p).pgdir.permits va write user ∧
        ((k'.proc p).killed = true ↔ (k.proc p).killed = true ∨ ¬ k.Stray p va))) := by
  have killed : ∀ k1 : Kernel, (setKilled k1 p).proc p = { k1.proc p with killed := true } :=
    fun k1 => by simp [setKilled]
  rcases pageFault_cases h with
    ⟨hw, b, k1, hc, rfl⟩ | ⟨hlo, hhi, hcov, rfl⟩ | ⟨hlo, hhi, i, b, k1, hcov, ha, rfl⟩
  · have hstray : ¬ k.Stray p va := fun hs => by
      obtain ⟨h1, h2, -⟩ := hs
      omega
    obtain ⟨hst, hkl, hcow⟩ := handleCowFault_proc hva hc
    rcases handleCowFault_resolves write user hva hw hc with
      ⟨rfl, hres, hp⟩ | ⟨rfl, hres, he⟩
    · exact ⟨hst, hcow, Or.inl ⟨hres, hstray, hp, hkl⟩⟩
    · rw [if_neg (by simp), killed]
      exact ⟨hst, hcow, Or.inr ⟨hres, PgDir.permits_congr hva he, by simp [hstray]⟩⟩
  · have hstray : k'.Stray p va := ⟨hlo, hhi, hcov⟩
    refine ⟨rfl, rfl, Or.inr ⟨?_, rfl, by simp [hstray]⟩⟩
    unfold Kernel.Resolvable
    rw [if_neg (by omega)]
    rintro ⟨i, hi, -⟩
    rw [hcov] at hi
    cases hi
  · have hstray : ¬ k.Stray p va := fun hs => by
      obtain ⟨-, -, hn⟩ := hs
      rw [hcov] at hn
      cases hn
    obtain ⟨hst, hkl, hcow⟩ := allocateAndMap_proc hlo hhi hbase ha
    rcases allocateAndMap_resolves write user hlo hhi hbase hcov ha with
      ⟨rfl, hres, hp⟩ | ⟨rfl, hres, he⟩
    · exact ⟨hst, hcow, Or.inl ⟨hres, hstray, hp, hkl⟩⟩
    · rw [if_neg (by simp), killed]
      exact ⟨hst, hcow, Or.inr ⟨hres, PgDir.permits_congr hva he, by simp [hstray]⟩⟩

end Xv6
