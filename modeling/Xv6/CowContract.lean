import Xv6.CowSpec
import Xv6.RegionCalls

/-!
The contract of `handle_cow_fault` across all processes: when it succeeds, what the entry is
afterwards, and that nothing else can be seen to change as long as no free frame is mapped.
-/

namespace Xv6

open Function

/-- No process maps a free frame. The entries of the kernel half map all of memory; they are
left out unless they are open to user code. -/
def Kernel.FreeUnmapped (k : Kernel) : Prop :=
  ∀ q, (k.proc q).live → ∀ v, ((k.proc q).pgdir.entry v).p = true →
    v < 0x80000 ∨ ((k.proc q).pgdir.entry v).u = true →
      ((k.proc q).pgdir.entry v).ppn ∉ k.mach.kmem.freelist

def Kernel.CowServable (k : Kernel) (p : Fin NPROC) (va : Nat) : Prop :=
  let e := (k.proc p).pgdir.entry (va / 4096)
  va < (k.proc p).sz ∧ e.p = true ∧ e.u = true ∧ e.cow = true ∧ 1 ≤ k.mach.counts e.ppn ∧
    (k.mach.counts e.ppn = 1 ∨ k.mach.kmem.freelist ≠ [])

/-- Page `v` of process `p` was upgraded in place or copied to a new frame. -/
structure CowServed (k : Kernel) (p : Fin NPROC) (v : Nat) (k' : Kernel) : Prop where
  present : ((k'.proc p).pgdir.entry v).p = true
  user : ((k'.proc p).pgdir.entry v).u = true
  writable : ((k'.proc p).pgdir.entry v).w = true
  exclusive : ((k'.proc p).pgdir.entry v).cow = false
  bytes : k'.mach.mem ((k'.proc p).pgdir.entry v).ppn = k.mach.mem ((k.proc p).pgdir.entry v).ppn
  entry : ∀ u, u ≠ v → (k'.proc p).pgdir.entry u = (k.proc p).pgdir.entry u
  proc : ∀ q, q ≠ p → k'.proc q = k.proc q
  mem : ∀ q, (k.proc q).live → ∀ u < 0x80000, ((k.proc q).pgdir.entry u).p = true →
    k'.mach.mem ((k.proc q).pgdir.entry u).ppn = k.mach.mem ((k.proc q).pgdir.entry u).ppn
  inPlace : k.mach.counts ((k.proc p).pgdir.entry v).ppn = 1 →
    ((k'.proc p).pgdir.entry v).ppn = ((k.proc p).pgdir.entry v).ppn ∧
      k'.mach.counts = k.mach.counts ∧ k'.mach.kmem = k.mach.kmem
  copied : k.mach.counts ((k.proc p).pgdir.entry v).ppn ≠ 1 →
    k.mach.kmem.freelist = ((k'.proc p).pgdir.entry v).ppn :: k'.mach.kmem.freelist ∧
      k'.mach.counts ((k'.proc p).pgdir.entry v).ppn = 1 ∧
      k'.mach.counts ((k.proc p).pgdir.entry v).ppn + 1 =
        k.mach.counts ((k.proc p).pgdir.entry v).ppn ∧
      ∀ y, y ≠ ((k'.proc p).pgdir.entry v).ppn → y ≠ ((k.proc p).pgdir.entry v).ppn →
        k'.mach.counts y = k.mach.counts y

structure SameMemory (k k' : Kernel) : Prop where
  proc : k'.proc = k.proc
  counts : k'.mach.counts = k.mach.counts
  freelist : k'.mach.kmem.freelist = k.mach.kmem.freelist
  mem : k'.mach.mem = k.mach.mem

theorem cowRead_of_entry {m : Machine} {x : Proc} {va : Nat} (hva : va < 0x100000000) (hsz : va < x.sz)
    (hp : (x.pgdir.entry (va / 4096)).p = true) (hu : (x.pgdir.entry (va / 4096)).u = true)
    (hcow : (x.pgdir.entry (va / 4096)).cow = true)
    (hcount : 1 ≤ m.counts (x.pgdir.entry (va / 4096)).ppn) :
    cowRead m x va =
      some ((x.pgdir.entry (va / 4096)).ppn, m.counts (x.pgdir.entry (va / 4096)).ppn) := by
  unfold cowRead
  rw [if_neg (by omega), PgDir.walk_of_present hva hp]
  simp only [hp, hu, hcow, Bool.not_true, Bool.or_self, Bool.false_eq_true, if_false]
  exact if_neg (Nat.not_lt.mpr hcount)

theorem copied_machine {m : Machine} {pa : Frame} (hcount : 1 ≤ m.counts pa) (x : Frame) (a : Kmem)
    (pgdir : Frame) :
    let m' := ((({ m with kmem := a, mem := update m.mem x (m.mem pa) } : Machine).decCount
      pa).setCount x 1).lcr3 pgdir
    m'.mem = update m.mem x (m.mem pa) ∧
      m'.counts = update (update m.counts pa (m.counts pa - 1)) x 1 ∧ m'.kmem = a := by
  have hdec : ({ m with kmem := a, mem := update m.mem x (m.mem pa) } : Machine).decCount pa =
      ({ m with kmem := a, mem := update m.mem x (m.mem pa) } : Machine).setCount pa
        (m.counts pa - 1) := if_pos hcount
  rw [hdec]
  exact ⟨rfl, rfl, rfl⟩

section
variable {k k' : Kernel} {p : Fin NPROC} {va v : Nat} {d : PgDir} {m : Machine}

theorem CowResolved.served (hfree : k.FreeUnmapped) (hlive : (k.proc p).live)
    (hp : ((k.proc p).pgdir.entry v).p = true) (hu : ((k.proc p).pgdir.entry v).u = true)
    (hcount : 1 ≤ k.mach.counts ((k.proc p).pgdir.entry v).ppn)
    (h : CowResolved k.mach (k.proc p).pgdir v ((k.proc p).pgdir.entry v).ppn
      (k.mach.counts ((k.proc p).pgdir.entry v).ppn) true d m) :
    CowServed k p v ({ k with mach := m }.setProc p { k.proc p with pgdir := d }) := by
  have hself : ({ k with mach := m }.setProc p { k.proc p with pgdir := d }).proc p =
      { k.proc p with pgdir := d } := Kernel.proc_setProc_self ..
  have hothers : ∀ q, q ≠ p →
      ({ k with mach := m }.setProc p { k.proc p with pgdir := d }).proc q = k.proc q := fun q hq =>
    Kernel.proc_setProc_ne hq
  cases h with
  | upgraded hone hr =>
    have hentry : d.entry v = { (k.proc p).pgdir.entry v with w := true, cow := false } := by
      rw [hr.entry, if_pos rfl]
    refine ⟨?_, ?_, ?_, ?_, ?_, fun u hu => ?_, hothers, fun _ _ _ _ _ => rfl, fun _ => ⟨?_, rfl, rfl⟩,
      fun hne => (hne hone).elim⟩
    · rw [hself, hentry]
      exact hp
    · rw [hself, hentry]
      exact hu
    · rw [hself, hentry]
    · rw [hself, hentry]
    · rw [hself, hentry]
      rfl
    · rw [hself, hr.entry, if_neg hu]
    · rw [hself, hentry]
  | @copied _ x a hmany halloc hr =>
    obtain ⟨hlist, -⟩ := kalloc_some halloc
    -- the new frame is free, so no entry names it
    have hfresh : ∀ q, (k.proc q).live → ∀ u, ((k.proc q).pgdir.entry u).p = true →
        u < 0x80000 ∨ ((k.proc q).pgdir.entry u).u = true → ((k.proc q).pgdir.entry u).ppn ≠ x := by
      rintro q hq u hpu hmapped rfl
      exact hfree q hq u hpu hmapped (by rw [hlist]; exact List.mem_cons_self)
    have hne := hfresh p hlive v hp (Or.inr hu)
    have hentry : d.entry v =
        Pte.make x { ((k.proc p).pgdir.entry v).toFlags with w := true, cow := false } := by
      rw [hr.entry, if_pos rfl]
    have hppn : (d.entry v).ppn = x := by rw [hentry, Pte.make_ppn]
    obtain ⟨hmem, hcounts, hkmem⟩ := copied_machine hcount x a (k.proc p).pgdir.frame
    refine ⟨?_, ?_, ?_, ?_, ?_, fun u hu => ?_, hothers, fun q hq u hlow hpu => ?_,
      fun hone => (hmany hone).elim, fun _ => ?_⟩
    · rw [hself, hentry, Pte.make_p]
    · rw [hself, hentry]
      exact hu
    · rw [hself, hentry]
      rfl
    · rw [hself, hentry]
      rfl
    · rw [hself, hppn]
      exact (congrFun hmem x).trans (update_self ..)
    · rw [hself, hr.entry, if_neg hu]
    · exact (congrFun hmem _).trans (update_of_ne (hfresh q hq u hpu (Or.inl hlow)) ..)
    · rw [hself, hppn]
      refine ⟨hlist.trans (congrArg (x :: Kmem.freelist ·) hkmem.symm), ?_, ?_, fun y hy hy' => ?_⟩
      · exact (congrFun hcounts x).trans (update_self ..)
      · have hold := (congrFun hcounts _).trans (update_of_ne hne ..)
        rw [update_self] at hold
        exact (congrArg (· + 1) hold).trans (Nat.sub_add_cancel hcount)
      · have hold := (congrFun hcounts y).trans (update_of_ne hy ..)
        rwa [update_of_ne hy'] at hold

/-- `handle_cow_fault` returns, serves exactly the faults it can serve, and otherwise leaves
everything as it was. -/
theorem cow_fault_contract (hva : va < 0x100000000) (hfree : k.FreeUnmapped) (hlive : (k.proc p).live) :
    ∃ ok k', handleCowFault k p va = .ok (ok, k') ∧ (ok = true ↔ k.CowServable p va) ∧
      (ok = true → CowServed k p (va / 4096) k') ∧ (ok = false → SameMemory k k') := by
  rcases handleCowFault_spec k p hva with ⟨hcall, hread⟩ | ⟨pa, refCount, b, d, m, hread, hspec, hcall⟩
  · refine ⟨false, k, hcall, ⟨nofun, ?_⟩, nofun, fun _ => ⟨rfl, rfl, rfl, rfl⟩⟩
    rintro ⟨hsz, hp, hu, hcow, hcount, -⟩
    rw [cowRead_of_entry hva hsz hp hu hcow hcount] at hread
    cases hread
  refine ⟨b, _, hcall, ?_⟩
  obtain ⟨hsz, rfl, hcount, pte, hw, hp, hu, hcow, rfl⟩ := cowRead_some hread
  obtain rfl := PgDir.entry_of_walk hva hw
  cases b with
  | true =>
    refine ⟨⟨fun _ => ⟨hsz, hp, hu, hcow, hcount, ?_⟩, fun _ => rfl⟩,
      fun _ => hspec.served hfree hlive hp hu hcount, nofun⟩
    cases hspec with
    | upgraded hone _ => exact Or.inl hone
    | copied _ halloc _ =>
      refine Or.inr ?_
      rw [(kalloc_some halloc).1]
      exact List.cons_ne_nil _ _
  | false =>
    cases hspec with
    | starved hmany hempty =>
      refine ⟨⟨nofun, ?_⟩, nofun, fun _ => ⟨?_, rfl, rfl, rfl⟩⟩
      · rintro ⟨-, -, -, -, -, hone | hlist⟩
        · exact (hmany hone).elim
        · exact (hlist hempty).elim
      · exact update_eq_self p k.proc

end

def PgDir.onePage (v : Nat) (e : Pte) : PgDir :=
  ((PgDir.empty 300).addTable (v * 4096) 301).setPte (v * 4096) e

theorem PgDir.entry_onePage {v : Nat} (hv : v < 0x100000) (e : Pte) (u : Nat) :
    (PgDir.onePage v e).entry u = if u = v then e else Pte.zero := by
  rw [onePage, entry_setPte (by omega) (walk_addTable ..), Nat.mul_div_cancel v (by decide),
    entry_addTable 301 rfl, entry_empty]

/-- Process 0 runs and shares its only page, in frame 1024, with another. -/
def Kernel.sharing : Kernel :=
  { Kernel.fresh with
    mach := { Kernel.fresh.mach with kmem := ⟨[1025], false⟩, counts := fun _ => 2 } }.setProc 0
    { Proc.zero with
      state := .running, sz := 4096
      pgdir := PgDir.onePage 0 { p := true, u := true, cow := true, ppn := 1024 } }

theorem cow_fault_contract_copy : ∃ k', handleCowFault Kernel.sharing 0 5 = .ok (true, k') ∧
    CowServed Kernel.sharing 0 0 k' := by
  have hself : Kernel.sharing.proc 0 = { Proc.zero with
      state := .running, sz := 4096
      pgdir := PgDir.onePage 0 { p := true, u := true, cow := true, ppn := 1024 } } :=
    Kernel.proc_setProc_self ..
  have hfree : Kernel.sharing.FreeUnmapped := by
    intro q hq v hp _
    by_cases hq0 : q = 0
    · subst hq0
      rw [hself, PgDir.entry_onePage (by decide)] at hp ⊢
      split at hp
      · rename_i hv
        rw [if_pos hv]
        decide
      · cases hp
    · exact (hq (congrArg Proc.state (Kernel.proc_setProc_ne hq0))).elim
  obtain ⟨ok, k', hcall, hiff, hserved, -⟩ := cow_fault_contract (k := Kernel.sharing) (p := 0)
    (show 5 < 0x100000000 by decide) hfree (by rw [hself]; nofun)
  have hok : ok = true := by
    refine hiff.mpr ?_
    unfold Kernel.CowServable
    rw [hself, PgDir.entry_onePage (by decide)]
    exact ⟨by decide, rfl, rfl, rfl, by decide, Or.inr (List.cons_ne_nil _ _)⟩
  subst hok
  exact ⟨k', hcall, hserved rfl⟩

end Xv6
