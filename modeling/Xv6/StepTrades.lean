import Xv6.RegionTrades
import Xv6.SpaceTrades
import Xv6.Steps
import Xv6.ExecInput

/-!
Each step as one exchange between the pool and the user entries. Of every step it is said,
on the state before it, which entries can have their frames freed, which can disappear and
when frames can get lost.
-/

namespace Xv6

open Kernel

theorem Kernel.holding_enter (k : Kernel) (p : Fin NPROC) : (k.enter p).holding = k.holding :=
  holding_same (fun _ => Proc.SameSpace.refl _) rfl rfl

theorem Kernel.holding_leave (k : Kernel) (p : Fin NPROC) : (k.leave p).holding = k.holding :=
  holding_same (fun _ => Proc.SameSpace.refl _) rfl rfl

theorem holding_of_proc {k k' : Kernel} (p : Fin NPROC) (hother : ∀ q, q ≠ p → k'.proc q = k.proc q)
    (hlive : (k'.proc p).live ↔ (k.proc p).live) (hstack : (k'.proc p).kstack = (k.proc p).kstack)
    (hpgdir : (k'.proc p).pgdir = (k.proc p).pgdir) (hk : k'.kpgdir = k.kpgdir)
    (hfree : k'.mach.kmem.free = k.mach.kmem.free) : k'.holding = k.holding := by
  refine holding_same (fun q => ?_) hk hfree
  by_cases hq : q = p
  · subst hq
    exact .of_eq hlive hstack hpgdir
  · rw [hother q hq]
    exact Proc.SameSpace.refl _

theorem holding_setProc {k k1 : Kernel} {p : Fin NPROC} {x : Proc} (hproc : k1.proc = k.proc)
    (hk : k1.kpgdir = k.kpgdir) (hfree : k1.mach.kmem.free = k.mach.kmem.free)
    (hlive : x.live ↔ (k.proc p).live) (hstack : x.kstack = (k.proc p).kstack)
    (hpgdir : x.pgdir = (k.proc p).pgdir) : (k1.setProc p x).holding = k.holding := by
  refine holding_of_proc p (fun q hq => by rw [proc_setProc_ne hq, hproc]) ?_ ?_ ?_ hk hfree
  all_goals rwa [proc_setProc_self]

theorem Kernel.holding_dispatched {k : Kernel} {p : Fin NPROC} (h : (k.proc p).live) :
    (k.dispatched p).holding = k.holding := by
  refine holding_of_proc p (fun q hq => k.proc_dispatched_ne hq) ?_ ?_ ?_ rfl rfl
  all_goals rw [proc_dispatched_self]
  exact iff_of_true (by simp [Proc.live]) h

/-- Kernel code that runs on the CPU of a process. -/
theorem Trades.on_cpu {k k1 : Kernel} {p : Fin NPROC} {added : Multiset Frame}
    {Frees Drops : Fin NPROC → Nat → Prop} {Lossy : Prop}
    (h : Trades (k.enter p) k1 added Frees Drops Lossy) : Trades k (k1.leave p) added Frees Drops Lossy :=
  (h.after_same (k.holding_enter p)).then_same (k1.holding_leave p)

/-- The pages of the regions `wunmap(addr)` looks at. -/
def Kernel.StartsPage (k : Kernel) (p : Fin NPROC) (addr v : Nat) : Prop :=
  ∃ i, (k.proc p).wmap.startsAt addr = some i ∧ 0 < ((k.proc p).wmap.slot i).nLoaded ∧
    v ∈ ((k.proc p).wmap.slot i).pages

/-- The pages a fault at `va` gives up when memory runs out. -/
def Kernel.RetractsPage (k : Kernel) (p : Fin NPROC) (va v : Nat) : Prop :=
  0x60000000 ≤ va ∧ va < 0x80000000 ∧
    ∃ i, (k.proc p).wmap.covering va = some i ∧ k.Retracts p va i v

/-- The page of a copy-on-write fault that is not the last one on its frame. -/
def Kernel.SharedPage (k : Kernel) (p : Fin NPROC) (va v : Nat) : Prop :=
  (va < 0x60000000 ∨ 0x80000000 ≤ va) ∧ v = va / 4096 ∧
    k.mach.counts ((k.proc p).pgdir.entry v).ppn ≠ 1

/-- What a fault at `va` can do to the entries of `p`. -/
abbrev Kernel.FaultFrees (k : Kernel) (p : Fin NPROC) (va : Nat) (q : Fin NPROC) (v : Nat) : Prop :=
  q = p ∧ (k.proc p).wmap.isChild = false ∧ k.RetractsPage p va v ∧
    ((k.proc p).pgdir.entry v).p = true

abbrev Kernel.FaultDrops (k : Kernel) (p : Fin NPROC) (va : Nat) (q : Fin NPROC) (v : Nat) : Prop :=
  q = p ∧ (k.RetractsPage p va v ∨ k.SharedPage p va v)

abbrev Kernel.FaultLossy (k : Kernel) (p : Fin NPROC) (va : Nat) : Prop :=
  0x60000000 ≤ va ∧ va < 0x80000000 ∧
    ∃ i, (k.proc p).wmap.covering va = some i ∧ ¬ k.Readable p (pgrounddown va) i

def Act.Frees (k : Kernel) : Act → Fin NPROC → Nat → Prop
  | exec p _ _ _ _, q, v => q = p ∧ v < 0x80000 ∧ k.Uncounted p v
  | wait p, q, v => k.zombieChild p = some q ∧ v < 0x80000 ∧ k.Uncounted q v
  | sbrk p n, q, v => k.ResizeFrees p (addInt (k.proc p).sz n) q v
  | wunmap p addr, q, v => q = p ∧ (k.proc p).wmap.isChild = false ∧ k.StartsPage p addr v ∧
      ((k.proc p).pgdir.entry v).p = true
  | fault p va _ _, q, v => q = p ∧ (k.proc p).wmap.isChild = false ∧ k.RetractsPage p va v ∧
      ((k.proc p).pgdir.entry v).p = true
  | _, _, _ => False

def Act.Drops (k : Kernel) : Act → Fin NPROC → Nat → Prop
  | exec p _ _ _ _, q, v => q = p ∧ v < 0x80000
  | exit p, q, v => q = p ∧ k.RegionPage p v
  | wait p, q, v => k.zombieChild p = some q ∧ v < 0x80000
  | sbrk p n, q, v => k.ResizeDrops p (addInt (k.proc p).sz n) q v
  | wunmap p addr, q, v => q = p ∧ k.StartsPage p addr v
  | fault p va _ user, q, v => q = p ∧ (k.RetractsPage p va v ∨ k.SharedPage p va v ∨
      user = true ∧ ¬ k.Resolvable p va ∧ k.RegionPage p v)
  | cowResolve p user, q, v => q = p ∧ ∃ va pa refCount,
      (k.proc p).cowFault = some (va, pa, refCount) ∧ refCount ≠ 1 ∧
        (v = va / 4096 ∨ user = true ∧ k.mach.kmem.freelist = [] ∧ k.RegionPage p v)
  | _, _, _ => False

/-- The steps in which frames can get lost on the way: memory runs out, page tables carry
counts, a call of `exec` fails late, a page of a file cannot be read, or a process that was
killed before takes a fault. -/
def Act.Lossy (k : Kernel) : Act → Prop
  | fork _ => k.mach.kmem.free.card ≤ 1026
  | exec p ip _ argv _ => ¬ (ExecSafe k.fs k.mach.kmem ip argv ∧ k.holding.Safe ∧
      ∀ x ∈ (k.proc p).pgdir.tables, k.mach.counts x = 0)
  | wait p => ∃ q, k.zombieChild p = some q ∧
      ¬ ∀ x ∈ (k.proc q).pgdir.tables, k.mach.counts x = 0
  | sbrk p n => k.ResizeLossy p (addInt (k.proc p).sz n)
  | fault p va _ user => user = true ∧ (k.proc p).killed = true ∨ 0x60000000 ≤ va ∧ va < 0x80000000 ∧
      ∃ i, (k.proc p).wmap.covering va = some i ∧ ¬ k.Readable p (pgrounddown va) i
  | cowResolve p user => user = true ∧ (k.proc p).killed = true
  | _ => False

section
variable {k k1 k' : Kernel} {p : Fin NPROC}

theorem fork_trades {r : Option Nat} {Frees Drops : Fin NPROC → Nat → Prop} (hs : k.Sane)
    (hlive : (k.proc p).live) (h : fork k p = .ok (r, k')) :
    Trades k k' 0 Frees Drops (k.mach.kmem.free.card ≤ 1026) := by
  rcases fork_spec hlive (le_of_lt ((hs p).size hlive)) ((hs p).wmap hlive) h with
    ⟨-, rfl | ⟨np, hun, hempty, hk⟩⟩ | ⟨-, np, s, a, m, j, t, hf⟩ |
    ⟨-, np, s, a, a1, m, d, d1, done, hf⟩ | ⟨-, np, s, a, m, d, done, hf⟩
  · exact .of_eq rfl
  · refine fork_fail_trades 0 (fun q hq => ?_) (by rw [hk]; rfl) hun (by rw [hk]; simpa using hun)
      (by rw [hk, add_zero]; rfl) (by simp [Kmem.free, hempty])
    rw [hk, proc_setProc_ne hq]
    exact Proc.SameSpace.refl _
  · exact hf.trades
  · exact hf.trades
  · exact hf.trades hlive

theorem exec_trades {ip : Option Nat} {path : List UInt8} {argv : List (List UInt8)}
    {slept : Nat → Bool} {b : Bool} (hlive : (k.proc p).live)
    (h : exec k p ip path argv slept = .ok (b, k')) :
    ∃ added, Trades k k' added (fun q v => q = p ∧ v < 0x80000 ∧ k.Uncounted p v)
      (fun q v => q = p ∧ v < 0x80000)
      (¬ (ExecSafe k.fs k.mach.kmem ip argv ∧ k.holding.Safe ∧
        ∀ x ∈ (k.proc p).pgdir.tables, k.mach.counts x = 0)) := by
  rcases exec_spec h with ⟨rfl, hk, hf⟩ | ⟨rfl, m, d, sz, xs, hr⟩
  · refine ⟨0, (hf.trades hk).weaken (fun _ _ _ => Iff.rfl) (fun _ _ hd => hd) fun hne => ?_⟩
    rintro ⟨hsafe, -⟩
    rcases exec_safe hsafe h with hb | hsame
    · cases hb
    · exact hne hsame.1
  · exact ⟨_, (hr.trades hlive).weaken (fun _ _ _ => Iff.rfl) (fun _ _ hd => hd)
      fun hl hall => hl hall.2⟩

theorem wait_trades {r : Option Nat} (h : wait k p = .ok (r, k')) :
    Trades k k' 0 (fun q v => k.zombieChild p = some q ∧ v < 0x80000 ∧ k.Uncounted q v)
      (fun q v => k.zombieChild p = some q ∧ v < 0x80000)
      (∃ q, k.zombieChild p = some q ∧ ¬ ∀ x ∈ (k.proc q).pgdir.tables, k.mach.counts x = 0) := by
  rcases wait_spec h with rfl | ⟨q, s, hq, hz, hstack, hf, hk⟩
  · exact .of_eq rfl
  have hlive : (k.proc q).live := by
    unfold Proc.live
    rw [hz]
    decide
  have ht := reap_trades hlive hstack hf
    (fun r hr => by rw [hk, proc_setProc_ne hr]) (by rw [hk]; simp)
    ((congrArg Kernel.kpgdir hk).trans rfl)
  refine ht.weaken (fun r v _ => ?_) (fun r v hd => ?_) fun hl => ⟨q, hq, hl⟩
  · rw [hq, Option.some_inj]
    constructor
    all_goals
      rintro ⟨rfl, hrest⟩
      exact ⟨rfl, hrest⟩
  · rw [hq, Option.some_inj]
    exact ⟨hd.1.symm, hd.2⟩

theorem sysWunmap_spec {addr : Nat} {b : Bool} (hok : (k.proc p).wmap.Ok)
    (h : sysWunmap k p addr = .ok (b, k')) :
    ∃ done, Unmapped k p done k' ∧ ∀ v ∈ done, v < 0x80000 ∧ k.StartsPage p addr v := by
  unfold sysWunmap at h
  split at h
  · cases h
    exact ⟨[], Unmapped.refl _ p, by simp⟩
  · obtain ⟨done, hu, hpages⟩ := wunmap_spec hok h
    refine ⟨done, hu, fun v hv => ?_⟩
    obtain ⟨i, hi, hst, hload, hmem⟩ := hpages v hv
    exact ⟨((hok i hi).pages_window hmem).2, i, hst, hload, hmem⟩

theorem wunmap_trades {addr : Nat} {b : Bool} {Lossy : Prop} (hs : k.Sane)
    (hlive : (k.proc p).live) (h : sysWunmap k p addr = .ok (b, k')) :
    Trades k k' 0 (fun q v => q = p ∧ (k.proc p).wmap.isChild = false ∧ k.StartsPage p addr v ∧
        ((k.proc p).pgdir.entry v).p = true)
      (fun q v => q = p ∧ k.StartsPage p addr v) Lossy := by
  obtain ⟨done, hu, hpages⟩ := sysWunmap_spec ((hs p).wmap hlive) h
  exact hu.trades hlive (k.StartsPage p addr) hpages

theorem holding_setKilled : (setKilled k p).holding = k.holding :=
  holding_setProc rfl rfl rfl Iff.rfl rfl rfl

theorem Kernel.RegionPage.congr {v : Nat} (hw : (k'.proc p).wmap = (k.proc p).wmap) :
    k'.RegionPage p v → k.RegionPage p v := by
  unfold Kernel.RegionPage
  rw [hw]
  exact id

theorem Unmapped.regionPage {v : Nat} {done : List Nat} (h : Unmapped k p done k') :
    k'.RegionPage p v → k.RegionPage p v := by
  rintro ⟨i, hi, hv⟩
  obtain ⟨hi', he⟩ := h.active hi
  rw [he] at hv
  exact ⟨i, hi', hv⟩

/-- The page-fault branch. A handler that fails has taken no frame that is in use after
it, and has added no region. -/
theorem pageFault_trades {va : Nat} (hs : k.Sane) (hlive : (k.proc p).live)
    (hva : va < 0x100000000) (h : pageFault k p va = .ok k') :
    ∃ added, Trades k k' added (k.FaultFrees p va) (k.FaultDrops p va) (k.FaultLossy p va) ∧
      ((k'.proc p).killed = true → (k.proc p).killed = true ∨
        added = 0 ∧ ∀ v, k'.RegionPage p v → k.RegionPage p v) := by
  rcases pageFault_cases h with
    ⟨hw, b, k1, hc, rfl⟩ | ⟨hlo, hhi, hcov, rfl⟩ | ⟨hlo, hhi, i, b, k1, hcov, ha, rfl⟩
  · have hno : ∀ v, ¬ k.RetractsPage p va v := fun v hr => by
      obtain ⟨h1, h2, -⟩ := hr
      omega
    rcases handleCowFault_spec k p hva with ⟨hr, -⟩ | ⟨pa, rc, b', d, m, hread, hres, hr⟩
    · rw [hr] at hc
      cases hc
      refine ⟨0, .of_eq holding_setKilled, fun _ => Or.inr ⟨rfl, fun v => ?_⟩⟩
      exact Kernel.RegionPage.congr (by simp [setKilled])
    rw [hr] at hc
    cases hc
    obtain ⟨hlt, hrc, -, pte, hwalk, -, -, -, hpa⟩ := cowRead_some hread
    have hsz := (hs p).size hlive
    have he := PgDir.entry_of_walk hva hwalk
    generalize hk1 : ({ k with mach := m }.setProc p { k.proc p with pgdir := d } : Kernel) = k1
    have hself : k1.proc p = { k.proc p with pgdir := d } := by
      rw [← hk1, proc_setProc_self]
    obtain ⟨added, ht, hadd⟩ : ∃ added, Trades k k1 added (fun _ _ => False)
        (fun q u => q = p ∧ u = va / 4096 ∧ rc ≠ 1) False ∧ (b = false → added = 0) :=
      hres.trades hlive (by omega) (by rw [hself, ← hk1]) fun _ _ hf => hf
    have hwk : Trades k k1 added (k.FaultFrees p va) (k.FaultDrops p va) (k.FaultLossy p va) := by
      refine ht.weaken (fun q v _ => ⟨False.elim, fun hfr => hno v hfr.2.2.1⟩) ?_ False.elim
      intro q v hd
      exact ⟨hd.1, Or.inr ⟨hw, hd.2.1, by rw [hd.2.1, he, hpa, ← hrc]; exact hd.2.2⟩⟩
    cases b with
    | true =>
      refine ⟨added, hwk, fun hk => Or.inl ?_⟩
      rw [if_pos rfl, hself] at hk
      exact hk
    | false =>
      refine ⟨added, hwk.then_same holding_setKilled, fun _ => Or.inr ⟨hadd rfl, fun v => ?_⟩⟩
      exact Kernel.RegionPage.congr (by simp [setKilled, hself])
  · exact ⟨0, .of_eq rfl, fun hk => Or.inl hk⟩
  · have hbase := (hs p).base hlive
    obtain ⟨added, ht, hadd⟩ := allocateAndMap_trades hlive hlo hhi hbase ha
    have hwk : Trades k k1 added (k.FaultFrees p va) (k.FaultDrops p va) (k.FaultLossy p va) := ht.weaken
      (fun q v _ => by
        unfold Kernel.FaultFrees Kernel.RetractsPage
        simp only [hlo, hhi, hcov, true_and, Option.some_inj, exists_eq_left'])
      (fun q v hd => ⟨hd.1, Or.inl ⟨hlo, hhi, i, hcov, hd.2⟩⟩)
      (fun hl => ⟨hlo, hhi, i, hcov, hl⟩)
    obtain ⟨-, hkl, -⟩ := allocateAndMap_proc hlo hhi hbase ha
    cases b with
    | true => exact ⟨added, hwk, fun hk => Or.inl (hkl ▸ hk)⟩
    | false =>
      refine ⟨added, hwk.then_same holding_setKilled, fun _ => Or.inr ⟨hadd rfl, fun v hv => ?_⟩⟩
      have hv1 : k1.RegionPage p v := Kernel.RegionPage.congr (by simp [setKilled]) hv
      rcases allocateAndMap_spec hlo hhi hbase ha with
        ⟨-, -, rfl⟩ | ⟨-, -, k2, done, hr⟩ | ⟨-, -, x, km, hu⟩ | ⟨hb, -⟩
      · exact hv1
      · have hv2 := hr.unmapped.regionPage hv1
        exact Kernel.RegionPage.congr (by rw [hr.starved.proc]) hv2
      · exact Kernel.RegionPage.congr (by rw [hu.proc]) hv1
      · cases hb

theorem exit_trades {Frees : Fin NPROC → Nat → Prop} {Lossy : Prop} (hs : k.Sane) (hlive : (k.proc p).live)
    (hF : ∀ q v, ¬ Frees q v) (h : exit k p = .ok k') :
    Trades k k' 0 Frees (fun q v => q = p ∧ k.RegionPage p v) Lossy := by
  have hok := (hs p).wmap hlive
  obtain ⟨done, k1, he⟩ := exit_spec hok h
  have hchild := (hs p).child hlive he.notInit
  refine (he.trades hlive hok).weaken (fun q v _ => ⟨fun hf => ?_, fun hf => (hF q v hf).elim⟩)
    (fun _ _ hd => hd) id
  rw [hchild] at hf
  cases hf.2.1

theorem growproc_trades {n : Int} {b : Bool} (hs : k.Sane) (hlive : (k.proc p).live)
    (hlo : -0x80000000 ≤ n) (hhi : n < 0x80000000) (h : growproc k p n = .ok (b, k')) :
    ∃ added, Trades k k' added (k.ResizeFrees p (addInt (k.proc p).sz n))
      (k.ResizeDrops p (addInt (k.proc p).sz n)) (k.ResizeLossy p (addInt (k.proc p).sz n)) := by
  have hsz := (hs p).size hlive
  obtain ⟨m, d, sz, hr, hk⟩ := growproc_spec hsz hlo hhi h
  refine resized_trades hlive hsz hr ?_ hk
  split <;> rfl

theorem sysWmap_trades {addr : Nat} {length : Int} {flags : Nat} {fd : Int} {r : Option Nat}
    {Frees Drops : Fin NPROC → Nat → Prop} {Lossy : Prop}
    (h : sysWmap k p addr length flags fd = .ok (r, k')) : Trades k k' 0 Frees Drops Lossy := by
  rcases sysWmap_cases h with ⟨-, rfl⟩ | ⟨-, -, -, -, -, -, h⟩
  · exact .of_eq rfl
  obtain ⟨hk, -⟩ := wmap_spec h
  exact .of_eq ((congrArg Kernel.holding hk).trans (holding_setProc rfl rfl rfl Iff.rfl rfl rfl))

theorem pageFault_initproc {va : Nat} (hva : va < 0x100000000) (hbase : (k.proc p).pgdir.KernelBase)
    (h : pageFault k p va = .ok k') : k'.initproc = k.initproc := by
  have killed : ∀ (b : Bool) (k1 : Kernel), (if b then k1 else setKilled k1 p).initproc =
      k1.initproc := fun b k1 => by split <;> rfl
  rcases pageFault_cases h with
    ⟨hw, b, k1, hc, rfl⟩ | ⟨-, -, -, rfl⟩ | ⟨hlo, hhi, i, b, k1, -, ha, rfl⟩
  · rw [killed]
    rcases handleCowFault_spec k p hva with ⟨hr, -⟩ | ⟨pa, rc, b', d, m, -, -, hr⟩ <;>
      (rw [hr] at hc; cases hc; rfl)
  · rfl
  · rw [killed]
    rcases allocateAndMap_spec hlo hhi hbase ha with
      ⟨-, -, rfl⟩ | ⟨-, -, k2, done, hr⟩ | ⟨-, -, x, km, hu⟩ | ⟨-, -, x, km, hl⟩
    · rfl
    · exact hr.unmapped.initproc.trans hr.starved.initproc
    · exact hu.initproc
    · exact hl.initproc

/-- The end of a trap. Only the first process frees pages in the handler, and it never
exits. -/
theorem leaveTrap_trades {added : Multiset Frame} {user back : Bool}
    {Frees Drops : Fin NPROC → Nat → Prop} {Lossy Lossy' : Prop}
    (h : Trades k k1 added Frees Drops Lossy) (hs : k1.Sane) (hlive : (k1.proc p).live)
    (hF : p ≠ k1.initproc → ∀ q v, ¬ Frees q v) (hL : Lossy → Lossy')
    (hexit : (k1.proc p).killed = true → user = true → ¬ Lossy' →
      added = 0 ∧ ∀ v, k1.RegionPage p v → Drops p v)
    (hl : leaveTrap k1 p user = .ok (back, k')) : ∃ added, Trades k k' added Frees Drops Lossy' := by
  rcases leaveTrap_cases hl with ⟨-, hkilled, huser, he⟩ | ⟨-, -, rfl⟩
  · obtain ⟨done, k2, hexited⟩ := exit_spec ((hs p).wmap hlive) he
    have hdrop : Trades k1 k' 0 (fun _ _ => False) (fun q v => q = p ∧ k1.RegionPage p v) False :=
      exit_trades hs hlive (fun _ _ => id) he
    refine ⟨0, h.then_drop hdrop (hF hexited.notInit) (fun _ _ => id) hL fun hn => ?_⟩
    obtain ⟨hadd, hpages⟩ := hexit hkilled huser hn
    refine ⟨hadd, ?_⟩
    rintro q v ⟨rfl, hv⟩
    exact hpages v hv
  · exact ⟨added, h.weaken (fun _ _ _ => Iff.rfl) (fun _ _ => id) hL⟩

theorem CowResolved.cowDone_trades {v : Nat} {pa : Frame} {refCount : Nat} {b : Bool} {d : PgDir}
    {m : Machine} (hlive : (k.proc p).live) (hv : v < 0x80000)
    (h : CowResolved k.mach (k.proc p).pgdir v pa refCount b d m) :
    ∃ added, Trades k (k.cowDone p b d m) added (fun _ _ => False)
      (fun q u => q = p ∧ u = v ∧ refCount ≠ 1) False ∧ (b = false → added = 0) := by
  generalize hk1 : { k with mach := m }.setProc p { k.proc p with pgdir := d, cowFault := none } = k1
  have hself : k1.proc p = { k.proc p with pgdir := d, cowFault := none } := by
    rw [← hk1, proc_setProc_self]
  obtain ⟨added, ht, hadd⟩ : ∃ added, Trades k k1 added (fun _ _ => False)
      (fun q u => q = p ∧ u = v ∧ refCount ≠ 1) False ∧ (b = false → added = 0) :=
    h.trades hlive hv (by rw [hself, ← hk1]) fun _ _ => id
  refine ⟨added, ?_, hadd⟩
  unfold Kernel.cowDone
  dsimp only
  rw [hk1]
  split
  · exact ht
  · exact ht.then_same holding_setKilled

/-- Every step is an exchange, with what it frees, drops and can lose read off the state before
it. -/
theorem step_trades {a : Act} (hs : k.Sane) (h : Step k a k') :
    ∃ added, Trades k k' added (a.Frees k) (a.Drops k) (a.Lossy k) := by
  obtain ⟨hen, h⟩ := h
  cases perform_ok h with
  | @dispatch p =>
    have hrun : (k.proc p).state = .runnable := hen
    exact ⟨0, .of_eq (holding_dispatched (by simp [Proc.live, hrun]))⟩
  | @yield p =>
    have hready : k.ready p := hen
    exact ⟨0, .of_eq (holding_setProc rfl rfl rfl (iff_of_true (by simp [Proc.live]) hready.live) rfl rfl)⟩
  | @fork p _ _ hf =>
    have hready : k.ready p := hen
    exact ⟨0, (fork_trades (hs.enter p) hready.live hf).on_cpu⟩
  | @exec p _ _ _ _ _ _ hf =>
    have hready : k.ready p := hen
    obtain ⟨added, ht⟩ := exec_trades (k := k.enter p) hready.live hf
    rw [k.holding_enter p] at ht
    exact ⟨added, ht.on_cpu⟩
  | @exit p _ hf =>
    have hready : k.ready p := hen
    exact ⟨0, (exit_trades (hs.enter p) hready.live (fun _ _ => id) hf).on_cpu⟩
  | wait hf => exact ⟨0, (wait_trades hf).on_cpu⟩
  | @sbrk p _ _ _ hf =>
    obtain ⟨hready, hlo, hhi⟩ := hen
    obtain ⟨added, ht⟩ := growproc_trades (hs.enter p) hready.live hlo hhi hf
    exact ⟨added, ht.on_cpu⟩
  | wmap hf => exact ⟨0, (sysWmap_trades hf).on_cpu⟩
  | @wunmap p _ _ _ hf =>
    obtain ⟨hready, -⟩ := hen
    exact ⟨0, (wunmap_trades (hs.enter p) hready.live hf).on_cpu⟩
  | @fault p va write user _ k1 k2 hf hl =>
    obtain ⟨hready, hva, -⟩ := hen
    have hbase := (hs.enter p p).base hready.live
    obtain ⟨hst, -, hres⟩ := pageFault_resolves write user hva hbase hf
    obtain ⟨added, ht, hkill⟩ := pageFault_trades (hs.enter p) hready.live hva hf
    have ht' : Trades k k1 added ((Act.fault p va write user).Frees k)
        ((Act.fault p va write user).Drops k) _ :=
      (ht.after_same (k.holding_enter p)).weaken (fun _ _ _ => Iff.rfl)
        (fun q v hd => ⟨hd.1, hd.2.elim Or.inl fun hd => Or.inr (Or.inl hd)⟩) id
    obtain ⟨added', hend⟩ : ∃ added, Trades k k2 added _ _ ((Act.fault p va write user).Lossy k) := by
      refine leaveTrap_trades ht' (sane_pageFault (hs.enter p) hready.live hready.2 hva hf)
        (by unfold Proc.live; rw [hst]; exact hready.live) ?_ Or.inr ?_ hl
      · rintro hinit q v ⟨-, hchild, -⟩
        rw [pageFault_initproc hva hbase hf] at hinit
        rw [(hs p).child hready.live hinit] at hchild
        cases hchild
      · intro hkilled huser hn
        rcases hkill hkilled with hbefore | ⟨hadd, hpages⟩
        · exact (hn (Or.inl ⟨huser, hbefore⟩)).elim
        · refine ⟨hadd, fun v hv => ⟨rfl, Or.inr (Or.inr ⟨huser, ?_, hpages v hv⟩)⟩⟩
          rcases hres with ⟨-, -, -, hsame⟩ | ⟨hno, -⟩
          · exact (hn (Or.inl ⟨huser, hsame.symm.trans hkilled⟩)).elim
          · exact hno
    exact ⟨added', hend.then_same (holding_leave _ p)⟩
  | cowRead hr => exact ⟨0, .of_eq (holding_setProc rfl rfl rfl Iff.rfl rfl rfl)⟩
  | @cowResolve p user va pa refCount b d m back k1 hf hres hl =>
    obtain ⟨hlive, hva, b', d', m', hres', hspec⟩ := hs.resolve hf (k.enter p).mach
    rw [hres] at hres'
    cases hres'
    have hdone := hspec.sane_cowDone (hs.enter p) hlive hva
    have hself : (((k.enter p).cowDone p b d m).proc p) = _ := proc_cowDone b d m
    obtain ⟨added, ht, hadd⟩ := hspec.cowDone_trades (k := k.enter p) hlive hva
    have ht' : Trades k ((k.enter p).cowDone p b d m) added
        ((Act.cowResolve p user).Frees k) ((Act.cowResolve p user).Drops k) False :=
      (ht.after_same (k.holding_enter p)).weaken (fun _ _ _ => Iff.rfl)
        (fun q v hd => ⟨hd.1, va, pa, refCount, hf, hd.2.2, Or.inl hd.2.1⟩) id
    obtain ⟨added', hend⟩ : ∃ added, Trades k k1 added _ _ ((Act.cowResolve p user).Lossy k) := by
      refine leaveTrap_trades ht' hdone (by rw [hself]; exact hlive) (fun _ _ _ => id) False.elim ?_ hl
      intro hkilled huser hn
      rw [hself] at hkilled
      cases b with
      | true => exact (hn ⟨huser, hkilled⟩).elim
      | false =>
        obtain ⟨hrc, hfree⟩ : refCount ≠ 1 ∧ k.mach.kmem.freelist = [] := by
          cases hspec with
          | starved hrc hfree => exact ⟨hrc, hfree⟩
        refine ⟨hadd rfl, fun v hv => ?_⟩
        refine ⟨rfl, va, pa, refCount, hf, hrc, Or.inr ⟨huser, hfree, ?_⟩⟩
        exact Kernel.RegionPage.congr (k := k) (by rw [hself]; rfl) hv
    exact ⟨added', hend.then_same (holding_leave _ p)⟩
  | store _ => exact ⟨0, .same (fun _ => Proc.SameSpace.refl _) rfl rfl⟩
  | files => exact ⟨0, .of_eq (holding_setProc rfl rfl rfl Iff.rfl rfl rfl)⟩

end

end Xv6
