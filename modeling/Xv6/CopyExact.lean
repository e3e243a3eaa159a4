import Xv6.CowContract
import Xv6.Supply

/-!
`copyWmap` on a parent whose regions are apart and a child with an empty table. As long as
there is a frame for every page table that the child lacks below a page of the parent, it
returns 0, and the window of the child is then that of the parent.
-/

namespace Xv6

open Finset

def PgDir.inhabited (d : PgDir) (i : Nat) : Bool :=
  (List.range 1024).any fun j => (d.entry (i * 1024 + j)).p

/-- The page tables of the window that `d` lacks for the pages of `parent`. -/
def PgDir.missing (d parent : PgDir) : Finset Nat :=
  (Finset.Ico 384 512).filter fun i => (d.pde i).isNone && parent.inhabited i

def PgDir.lacking (d : PgDir) (S : Finset Nat) : Finset Nat := S.filter fun i => (d.pde i).isNone

section
variable {d : PgDir} {va v : Nat}

theorem PgDir.inhabited_of_present (h : (d.entry v).p = true) : d.inhabited (v / 1024) = true := by
  refine List.any_eq_true.mpr ⟨v % 1024, List.mem_range.mpr (Nat.mod_lt v (by decide)), ?_⟩
  rwa [Nat.div_add_mod']

theorem PgDir.lacking_setPte (S : Finset Nat) (e : Pte) :
    (d.setPte va e).lacking S = d.lacking S := by
  refine filter_congr fun i _ => ?_
  have h := congrArg Option.isNone (isSome_pde_setPte d va e i)
  rw [Option.isNone_map, Option.isNone_map] at h
  rw [h]

theorem PgDir.lacking_addTable (S : Finset Nat) (x : Frame) :
    (d.addTable va x).lacking S = (d.lacking S).erase (pdx va) := by
  ext i
  rw [lacking, lacking, mem_erase, mem_filter, mem_filter]
  by_cases hi : i = pdx va
  · subst hi
    simp [addTable]
  · simp [addTable, hi]

theorem enoughOn_lacking (S : Finset Nat) :
    EnoughOn (fun v => v / 1024 ∈ S) fun k d => (d.lacking S).card ≤ k.freelist.length := by
  intro k d va pa perm henough hal hva hS habs
  cases hpde : d.pde (pdx va) with
  | some t =>
    have hw : d.walk va = some (t.pte (ptx va)) := by rw [PgDir.walk, hpde]; rfl
    have hz : (t.pte (ptx va)).p = false := by
      rw [← PgDir.entry_of_walk hva hw]
      exact habs
    refine ⟨_, _, mappages_of_walk k pa perm hva hal hw hz, ?_⟩
    dsimp only
    rw [PgDir.lacking_setPte]
    exact henough
  | none =>
    have hmem : pdx va ∈ d.lacking S := by
      rw [PgDir.lacking, mem_filter, hpde, pdx_eq hva]
      exact ⟨hS, rfl⟩
    have hcard := card_pos.mpr ⟨_, hmem⟩
    obtain ⟨x, a, hk⟩ : ∃ x a, kalloc k = (some x, a) := kalloc_total (by
      rw [Kmem.free, Multiset.coe_card]
      omega)
    obtain ⟨hlist, -⟩ := kalloc_some hk
    have hwalk : walkpgdir k d va = (some Pte.zero, d.addTable va x, a) := by
      unfold walkpgdir
      rw [hpde]
      dsimp only
      rw [hk]
      rfl
    refine ⟨(d.addTable va x).setPte va (Pte.make pa perm), a, ?_, ?_⟩
    · rw [mappages_page k d pa perm hva hal, mapLoop_eq, hwalk]
      rfl
    · dsimp only
      rw [PgDir.lacking_setPte, PgDir.lacking_addTable, card_erase_of_mem hmem]
      rw [hlist, List.length_cons] at henough
      omega

theorem PgDir.missing_eq (d parent : PgDir) :
    d.missing parent = d.lacking ((Finset.Ico 384 512).filter fun i => parent.inhabited i) := by
  rw [lacking, filter_filter, missing]
  refine filter_congr fun i _ => ?_
  rw [Bool.and_eq_true, and_comm]

theorem enoughFor_missing (parent : PgDir) :
    EnoughFor parent fun k d => (d.missing parent).card ≤ k.freelist.length := by
  simp only [PgDir.missing_eq]
  refine (enoughOn_lacking _).enoughFor fun v hlo hhi hp => ?_
  rw [mem_filter, mem_Ico]
  exact ⟨by omega, PgDir.inhabited_of_present hp⟩

end

/-- The regions of a table lie in the window and share no page, and the counter is right. -/
structure Wmap.Tidy (w : Wmap) : Prop where
  aligned : ∀ i ∈ w.active, (w.slot i).addr % 4096 = 0
  window : ∀ i ∈ w.active, InWindow (w.slot i).interval
  total : w.total = w.active.card
  apart : w.PagesApart

/-- A process with a tidy table whose present pages of the window are pages of regions. -/
structure Proc.Regular (x : Proc) : Prop where
  table : x.wmap.Tidy
  free : ∀ i, i ∉ x.wmap.active → x.wmap.slot i = Region.empty
  inside : ∀ v, 0x60000 ≤ v → v < 0x80000 → (x.pgdir.entry v).p = true →
    (x.pgdir.entry v).ppn ≠ 0 ∧ ∃ i ∈ x.wmap.active, v ∈ (x.wmap.slot i).pages

/-- A process as `fork` hands it to `copyWmap`. -/
structure Proc.Vacant (x : Proc) : Prop where
  total : x.wmap.total = 0
  slot : ∀ i, x.wmap.slot i = Region.empty
  window : ∀ v, 0x60000 ≤ v → v < 0x80000 → (x.pgdir.entry v).p = false

theorem Wmap.Tidy.ok {w : Wmap} (h : w.Tidy) : w.Ok := by
  intro i hi
  obtain ⟨hlow, hpos, hend⟩ := h.window i hi
  change (0x60000000 : Int) ≤ (w.slot i).addr at hlow
  change 0 < (w.slot i).length at hpos
  change ((w.slot i).addr : Int) + (w.slot i).length ≤ 0x80000000 at hend
  exact ⟨h.aligned i hi, by omega, by omega, hpos, by omega, Or.inl hend⟩

/-- The child `y'` has the regions and the window of the parent `x`; below and above the
window it is as before. -/
structure Proc.CopyOf (x y y' : Proc) : Prop where
  slot : y'.wmap.slot = x.wmap.slot
  total : y'.wmap.total = x.wmap.total
  entry : ∀ v, 0x60000 ≤ v → v < 0x80000 → (x.pgdir.entry v).p = true →
    y'.pgdir.entry v = x.pgdir.entry v
  none : ∀ v, 0x60000 ≤ v → v < 0x80000 → (x.pgdir.entry v).p = false → (y'.pgdir.entry v).p = false
  outside : ∀ v, v < 0x60000 ∨ 0x80000 ≤ v → y'.pgdir.entry v = y.pgdir.entry v
  rest : y' = { y with pgdir := y'.pgdir, wmap := { y'.wmap with isChild := y.wmap.isChild } }

section
variable {k : Kernel} {parent child : Fin NPROC}

theorem copyWmap_exact (hne : parent ≠ child) (hparent : (k.proc parent).Regular)
    (hchild : (k.proc child).Vacant)
    (hmem : ((k.proc child).pgdir.missing (k.proc parent).pgdir).card ≤ k.mach.kmem.freelist.length) :
    ∃ k', copyWmap k parent child = .ok (true, k') ∧
      (k.proc parent).CopyOf (k.proc child) (k'.proc child) ∧
      (∀ q, q ≠ child → k'.proc q = k.proc q) ∧ k'.fs = k.fs ∧ k'.mach.mem = k.mach.mem ∧
      k'.mach.counts = k.mach.counts := by
  have hok := hparent.table.ok
  obtain ⟨k', hcall⟩ := copySlots_total (enoughFor_missing (k.proc parent).pgdir) hne hok hparent.table.apart
    (List.nodup_finRange _) hmem fun i _ hi v hv hp => by
      obtain ⟨hlow, hhigh⟩ := (hok i hi).pages_window hv
      exact ⟨(hparent.inside v hlow hhigh hp).1, hchild.window v hlow hhigh⟩
  obtain ⟨done, hcopy⟩ := copySlots_spec hne hok hcall
  have hentry := hcopy.inherited.entry
  have hdone : ∀ v, 0x60000 ≤ v → v < 0x80000 → (((k.proc parent).pgdir.entry v).p = true ↔ v ∈ done) := by
    intro v hlow hhigh
    refine ⟨fun hp => ?_, hcopy.inherited.present v⟩
    obtain ⟨-, i, hi, hv⟩ := hparent.inside v hlow hhigh hp
    exact hcopy.all rfl i (List.mem_finRange i) hi v hv hp
  have hwindow : ∀ v ∈ done, 0x60000 ≤ v ∧ v < 0x80000 := by
    intro v hv
    obtain ⟨i, hi, hv⟩ := hcopy.pages v hv
    exact (hok i hi).pages_window hv
  have hself : k'.proc child = { k.proc child with
      pgdir := (k'.proc child).pgdir, wmap := (k'.proc child).wmap } := by
    conv_lhs => rw [hcopy.eq]
    exact Kernel.proc_setProc_self ..
  refine ⟨k', hcall, ⟨?_, ?_, fun v hlow hhigh hp => ?_, fun v hlow hhigh hp => ?_, fun v hv => ?_, ?_⟩,
    fun q hq => ?_, ?_, ?_, ?_⟩
  · funext i
    rw [hcopy.slot rfl i]
    by_cases hi : i ∈ (k.proc parent).wmap.active
    · rw [if_pos ⟨List.mem_finRange i, hi⟩]
    · rw [if_neg fun h => hi h.2, hchild.slot i, hparent.free i hi]
  · rw [hcopy.total rfl]
    split
    · rfl
    · rename_i hno
      have hempty : (k.proc parent).wmap.active = ∅ :=
        Finset.eq_empty_of_forall_notMem fun i hi => hno ⟨i, List.mem_finRange i, hi⟩
      rw [hparent.table.total, hempty, hchild.total]
      rfl
  · rw [hentry, if_pos ((hdone v hlow hhigh).mp hp)]
  · rw [hentry, if_neg fun hv => Bool.false_ne_true (hp.symm.trans ((hdone v hlow hhigh).mpr hv))]
    exact hchild.window v hlow hhigh
  · rw [hentry, if_neg fun hd => ?_]
    have := hwindow v hd
    omega
  · conv_lhs => rw [hself]
    rw [← hcopy.isChild]
  · rw [hcopy.eq, Kernel.proc_setProc_ne hq]
  · exact (congrArg Kernel.fs hcopy.eq).trans rfl
  · exact (congrArg (fun k => k.mach.mem) hcopy.eq).trans rfl
  · exact (congrArg (fun k => k.mach.counts) hcopy.eq).trans rfl

end

def Wmap.loadedPage : Wmap := Wmap.init.update 0 ⟨0x60000000, 4096, 1, false, -1⟩ 1

theorem Wmap.active_loadedPage : Wmap.loadedPage.active = {0} := by decide

theorem Wmap.tidy_loadedPage : Wmap.loadedPage.Tidy := by
  have hregion : ∀ i ∈ loadedPage.active, i = 0 := by
    rw [active_loadedPage]
    exact fun i hi => mem_singleton.mp hi
  refine ⟨fun i hi => ?_, fun i hi => ?_, by rw [active_loadedPage]; decide, fun i hi j hj hij => ?_⟩
  · rw [hregion i hi]
    decide
  · rw [hregion i hi]
    exact ⟨by decide, by decide, by decide⟩
  · exact (hij ((hregion i hi).trans (hregion j hj).symm)).elim

/-- Process 0 has loaded the page of its only region; process 1 has a table set up by
`allocproc`. -/
def Kernel.onePage : Kernel :=
  { Kernel.fresh with mach := { Kernel.fresh.mach with kmem := ⟨[1025], false⟩ } }.setProc 0
    { Proc.zero with
      state := .running
      pgdir := PgDir.onePage 0x60000 { p := true, w := true, u := true, ppn := 1024 }
      wmap := Wmap.loadedPage }

theorem Kernel.proc_onePage : Kernel.onePage.proc 0 = { Proc.zero with
    state := .running
    pgdir := PgDir.onePage 0x60000 { p := true, w := true, u := true, ppn := 1024 }
    wmap := Wmap.loadedPage } := Kernel.proc_setProc_self ..

theorem copyWmap_exact_onePage : ∃ k', copyWmap Kernel.onePage 0 1 = .ok (true, k') ∧
    (Kernel.onePage.proc 0).CopyOf (Kernel.onePage.proc 1) (k'.proc 1) := by
  have hother : Kernel.onePage.proc 1 = { Proc.zero with wmap := Wmap.init } :=
    Kernel.proc_setProc_ne (by decide)
  have hpresent : ∀ v, ((Kernel.onePage.proc 0).pgdir.entry v).p = true → v = 0x60000 := by
    intro v hp
    rw [Kernel.proc_onePage, PgDir.entry_onePage (by decide)] at hp
    split at hp
    · rename_i hv
      exact hv
    · cases hp
  have hparent : (Kernel.onePage.proc 0).Regular := by
    refine ⟨by rw [Kernel.proc_onePage]; exact Wmap.tidy_loadedPage, fun i hi => ?_, fun v _ _ hp => ?_⟩
    · rw [Kernel.proc_onePage, Wmap.active_loadedPage, Finset.mem_singleton] at hi
      rw [Kernel.proc_onePage]
      exact Function.update_of_ne hi ..
    · rw [hpresent v hp, Kernel.proc_onePage, PgDir.entry_onePage (by decide), if_pos rfl]
      exact ⟨Nat.succ_ne_zero _, 0, by rw [Wmap.active_loadedPage]; decide, by decide⟩
  have hchild : (Kernel.onePage.proc 1).Vacant := by
    rw [hother]
    exact ⟨rfl, fun _ => rfl, fun _ _ _ => rfl⟩
  have hmissing : ((Kernel.onePage.proc 1).pgdir.missing (Kernel.onePage.proc 0).pgdir).card ≤ 1 := by
    refine Finset.card_le_one_iff_subset_singleton.mpr ⟨384, fun i hi => Finset.mem_singleton.mpr ?_⟩
    obtain ⟨-, hi⟩ := Finset.mem_filter.mp hi
    obtain ⟨j, hj, hp⟩ := List.any_eq_true.mp (Bool.and_eq_true_iff.mp hi).2
    have := hpresent _ hp
    have := List.mem_range.mp hj
    omega
  obtain ⟨k', hcall, hcopy, -⟩ := copyWmap_exact (by decide) hparent hchild hmissing
  exact ⟨k', hcall, hcopy⟩

end Xv6
