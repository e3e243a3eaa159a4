import Xv6.LazyLoad
import Xv6.Launch
import Xv6.StepTrades
import Xv6.WriteBack
import Xv6.RegionSet

/-!
The first steps of a system, from the boot on: `initproc` runs, maps a page of the window,
touches it and forks. Page directories are told apart by their frames, so that what a
process can access is decided by its own directory as long as that one is loaded.
-/

namespace Xv6

open Multiset Kernel Wmap

variable {k k0 k1 : Kernel} {s x x0 y : Frame} {va : Nat} {user write : Bool}
  {i : Fin MAX_WMMAP_INFO}

section
variable {k : Kernel} {p q : Fin NPROC}

theorem Kernel.frame_mem_owned (h : (k.proc p).live) : (k.proc p).pgdir.frame ∈ (k.proc p).owned := by
  rw [Proc.owned_of_live h, PgDir.frames]
  simp

theorem Kernel.notMem_owned_of_ne (hs : k.holding.Safe) (hpq : p ≠ q) (h : x ∈ (k.proc p).owned) :
    x ∉ (k.proc q).owned := by
  intro hq
  have hn : k.total.Nodup := hs.nodup
  unfold Kernel.total at hn
  have hsum := (nodup_add.mp (nodup_add.mp hn).1).2.1
  rw [Lib.sum_split _ p] at hsum
  refine disjoint_left.mp (nodup_add.mp hsum).2.2 h ?_
  exact mem_sum.mpr ⟨q, Finset.mem_erase.mpr ⟨hpq.symm, Finset.mem_univ _⟩, hq⟩

theorem Kernel.notMem_kpgdir (hs : k.holding.Safe) (h : x ∈ (k.proc p).owned) :
    x ∉ k.kpgdir.frames := by
  intro hk
  have hn : k.total.Nodup := hs.nodup
  unfold Kernel.total at hn
  rw [Lib.sum_split _ p] at hn
  refine disjoint_left.mp (nodup_add.mp hn).2.2 ?_ hk
  exact mem_add.mpr (Or.inr (mem_add.mpr (Or.inl h)))

theorem Kernel.dirAt_proc (hs : k.holding.Safe) (hp : (k.proc p).live) :
    k.dirAt (k.proc p).pgdir.frame = some (k.proc p).pgdir := by
  have hown := frame_mem_owned hp
  have hk : k.kpgdir.frame ≠ (k.proc p).pgdir.frame := by
    intro he
    refine notMem_kpgdir hs hown ?_
    rw [← he, PgDir.frames]
    simp
  have hfind : (List.finRange NPROC).find? (fun q => decide ((k.proc q).live ∧
      (k.proc q).pgdir.frame = (k.proc p).pgdir.frame)) = some p := by
    cases hf : (List.finRange NPROC).find? fun q => decide ((k.proc q).live ∧
        (k.proc q).pgdir.frame = (k.proc p).pgdir.frame) with
    | none =>
      have := List.find?_eq_none.mp hf p (List.mem_finRange p)
      simp [hp] at this
    | some q =>
      have hfound := List.find?_some hf
      obtain ⟨hq, he⟩ := of_decide_eq_true hfound
      by_contra hne
      have hpq : p ≠ q := fun h => hne (by rw [h])
      refine notMem_owned_of_ne hs hpq hown ?_
      rw [← he]
      exact frame_mem_owned hq
  unfold Kernel.dirAt
  rw [if_neg hk, hfind]
  rfl

theorem Kernel.permits_own (hs : k.holding.Safe) (hp : (k.proc p).live)
    (hl : k.loaded p = (k.proc p).pgdir.frame) :
    k.permits p va write user = (k.proc p).pgdir.permits va write user := by
  unfold Kernel.permits
  rw [hl, dirAt_proc hs hp]

theorem step_fault (hr : k.ready p) (hva : va < 0x100000000)
    (hno : k.permits p va write user = false) (hsz : user = false → va < (k.proc p).sz)
    (h : pageFault (k.enter p) p va = .ok k1) (hk : (k1.proc p).killed = false) :
    Step k (.fault p va write user) (k1.leave p) := by
  have htrap : trap (k.enter p) p va user = .ok (true, k1) := by
    refine Lib.bind_eq_ok.mpr ⟨k1, h, ?_⟩
    rw [leaveTrap, hk]
    rfl
  exact ⟨⟨hr, hva, hno, hsz⟩, by simp only [Act.perform, Kernel.onCpu, htrap]; rfl⟩

theorem step_wunmap {addr : Nat} {b : Bool} (hr : k.ready p) (haddr : addr < 0x100000000)
    (h : sysWunmap (k.enter p) p addr = .ok (b, k1)) : Step k (.wunmap p addr) (k1.leave p) :=
  ⟨⟨hr, haddr⟩, by simp only [Act.perform, Kernel.onCpu, h]; rfl⟩

theorem pageFault_loaded (h : FaultsIn k p i va) (hbase : (k.proc p).pgdir.KernelBase)
    (hb : k.Backed p i) (hfree : 2 ≤ k.mach.kmem.freelist.length) (hva : va < 0x7FFFF000)
    (hl : k.Loadable p i (pgrounddown va)) :
    ∃ k' x km, pageFault k p va = .ok k' ∧ Loaded k p (pgrounddown va) i k' x km := by
  obtain ⟨k', hcall, hloaded, -⟩ := pageFault_loads h hb hfree hva
  obtain ⟨hlo, hhi⟩ := h.range
  have hpresent : ((k'.proc p).pgdir.entry (va / 4096)).p = true := by
    obtain ⟨⟨x, -, hentry, -⟩, -⟩ := hloaded hl
    rw [hentry]
  have habsent := h.absent
  rcases pageFault_cases hcall with ⟨hw, -⟩ | ⟨-, -, hcov, -⟩ | ⟨-, -, j, b, k1, hcov, ha, rfl⟩
  · omega
  · rw [h.covering] at hcov
    cases hcov
  rw [h.covering] at hcov
  cases hcov
  have hsame : ∀ k1 : Kernel, ((setKilled k1 p).proc p).pgdir = (k1.proc p).pgdir := fun k1 => by
    rw [setKilled, proc_setProc_self]
  rcases allocateAndMap_spec hlo hhi hbase ha with
    ⟨rfl, -, rfl⟩ | ⟨rfl, -, k2, done, hr⟩ | ⟨rfl, -, x, km, hu⟩ | ⟨rfl, -, x, km, hload⟩
  · rw [if_neg (by decide), hsame, habsent] at hpresent
    cases hpresent
  · rw [if_neg (by decide), hsame] at hpresent
    by_cases hd : va / 4096 ∈ done
    · rw [hr.unmapped.cleared.cleared _ hd] at hpresent
      cases hpresent
    · rw [hr.unmapped.cleared.kept _ hd, hr.starved.proc, habsent] at hpresent
      cases hpresent
  · rw [if_neg (by decide), hsame, hu.proc, habsent] at hpresent
    cases hpresent
  · exact ⟨_, x, km, hcall, hload⟩

/-- The first access to a page of a region, by a process whose directory is loaded. -/
theorem step_load (hr : k.ready p) (hs : k.holding.Safe) (hl : k.loaded p = (k.proc p).pgdir.frame)
    (hk : (k.proc p).killed = false) (h : FaultsIn k p i va) (hbase : (k.proc p).pgdir.KernelBase)
    (hanon : ((k.proc p).wmap.slot i).fileBacked = false) (hfree : 2 ≤ k.mach.kmem.freelist.length)
    (hva : va < 0x7FFFF000) : ∃ k1 x km, Step k (.fault p va true true) (k1.leave p) ∧
      Loaded (k.enter p) p (pgrounddown va) i k1 x km := by
  have hfb : ∀ {P : Prop}, ((k.proc p).wmap.slot i).fileBacked = true → P := fun hf => by
    rw [hanon] at hf
    cases hf
  obtain ⟨k1, x, km, hcall, hload⟩ := pageFault_loaded (k := k.enter p)
    ⟨h.active, h.aligned, h.window, h.low, h.high, h.only, h.absent⟩ hbase (fun hf => hfb hf) hfree hva
    (fun hf => hfb hf)
  refine ⟨k1, x, km, step_fault hr (by omega) ?_ (fun hu => by cases hu) hcall ?_, hload⟩
  · rw [permits_own hs hr.live hl, PgDir.permits_eq _ _ _ (by omega), h.absent]
    rfl
  · rw [hload.proc_self]
    exact hk

end

/-- `initproc` runs with one page of the window mapped and loaded, in frame `x`. Its program
is in frame `x0`. -/
structure Touched (k : Kernel) (x0 x : Frame) : Prop where
  ready : k.ready 0
  image : k.mach.image = pcImage
  initproc : k.initproc = 0
  size : (k.proc 0).sz = 4096
  files : (k.proc 0).ofile = fun _ => none
  cwd : (k.proc 0).cwd = some 1
  entry : ∀ v, v < 0x80000 → (k.proc 0).pgdir.entry v =
    if v = 0x60000 then Pte.make x { w := true, u := true, p := true }
    else if v = 0 then Pte.make x0 { w := true, u := true } else Pte.zero
  wmap : (k.proc 0).wmap = Wmap.loadedPage
  frames : pcImage.kend ≤ x0 ∧ x0 < 0xE000 ∧ pcImage.kend ≤ x ∧ x < 0xE000
  apart : x ≠ x0
  others : ∀ q, q ≠ 0 → (k.proc q).state = .unused
  memory : 1027 ≤ k.mach.kmem.free.card

theorem Touched.usable (h : Touched k x0 x) : (k.proc 0).pgdir.Usable pcImage := by
  obtain ⟨hlo0, hhi0, hlo, hhi⟩ := h.frames
  intro v hv hp
  rw [h.entry v hv] at hp ⊢
  split_ifs at hp ⊢ with h1 h2
  · exact ⟨hlo, hhi⟩
  · exact ⟨hlo0, hhi0⟩
  · cases hp

theorem Touched.forkable (h : Touched k x0 x) : Forkable k 0 := by
  have hpages : sizePages (k.proc 0).sz = 1 := by
    rw [h.size]
    rfl
  refine ⟨⟨1, h.others 1 (by decide)⟩, h.memory, by rw [h.size]; decide, fun v hv => ?_, fun i f hi => ?_,
    by rw [h.cwd]; simp, by rw [h.wmap]; exact tidy_loadedPage.ok,
    by rw [h.wmap]; exact tidy_loadedPage.apart, fun i hi v hv hp => ?_⟩
  · obtain rfl : v = 0 := by omega
    rw [h.entry 0 (by decide)]
    rfl
  · rw [h.files] at hi
    cases hi
  · rw [h.wmap] at hi hv
    obtain ⟨hlo, hhi⟩ := (tidy_loadedPage.ok i hi).pages_window hv
    refine ⟨?_, by omega⟩
    exact Nat.ne_of_gt (lt_of_lt_of_le pcImage.kend_pos (h.usable v hhi hp).1)

/-- The boot, with `initproc` running and its page of the window mapped. -/
structure Mapped (k0 k : Kernel) (x0 s : Frame) : Prop where
  start : k0.Start
  booted : Booted pcImage pcImage.frames rootFiles 1 k0 x0 s
  dispatch : Step k0 (.dispatch 0) (k0.dispatched 0)
  wmap : Step (k0.dispatched 0) (.wmap 0 0x60000000 4096 14 (-1)) k
  eq : k = (k0.dispatched 0).mapped 0
  ready : k.ready 0
  proc : k.proc 0 = { k0.proc 0 with state := .running, wmap := Wmap.onePage }
  others : ∀ q, q ≠ 0 → k.proc q = k0.proc q
  holding : k.holding = k0.holding
  forkable : Forkable k 0

theorem exists_mapped : ∃ k0 k x0 s, Mapped k0 k x0 s := by
  obtain ⟨k0, x0, s, hstart, hb⟩ := exists_booted rootFiles 1
  have hself : (k0.dispatched 0).proc 0 = { k0.proc 0 with state := .running } :=
    proc_dispatched_self k0 0
  have hmapped : ((k0.dispatched 0).mapped 0).proc 0 =
      { k0.proc 0 with state := .running, wmap := Wmap.onePage } := by
    rw [proc_mapped_self, hself]
  have hother : ∀ q, q ≠ 0 → ((k0.dispatched 0).mapped 0).proc q = k0.proc q := fun q hq =>
    (proc_mapped_ne _ hq).trans (proc_dispatched_ne k0 hq)
  have h2 : Step (k0.dispatched 0) (.wmap 0 0x60000000 4096 14 (-1)) ((k0.dispatched 0).mapped 0) :=
    step_wmap_onePage hb.ready (by rw [hself, hb.self])
  have hsame : ((k0.dispatched 0).mapped 0).holding = k0.holding := by
    refine holding_of_proc 0 hother ?_ ?_ ?_ rfl rfl
    all_goals rw [hmapped]
    rw [hb.self]
    simp [Proc.live]
  refine ⟨k0, _, x0, s, hstart, hb, hb.dispatch, h2, rfl, ?_, hmapped, hother, hsame, ?_⟩
  · exact ⟨by rw [hmapped], by rw [hmapped, hb.self]; rfl⟩
  · exact hb.forkable_of_wmap hmapped (hother 1 (by decide)) rfl ok_onePage
      pagesApart_onePage

section
variable {k0 k : Kernel} {x0 s : Frame}

section
variable (h : Mapped k0 k x0 s)
include h

theorem Mapped.run : Lib.Run Step k0 [.dispatch 0, .wmap 0 0x60000000 4096 14 (-1)] k :=
  (Lib.Run.single h.dispatch).snoc h.wmap

theorem Mapped.sane : k.Sane :=
  step_sane (step_sane h.start.sane h.dispatch) h.wmap

theorem Mapped.safe : k.holding.Safe := by
  rw [h.holding]
  exact h.start.safe

theorem Mapped.maps {q : Fin NPROC} {v : Nat} (hm : k.Maps q v y) : q = 0 ∧ v = 0 ∧ y = x0 := by
  have hsame := congrFun (congrFun (congrArg Lib.Holding.refs h.holding) (q, v)) y
  exact h.booted.maps (hsame.mp hm)

theorem Mapped.program : k.Maps 0 0 x0 := by
  have hsame := congrFun (congrFun (congrArg Lib.Holding.refs h.holding) (0, 0)) x0
  exact hsame.mpr h.booted.page

theorem Mapped.range (hy : y ∈ k.mach.kmem.free ∨ y = x0) : pcImage.kend ≤ y ∧ y < 0xE000 := by
  refine h.booted.range ?_
  rcases hy with hy | rfl
  · rw [h.eq] at hy
    have hy : y ∈ k0.mach.kmem.free := hy
    simp [hy]
  · simp

theorem Mapped.card_free : 50000 ≤ k.mach.kmem.free.card := by
  rw [h.eq]
  exact le_trans (by decide) h.booted.memory

end

end

theorem faultsIn_onePage {p : Fin NPROC} (hslot : (k.proc p).wmap.slot = Wmap.onePage.slot)
    (habsent : ((k.proc p).pgdir.entry 0x60000).p = false) : FaultsIn k p 0 0x60000000 := by
  have hregion : (k.proc p).wmap.slot 0 = ⟨0x60000000, 4096, 0, false, -1⟩ := by
    rw [hslot]
    rfl
  have hactive : ∀ j, j ∈ (k.proc p).wmap.active → j = 0 := by
    intro j hj
    rw [mem_active, hslot, ← mem_active, active_onePage] at hj
    exact Finset.mem_singleton.mp hj
  refine ⟨by rw [mem_active, hregion]; rfl, by rw [hregion]; rfl, ?_,
    by rw [hregion], by rw [hregion]; decide, fun j hj hne => (hne (hactive j hj)).elim, habsent⟩
  rw [hregion]
  exact ⟨by decide, by decide, by decide⟩

theorem Mapped.faultsIn (h : Mapped k0 k x0 s) : FaultsIn k 0 0 0x60000000 := by
  refine faultsIn_onePage (by rw [h.proc]) ?_
  rw [h.proc]
  change ((k0.proc 0).pgdir.entry 0x60000).p = false
  rw [h.booted.space.entry _ (by decide), if_neg (by decide)]
  rfl

theorem Mapped.touch (h : Mapped k0 k x0 s) :
    ∃ k' x, Step k (.fault 0 0x60000000 true true) k' ∧ Touched k' x0 x := by
  have hloaded : k.loaded 0 = (k.proc 0).pgdir.frame := by
    rw [h.proc, h.eq]
    simp [Kernel.mapped, Kernel.leave, Kernel.enter, Kernel.dispatched, Kernel.setProc, Machine.lcr3]
  have hfree : 2 ≤ k.mach.kmem.freelist.length := by
    have := h.card_free
    rw [Kmem.free, coe_card] at this
    omega
  obtain ⟨k1, x, km, hstep, hload⟩ := step_load h.ready h.safe hloaded
    (by rw [h.proc, h.booted.self]; rfl) h.faultsIn
    ((h.sane 0).base h.ready.live) (by rw [h.proc]; rfl) hfree (by decide)
  have hself : k1.proc 0 = { k0.proc 0 with
      state := .running, pgdir := (k1.proc 0).pgdir, wmap := Wmap.loadedPage } := by
    rw [hload.proc_self]
    change ({ k.proc 0 with
      pgdir := (k1.proc 0).pgdir
      wmap := (k.proc 0).wmap.update 0
        { (k.proc 0).wmap.slot 0 with nLoaded := ((k.proc 0).wmap.slot 0).nLoaded + 1 }
        (k.proc 0).wmap.total } : Proc) = _
    rw [h.proc]
    simp only [Wmap.onePage, Wmap.loadedPage, Wmap.update, Function.update_idem, Function.update_self]
    rfl
  have hentry : ∀ v, v < 0x80000 → (k1.proc 0).pgdir.entry v =
      if v = 0x60000 then Pte.make x { w := true, u := true, p := true }
      else if v = 0 then Pte.make x0 { w := true, u := true } else Pte.zero := by
    intro v hv
    rw [hload.entry v]
    refine if_congr Iff.rfl rfl ?_
    change (k.proc 0).pgdir.entry v = _
    rw [h.proc]
    exact h.booted.space.entry v hv
  have hx : x ∈ k.mach.kmem.free := by
    have hfree : k.mach.kmem.free = x ::ₘ km.free := free_kalloc hload.alloc
    rw [hfree]
    exact mem_cons_self _ _
  obtain ⟨hlo, hhi⟩ := h.range (Or.inl hx)
  obtain ⟨hlo0, hhi0⟩ := h.range (y := x0) (Or.inr rfl)
  refine ⟨_, x, hstep, ⟨?_, ?_, ?_, ?_, ?_, ?_, hentry, congrArg Proc.wmap hself,
    ⟨hlo0, hhi0, hlo, hhi⟩, ?_, fun q hq => ?_, ?_⟩⟩
  · change (k1.proc 0).state = .running ∧ (k1.proc 0).cowFault = none
    rw [hself, h.booted.self]
    exact ⟨rfl, rfl⟩
  · have himage : k1.mach.image = k.mach.image := (congrArg (fun k => k.mach.image) hload.eq).trans rfl
    have hk : k.mach.image = k0.mach.image := by rw [h.eq]; rfl
    exact (himage.trans hk).trans h.booted.image
  · have hk : k.initproc = k0.initproc := by rw [h.eq]; rfl
    exact (hload.initproc.trans hk).trans h.booted.initproc
  · change (k1.proc 0).sz = 4096
    rw [hself, h.booted.self]
  · change (k1.proc 0).ofile = _
    rw [hself, h.booted.self]
    rfl
  · change (k1.proc 0).cwd = _
    rw [hself, h.booted.self]
  · rintro rfl
    exact h.safe.apart (0, 0) x h.program (mem_total_of_free hx)
  · change (k1.proc q).state = .unused
    rw [hload.proc_ne hq]
    change (k.proc q).state = .unused
    rw [h.others q hq, h.booted.others q hq]
    rfl
  · have hcard := h.card_free
    have h1 := congrArg Multiset.card (show k.mach.kmem.free = x ::ₘ km.free from free_kalloc hload.alloc)
    have h2 := congrArg Multiset.card hload.extend.balance
    have h3 := (k1.proc 0).pgdir.card_frames_le
    rw [card_cons] at h1
    simp only [card_add] at h2
    change 1027 ≤ k1.mach.kmem.free.card
    omega

theorem step_wunmap_loadedPage (hr : k.ready 0) (hw : (k.proc 0).wmap = Wmap.loadedPage)
    (hu : (k.proc 0).pgdir.Usable k.mach.image) (hp : ((k.proc 0).pgdir.entry 0x60000).p = true) :
    ∃ k1 done, Step k (.wunmap 0 0x60000000) (k1.leave 0) ∧ Unmapped (k.enter 0) 0 done k1 ∧
      0x60000 ∈ done := by
  have hw : ((k.enter 0).proc 0).wmap = Wmap.loadedPage := hw
  have hslot : ((k.enter 0).proc 0).wmap.slot 0 = ⟨0x60000000, 4096, 1, false, -1⟩ := by
    rw [hw]
    rfl
  have hfirst : (0 : Fin MAX_WMMAP_INFO) ∈ ((k.enter 0).proc 0).wmap.active := by
    rw [hw, active_loadedPage]
    decide
  have htidy : ((k.enter 0).proc 0).wmap.Tidy := by
    rw [hw]
    exact tidy_loadedPage
  have hcounted : ((k.enter 0).proc 0).Counted := by
    intro i hi v _ _
    rw [hw, active_loadedPage, Finset.mem_singleton] at hi
    subst hi
    rw [hslot]
    decide
  obtain ⟨⟨k1, b⟩, hpages⟩ : ∃ r, unmapPages (k.enter 0) 0 0x60000000
      (addInt 0x60000000 (((k.enter 0).proc 0).wmap.slot 0).length) 0 = .ok r :=
    unmapPages_total 0x60000000 (by rw [hslot]; decide) (by rw [hslot]) hu
  obtain rfl := (wmap_unmapPages hpages).2 (by rw [hslot])
  have hstarts : ((k.enter 0).proc 0).wmap.startsAt 0x60000000 = some 0 := by
    rw [hw]
    decide
  have hcall := wunmap_of_pages (by rw [hw]; decide) hstarts hpages
  obtain ⟨hgone, done, hun⟩ := wunmap_done htidy hcounted hfirst (by rw [hslot]) hcall
  refine ⟨_, done, step_wunmap hr (by decide) (b := true) ?_, hun, ?_⟩
  · rw [sysWunmap, if_neg (by decide)]
    exact hcall
  · by_contra hd
    have habs := hgone.pages 0x60000 (by rw [hslot]; decide)
    rw [hun.cleared.kept _ hd] at habs
    rw [show ((k.enter 0).proc 0).pgdir = (k.proc 0).pgdir from rfl, hp] at habs
    cases habs

end Xv6
