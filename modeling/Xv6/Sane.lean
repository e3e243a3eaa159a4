import Xv6.System
import Xv6.RegionCalls
import Xv6.ForkSpec
import Xv6.Resize
import Xv6.ExecSpec
import Xv6.WindowSpec

/-!
Facts about single processes that hold in every state the system can reach: sizes stay
below the kernel, region tables hold what `sys_wmap` accepts, every directory maps the
kernel, every process but the first is a forked one, and a process inside
`handle_cow_fault` still has the page it faulted on.
-/

namespace Xv6

open Wmap Kernel

variable {b : Bool} {x y : Proc} {init : Prop} {m m' : Machine} {d d' : PgDir}
  {addr refCount sz v va : Nat} {r : Option Nat} {pa : Frame} {i : Fin MAX_WMMAP_INFO}
  {fd length : Int}

/-- A copy-on-write fault in progress: the page and the frame are still there. -/
structure Proc.Faulting (x : Proc) (va : Nat) (pa : Frame) (refCount : Nat) : Prop where
  running : x.state = .running
  size : va < x.sz
  count : 1 ≤ refCount
  window : va < 0x60000000 ∨ 0x80000000 ≤ va
  walk : ∃ pte, x.pgdir.walk va = some pte ∧ pte.p = true ∧ pte.u = true ∧ pte.cow = true ∧
    pte.ppn = pa

structure Proc.Sane (x : Proc) (init : Prop) : Prop where
  size : x.live → x.sz < 0x80000000
  wmap : x.live → x.wmap.Ok
  base : x.live → x.pgdir.KernelBase
  child : x.live → ¬ init → x.wmap.isChild = true
  pending : ∀ va pa refCount, x.cowFault = some (va, pa, refCount) → x.Faulting va pa refCount

def Kernel.Sane (k : Kernel) : Prop := ∀ p, (k.proc p).Sane (p = k.initproc)

theorem Proc.Sane.change (h : x.Sane init) (hlive : x.live) (hsize : y.sz < 0x80000000)
    (hwmap : y.wmap.Ok) (hchild : y.wmap.isChild = x.wmap.isChild)
    (hbase : y.pgdir.entry 0x80000 = x.pgdir.entry 0x80000) (hcow : y.cowFault = none) :
    y.Sane init := by
  refine ⟨fun _ => hsize, fun _ => hwmap, fun _ => ?_, fun _ hi => ?_, fun _ _ _ hf => ?_⟩
  · unfold PgDir.KernelBase
    rw [hbase]
    exact h.base hlive
  · rw [hchild]
    exact h.child hlive hi
  · rw [hcow] at hf
    cases hf

theorem Proc.Sane.same (h : x.Sane init) (hstate : y.state = x.state) (hsz : y.sz = x.sz)
    (hwmap : y.wmap = x.wmap) (hpgdir : y.pgdir = x.pgdir) (hcow : y.cowFault = x.cowFault) :
    y.Sane init := by
  have hl : y.live → x.live := fun hl => by
    unfold Proc.live at hl
    rwa [hstate] at hl
  refine ⟨fun h1 => ?_, fun h1 => ?_, fun h1 => ?_, fun h1 hi => ?_, fun va pa rc hf => ?_⟩
  · rw [hsz]
    exact h.size (hl h1)
  · rw [hwmap]
    exact h.wmap (hl h1)
  · rw [hpgdir]
    exact h.base (hl h1)
  · rw [hwmap]
    exact h.child (hl h1) hi
  · rw [hcow] at hf
    obtain ⟨h1, h2, h3, h4, h5⟩ := h.pending va pa rc hf
    exact ⟨hstate.trans h1, by rwa [hsz], h3, h4, by rwa [hpgdir]⟩

theorem Resized.base {newsz sz' : Nat} (hsz : sz < 0x80000000) (h : Resized m d sz newsz m' d' sz') :
    sz' < 0x80000000 ∧ d'.entry 0x80000 = d.entry 0x80000 := by
  cases h with
  | same => exact ⟨hsz, rfl⟩
  | grown hle hlt hxs hg =>
    refine ⟨hlt, hg.kept 0x80000 (Or.inr ?_)⟩
    rw [hxs]
    unfold allocPages sizePages pagesTo pgroundup
    omega
  | abandoned hle hlt hxs ha =>
    refine ⟨hsz, ?_⟩
    rw [ha.cleared.kept, ha.grown.kept 0x80000 (Or.inr ?_)]
    · unfold allocPages sizePages pagesTo pgroundup at *
      omega
    · intro hv
      have := deallocRange_lt (by omega) hv
      omega
  | shrunk hlt hf hc hsz' =>
    refine ⟨by omega, hc.kept 0x80000 fun hv => ?_⟩
    have := deallocRange_lt (by omega) hv
    omega

theorem CowResolved.base (hv : v < 0x80000) (h : CowResolved m d v pa refCount b d' m') :
    d'.entry 0x80000 = d.entry 0x80000 := by
  cases h with
  | upgraded _ hr => rw [hr.entry, if_neg (by omega)]
  | starved _ _ => rfl
  | copied _ _ hr => rw [hr.entry, if_neg (by omega)]

theorem wmapOk_update {w : Wmap} {r : Region} {t : Int} (h : w.Ok) (hr : r.isEmpty = false → r.Ok) :
    (w.update i r t).Ok := by
  intro j hj
  by_cases hji : j = i
  · subst hji
    rw [mem_active, slot_update_self] at hj
    rw [slot_update_self]
    exact hr hj
  · rw [mem_active, slot_update_ne hji] at hj
    rw [slot_update_ne hji]
    exact h j (mem_active.mpr hj)

theorem regionOk_of_sysWmap {fb : Bool} (ha : addr < 0x100000000) (hl : length < 0x80000000)
    (hlo : 0x60000000 ≤ addr) (hb : addInt addr length ≤ 0x80000000) (hal : addr % 4096 = 0)
    (hpos : 0 < length) : Region.Ok ⟨addr, length, 0, fb, fd⟩ := by
  refine ⟨hal, hlo, ha, hpos, hl, ?_⟩
  unfold addInt at hb
  dsimp only
  omega

section
variable {k k' : Kernel} {p : Fin NPROC}

theorem Kernel.sane_of_proc (hinit : k'.initproc = k.initproc)
    (hother : ∀ q, q ≠ p → (k'.proc q).Sane (q = k.initproc))
    (hp : (k'.proc p).Sane (p = k.initproc)) : k'.Sane := by
  intro q
  rw [hinit]
  by_cases hq : q = p
  · rw [hq]
    exact hp
  · exact hother q hq

section
variable (hs : k.Sane) (hlive : (k.proc p).live) (hcow : (k.proc p).cowFault = none)
include hs hlive hcow

theorem sane_growproc {n : Int} (hlo : -0x80000000 ≤ n) (hhi : n < 0x80000000)
    (h : growproc k p n = .ok (b, k')) : k'.Sane := by
  have hsz := (hs p).size hlive
  obtain ⟨m, d, sz, hr, hk⟩ := growproc_spec hsz hlo hhi h
  obtain ⟨hsz', hbase⟩ := hr.base hsz
  refine sane_of_proc (p := p) (by rw [hk]) (fun q hq => ?_) ?_
  · rw [hk, proc_setProc_ne hq]
    exact hs q
  · rw [hk, proc_setProc_self]
    exact (hs p).change hlive hsz' ((hs p).wmap hlive) rfl hbase hcow

theorem sane_exec {ip : Option Nat} {path : List UInt8} {argv : List (List UInt8)}
    {slept : Nat → Bool}
    (h : exec k p ip path argv slept = .ok (b, k')) : k'.Sane := by
  rcases exec_spec h with ⟨-, hk, -⟩ | ⟨-, m, d, sz, xs, hr⟩
  · have hproc : k'.proc = k.proc := (congrArg Kernel.proc hk).trans rfl
    have hinit : k'.initproc = k.initproc := (congrArg Kernel.initproc hk).trans rfl
    intro q
    rw [hproc, hinit]
    exact hs q
  · obtain ⟨name, tf, hk⟩ := hr.eq
    refine sane_of_proc (p := p) ((congrArg Kernel.initproc hk).trans rfl) (fun q hq => ?_) ?_
    · rw [hk, proc_setProc_ne hq]
      exact hs q
    · rw [hk, proc_setProc_self]
      refine ⟨fun _ => hr.bound, fun _ => (hs p).wmap hlive, fun _ => hr.built.base,
        fun _ => (hs p).child hlive, fun _ _ _ hf => ?_⟩
      rw [show (k.proc p).cowFault = some _ from hf] at hcow
      cases hcow

theorem Unmapped.sane {done : List Nat} (hdone : ∀ v ∈ done, v < 0x80000)
    (h : Unmapped k p done k') : k'.Sane := by
  refine sane_of_proc (p := p) h.initproc (fun q hq => ?_) ?_
  · rw [h.proc_ne hq]
    exact hs q
  have hwmap := h.wmapOk ((hs p).wmap hlive)
  have hbase : (k'.proc p).pgdir.entry 0x80000 = (k.proc p).pgdir.entry 0x80000 :=
    h.cleared.kept 0x80000 fun hv => by
      have := hdone _ hv
      omega
  rw [h.proc_self]
  exact (hs p).change hlive ((hs p).size hlive) hwmap h.isChild hbase hcow

theorem sane_wunmap (h : wunmap k p addr = .ok (b, k')) : k'.Sane := by
  have hok := (hs p).wmap hlive
  obtain ⟨done, hu, hpages⟩ := wunmap_spec hok h
  refine hu.sane hs hlive hcow fun v hv => ?_
  obtain ⟨i, hi, -, -, hmem⟩ := hpages v hv
  exact ((hok i hi).pages_window hmem).2

theorem sane_sysWmap {flags : Nat} (ha : addr < 0x100000000) (hl : length < 0x80000000)
    (h : sysWmap k p addr length flags fd = .ok (r, k')) : k'.Sane := by
  rcases sysWmap_cases h with ⟨-, rfl⟩ | ⟨hlo, hb, -, -, hal, hpos, h⟩
  · exact hs
  obtain ⟨hk, n, hcases⟩ := wmap_spec h
  have hok := (hs p).wmap hlive
  have hwmap : (k'.proc p).wmap.Ok ∧
      (k'.proc p).wmap.isChild = (k.proc p).wmap.isChild := by
    rcases hcases with ⟨-, -, hsame⟩ | ⟨-, hadd⟩
    · rw [hsame]
      exact ⟨hok, rfl⟩
    · obtain ⟨-, -, i, -, he⟩ := add_some hadd
      rw [he]
      exact ⟨wmapOk_update hok fun _ => regionOk_of_sysWmap ha hl hlo hb hal hpos, rfl⟩
  refine sane_of_proc (p := p) ((congrArg Kernel.initproc hk).trans rfl) (fun q hq => ?_) ?_
  · rw [hk, proc_setProc_ne hq]
    exact hs q
  have hself : k'.proc p = { k.proc p with
      ofile := (k'.proc p).ofile
      wmap := (k'.proc p).wmap } := by
    conv_lhs => rw [hk]
    simp
  rw [hself]
  exact (hs p).change hlive ((hs p).size hlive) hwmap.1 hwmap.2 rfl hcow

theorem sane_exit (h : exit k p = .ok k') : k'.Sane := by
  have hok := (hs p).wmap hlive
  obtain ⟨done, k1, he⟩ := exit_spec hok h
  have hs1 := he.unmapped.sane hs hlive hcow fun v hv => by
    obtain ⟨i, hi, hmem⟩ := he.pages v hv
    exact ((hok i hi).pages_window hmem).2
  have hinit : k'.initproc = k1.initproc := he.initproc.trans he.unmapped.initproc.symm
  refine sane_of_proc (p := p) hinit (fun q hq => ?_) ?_
  · rw [he.others q hq, ← he.unmapped.proc_ne hq]
    exact (hs1 q).same rfl rfl rfl rfl rfl
  · have hlive1 : (k1.proc p).live := by rw [he.unmapped.proc_self]; exact hlive
    rw [he.self]
    refine (hs1 p).change hlive1 ((hs1 p).size hlive1) ((hs1 p).wmap hlive1) rfl rfl ?_
    rw [he.unmapped.proc_self]
    exact hcow

end

theorem sane_wait (hs : k.Sane) (h : wait k p = .ok (r, k')) : k'.Sane := by
  rcases wait_spec h with rfl | ⟨q, s, -, hz, -, -, hk⟩
  · exact hs
  refine sane_of_proc (p := q) ((congrArg Kernel.initproc hk).trans rfl) (fun r hr => ?_) ?_
  · rw [hk, proc_setProc_ne hr]
    exact hs r
  rw [hk, proc_setProc_self]
  refine ⟨fun hl => (hl rfl).elim, fun hl => (hl rfl).elim, fun hl => (hl rfl).elim,
    fun hl => (hl rfl).elim, fun va pa rc hf => ?_⟩
  have := ((hs q).pending va pa rc hf).running
  rw [hz] at this
  cases this

theorem Proc.sane_unused {init' : Prop} (h : x.Sane init) (hx : x.state ≠ .running)
    (hy : y.state = .unused) (hcow : y.cowFault = x.cowFault) : y.Sane init' := by
  refine ⟨fun hl => (hl hy).elim, fun hl => (hl hy).elim, fun hl => (hl hy).elim,
    fun hl => (hl hy).elim, fun va pa rc hf => ?_⟩
  rw [hcow] at hf
  exact (hx (h.pending va pa rc hf).running).elim

theorem sizePages_lt (h : sz < 0x80000000) : sizePages sz ≤ 0x80000 := by
  unfold sizePages pagesTo
  omega

theorem ForkFrame.sane_parent {np : Fin NPROC} {n : Nat} (hs : k.Sane) (hlive : (k.proc p).live)
    (hcow : (k.proc p).cowFault = none) (h : ForkFrame k p np k') (hn : n ≤ 0x80000)
    (hentry : ∀ v, (k'.proc p).pgdir.entry v = if v < n then ((k.proc p).pgdir.entry v).share
      else (k.proc p).pgdir.entry v) :
    ∀ q, q ≠ np → (k'.proc q).Sane (q = k.initproc) := by
  intro q hq
  by_cases hqp : q = p
  · subst hqp
    have hbase : (k'.proc q).pgdir.entry 0x80000 = (k.proc q).pgdir.entry 0x80000 := by
      rw [hentry, if_neg (by omega)]
    rw [h.parent]
    exact (hs q).change hlive ((hs q).size hlive) ((hs q).wmap hlive) rfl hbase hcow
  · rw [h.others q hqp hq]
    exact hs q

theorem sane_fork (hs : k.Sane) (hlive : (k.proc p).live) (hcow : (k.proc p).cowFault = none)
    (h : fork k p = .ok (r, k')) : k'.Sane := by
  have hsz := (hs p).size hlive
  have hok := (hs p).wmap hlive
  have hn := sizePages_lt hsz
  rcases fork_spec hlive (le_of_lt hsz) hok h with
    ⟨-, rfl | ⟨np, hun, -, hk⟩⟩ | ⟨-, np, s, a, m, j, t, hf⟩ |
    ⟨-, np, s, a, a1, m, d, d1, done, hf⟩ | ⟨-, np, s, a, m, d, done, hf⟩
  · exact hs
  · refine sane_of_proc (p := np) (by rw [hk]) (fun q hq => ?_) ?_
    · rw [hk, proc_setProc_ne hq]
      exact hs q
    · rw [hk, proc_setProc_self]
      exact Proc.sane_unused (hs np) (by rw [hun]; decide) hun rfl
  · refine sane_of_proc (p := np) hf.initproc
      (hf.toForkFrame.sane_parent hs hlive hcow (hf.copy.le.2.trans hn) hf.copy.parent) ?_
    rw [hf.child]
    exact Proc.sane_unused (hs np) (by rw [hf.unused]; decide) rfl rfl
  · refine sane_of_proc (p := np) hf.initproc
      (hf.toForkFrame.sane_parent hs hlive hcow hn hf.copy.parent) ?_
    exact Proc.sane_unused (hs np) (by rw [hf.unused]; decide) hf.child.1 hf.child.2
  · refine sane_of_proc (p := np) hf.initproc
      (hf.toForkFrame.sane_parent hs hlive hcow hn hf.copy.parent) ?_
    obtain ⟨ofile, cwd, name, hchild⟩ := hf.child
    have hwmap : (k'.proc np).wmap.Ok := by
      intro i hi
      rw [mem_active, hf.slot] at hi
      rw [hf.slot]
      by_cases hact : i ∈ (k.proc p).wmap.active
      · rw [if_pos hact]
        exact hok i hact
      · rw [if_neg hact] at hi
        cases hi
    have hbase : (k'.proc np).pgdir.KernelBase := by
      have he : (k'.proc np).pgdir.entry 0x80000 = d.entry 0x80000 := by
        rw [hf.inherited.entry, if_neg]
        intro hv
        obtain ⟨i, hi, hmem⟩ := hf.pages _ hv
        have := ((hok i hi).pages_window hmem).2
        omega
      unfold PgDir.KernelBase
      rw [he]
      exact hf.copy.kernel.base
    have hsize : (k'.proc np).sz = (k.proc p).sz := by rw [hchild]
    refine ⟨fun _ => by rw [hsize]; exact hsz, fun _ => hwmap, fun _ => hbase,
      fun _ _ => hf.isChild, fun va pa rc hc => ?_⟩
    have hcow' : (k'.proc np).cowFault = (k.proc np).cowFault := by rw [hchild]
    rw [hcow'] at hc
    have := ((hs np).pending va pa rc hc).running
    rw [hf.unused] at this
    cases this

theorem sane_setKilled (hs : k.Sane) : (setKilled k p).Sane := by
  refine sane_of_proc (p := p) rfl (fun q hq => ?_) ?_
  · rw [setKilled, proc_setProc_ne hq]
    exact hs q
  · rw [setKilled, proc_setProc_self]
    exact (hs p).same rfl rfl rfl rfl rfl

theorem CowResolved.sane (hs : k.Sane) (hlive : (k.proc p).live) (hv : v < 0x80000)
    (h : CowResolved k.mach (k.proc p).pgdir v pa refCount b d m) :
    ({ k with mach := m }.setProc p { k.proc p with pgdir := d, cowFault := none }).Sane := by
  refine sane_of_proc (p := p) rfl (fun q hq => ?_) ?_
  · rw [proc_setProc_ne hq]
    exact hs q
  · rw [proc_setProc_self]
    exact (hs p).change hlive ((hs p).size hlive) ((hs p).wmap hlive) rfl (h.base hv) rfl

theorem sane_allocateAndMap (hs : k.Sane) (hlive : (k.proc p).live)
    (hcow : (k.proc p).cowFault = none) (hlo : 0x60000000 ≤ va) (hhi : va < 0x80000000)
    (h : allocateAndMap k p va 4096 i = .ok (b, k')) : k'.Sane := by
  have hal : (pgrounddown va + 4096) % 4096 = 0 := by
    unfold pgrounddown
    omega
  rcases allocateAndMap_spec hlo hhi ((hs p).base hlive) h with
    ⟨-, -, rfl⟩ | ⟨-, -, k1, done, hr⟩ | ⟨-, -, x, km, hu⟩ | ⟨-, -, x, km, hl⟩
  · exact hs
  · have hs1 : k1.Sane := by
      intro q
      rw [hr.starved.proc, hr.starved.initproc]
      exact hs q
    refine hr.unmapped.sane hs1 (by rw [hr.starved.proc]; exact hlive)
      (by rw [hr.starved.proc]; exact hcow) fun v hv => ?_
    have := (mem_pageRange hal).mp (hr.pages v hv)
    omega
  · intro q
    rw [hu.proc, hu.initproc]
    exact hs q
  · refine sane_of_proc (p := p) hl.initproc (fun q hq => ?_) ?_
    · rw [hl.proc_ne hq]
      exact hs q
    have hok := (hs p).wmap hlive
    have hbase : (k'.proc p).pgdir.entry 0x80000 = (k.proc p).pgdir.entry 0x80000 := by
      rw [hl.entry, if_neg]
      unfold pgrounddown
      omega
    rw [hl.proc_self]
    refine (hs p).change hlive ((hs p).size hlive) (wmapOk_update hok fun hne => ?_) rfl hbase hcow
    obtain ⟨h1, h2, h3, h4, h5, h6⟩ := hok i (mem_active.mpr hne)
    exact ⟨h1, h2, h3, h4, h5, h6⟩

theorem sane_pageFault (hs : k.Sane) (hlive : (k.proc p).live) (hcow : (k.proc p).cowFault = none)
    (hva : va < 0x100000000) (h : pageFault k p va = .ok k') : k'.Sane := by
  have killed : ∀ (b : Bool) (k1 : Kernel), k1.Sane → (if b then k1 else setKilled k1 p).Sane := by
    intro b k1 hs1
    split
    · exact hs1
    · exact sane_setKilled hs1
  rcases pageFault_cases h with
    ⟨hw, b, k1, hc, rfl⟩ | ⟨-, -, -, rfl⟩ | ⟨hlo, hhi, i, b, k1, -, ha, rfl⟩
  · refine killed b k1 ?_
    rcases handleCowFault_spec k p hva with ⟨hr, -⟩ | ⟨pa, rc, b', d, m, hread, hres, hr⟩
    · rw [hr] at hc
      cases hc
      exact hs
    rw [hr] at hc
    cases hc
    have hlt := (cowRead_some hread).1
    have hsz := (hs p).size hlive
    have := hres.sane hs hlive (by omega)
    rwa [← hcow] at this
  · exact hs
  · exact killed b k1 (sane_allocateAndMap hs hlive hcow hlo hhi ha)

end

end Xv6
