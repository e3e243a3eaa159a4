import Xv6.ForkSteps
import Xv6.StepTrades

/-!
The system in which calls of `fork` are interrupted: between any two steps of a call, the
scheduler and the region calls of other processes step in. Its states carry, besides the
kernel, where each call is. Here are the invariant and the steps that are not steps of
`fork`.
-/

namespace Xv6

open Function Kernel

/-- The system with the calls of `fork` that are under way and, for the children that have
not changed their regions themselves, the parent as it was when the call began. -/
structure Forking where
  kernel : Kernel
  pc : Fin NPROC → Option ForkPc
  origin : Fin NPROC → Option Proc

inductive ForkingAct where
  /-- the next step of a call of `fork` -/
  | fork (p : Fin NPROC)
  /-- a step of the scheduler, or a call of `wmap` or `wunmap` -/
  | act (a : Act)

def Act.Schedules : Act → Prop
  | .dispatch _ | .yield _ => True
  | _ => False

/-- The calls that change the regions of the caller. -/
def Act.ChangesRegions : Act → Prop
  | .wmap _ _ _ _ _ | .wunmap _ _ => True
  | _ => False

/-- A call that has just taken the slot `np` records the parent. -/
def Forking.begun (s : Forking) (p : Fin NPROC) : Option ForkPc → Fin NPROC → Option Proc
  | some (.copy np) => update s.origin np (some (s.kernel.proc p))
  | _ => s.origin

/-- Processes on any number of CPUs: the scheduler can step in between any two steps of a
`fork`, and other processes can make their own calls. -/
inductive Forking.Step (s : Forking) : ForkingAct → Forking → Prop where
  | fork {p : Fin NPROC} {pc : Option ForkPc} {k1 : Kernel} : s.kernel.ready p →
      forkStep (s.kernel.enter p) p (s.pc p) = .ok (pc, k1) →
      Step s (.fork p) ⟨k1.leave p, update s.pc p pc, s.begun p pc⟩
  | schedule {a : Act} {k' : Kernel} : a.Schedules → Xv6.Step s.kernel a k' →
      Step s (.act a) ⟨k', s.pc, s.origin⟩
  | call {a : Act} {k' : Kernel} : a.ChangesRegions → s.pc a.proc = none →
      Xv6.Step s.kernel a k' → Step s (.act a) ⟨k', s.pc, update s.origin a.proc none⟩

structure Proc.Built (y x : Proc) : Prop where
  total : y.wmap.total = x.wmap.total
  active : y.wmap.active = x.wmap.active
  slot : ∀ i ∈ x.wmap.active, y.wmap.slot i = x.wmap.slot i
  pages : ∀ v, 0x60000 ≤ v → v < 0x80000 → (x.pgdir.entry v).p = true →
    y.pgdir.entry v = x.pgdir.entry v

structure Proc.Bare (x : Proc) : Prop where
  total : x.wmap.total = 0
  active : x.wmap.active = ∅
  pages : ∀ v, 0x60000 ≤ v → v < 0x80000 → (x.pgdir.entry v).p = false

/-- A process calls `fork` only without mappings, and `wunmap` only frees frames that are
mapped once. -/
def Forking.Clear (s : Forking) : ForkingAct → Prop
  | .fork p => s.pc p = none → (s.kernel.proc p).Bare
  | .act (.wunmap p addr) => (s.kernel.proc p).wmap.isChild = false →
      ∀ v, s.kernel.StartsPage p addr v → ∀ x, s.kernel.Maps p v x →
      ∀ q w, (s.kernel.proc q).state ≠ .embryo → s.kernel.Maps q w x → q = p ∧ w = v
  | _ => True

/-- A state in which no call of `fork` is under way: processes are sane, frames are in one
place, and every process has a kernel stack. -/
structure Kernel.Settled (k : Kernel) : Prop where
  sane : k.Sane
  safe : k.holding.Safe
  stack : ∀ q, (k.proc q).live → ∃ x, (k.proc q).kstack = some x

/-- The kernel stack of a process; in `giveUp` it has been freed already. -/
def Forking.stack (s : Forking) (q : Fin NPROC) : Multiset Frame :=
  if (s.kernel.proc q).live ∧ ∀ p, s.pc p ≠ some (.giveUp q) then (s.kernel.proc q).kstack.toList
  else 0

/-- The free list and the kernel stacks, and the pages that `wunmap` can free. -/
def Forking.holding (s : Forking) : Lib.Holding (Fin NPROC × Nat) Frame where
  pool := s.kernel.mach.kmem.free + ∑ q, s.stack q
  refs r x := (s.kernel.proc r.1).state ≠ .embryo ∧ (s.kernel.proc r.1).wmap.isChild = false ∧
    s.kernel.Maps r.1 r.2 x

/-- What holds at each point of a call of `fork` by process `p`. -/
def Kernel.AtPc (k : Kernel) (p : Fin NPROC) : ForkPc → Prop
  | .copy np => (k.proc p).wmap.active = ∅ ∧ (k.proc np).state = .embryo ∧
      (∃ x, (k.proc np).kstack = some x) ∧ (k.proc np).wmap.Ok
  | .publish np => (k.proc p).wmap.active = ∅ ∧ (k.proc np).state = .embryo ∧
      (∃ x, (k.proc np).kstack = some x) ∧ (k.proc np).wmap.Ok ∧ (k.proc np).sz < 0x80000000 ∧
      (k.proc np).wmap.isChild = true
  | .slots _ _ => (k.proc p).wmap.active = ∅
  | .free np => (k.proc np).state = .embryo ∧ ∃ x, (k.proc np).kstack = some x
  | .giveUp np => (k.proc np).state = .embryo

def ForkPc.unborn : ForkPc → Bool
  | .slots _ _ => false
  | _ => true

structure Proc.Whole (x : Proc) : Prop where
  size : x.sz < 0x80000000
  regions : x.wmap.Ok
  stack : ∃ f, x.kstack = some f

structure Forking.Inv (s : Forking) : Prop where
  whole : ∀ q, (s.kernel.proc q).live → (s.kernel.proc q).state ≠ .embryo → (s.kernel.proc q).Whole
  safe : s.holding.Safe
  busy : ∀ p, s.pc p ≠ none → (s.kernel.proc p).live ∧ (s.kernel.proc p).state ≠ .embryo
  at_pc : ∀ p pc, s.pc p = some pc → s.kernel.AtPc p pc
  unique : ∀ p p' pc pc', s.pc p = some pc → s.pc p' = some pc' → pc.unborn = true →
    pc'.unborn = true → pc.child = pc'.child → p = p'
  bare : ∀ q x, s.origin q = some x → x.Bare ∧ (s.kernel.proc q).wmap.total = 0 ∧
    (s.kernel.proc q).wmap.active = ∅

section
variable {s s' : Forking} {k k' : Kernel} {p q np : Fin NPROC} {pc : ForkPc}

theorem Kernel.AtPc.embryo (h : k.AtPc p pc) (hu : pc.unborn = true) :
    (k.proc pc.child).state = .embryo := by
  cases pc with
  | copy np => exact h.2.1
  | publish np => exact h.2.1
  | slots np is => cases hu
  | free np => exact h.1
  | giveUp np => exact h

/-- A call of `fork` does not notice what changes neither its child nor the regions of its
caller. -/
theorem Kernel.AtPc.congr (h : k.AtPc p pc)
    (hchild : pc.unborn = true → k'.proc pc.child = k.proc pc.child)
    (hwmap : (k'.proc p).wmap = (k.proc p).wmap) : k'.AtPc p pc := by
  cases pc with
  | copy np | publish np | free np | giveUp np =>
    have hc : k'.proc np = k.proc np := hchild rfl
    simp only [Kernel.AtPc, hc, hwmap] at h ⊢
    exact h
  | slots np is =>
    simp only [Kernel.AtPc, hwmap] at h ⊢
    exact h

theorem Kernel.ready.not_embryo (h : k.ready p) : (k.proc p).state ≠ .embryo := by
  rw [h.1]
  decide

theorem Proc.live_of_embryo {x : Proc} (h : x.state = .embryo) : x.live := by
  unfold Proc.live
  rw [h]
  decide

theorem Forking.safe_of_le (h : s.holding.Safe) (hpool : s'.holding.pool ≤ s.holding.pool)
    (hrefs : ∀ r x, s'.holding.refs r x → s.holding.refs r x) : s'.holding.Safe :=
  ⟨Multiset.nodup_of_le hpool h.nodup,
    fun r x hr hx => h.apart r x (hrefs r x hr) (Multiset.mem_of_le hpool hx)⟩

theorem Forking.pool_le (hother : ∀ r, r ≠ q → s'.stack r = s.stack r)
    (h : s'.kernel.mach.kmem.free + s'.stack q ≤ s.kernel.mach.kmem.free + s.stack q) :
    s'.holding.pool ≤ s.holding.pool := by
  have hrest := Lib.sum_erase_congr (i := q) hother
  simp only [Forking.holding]
  rw [Lib.sum_split _ q, Lib.sum_split (fun r => s.stack r) q, hrest, ← add_assoc, ← add_assoc]
  exact add_le_add_left h _

theorem Forking.stack_congr (hlive : (s'.kernel.proc q).live ↔ (s.kernel.proc q).live)
    (hstack : (s'.kernel.proc q).kstack = (s.kernel.proc q).kstack)
    (hpc : (∀ p, s'.pc p ≠ some (.giveUp q)) ↔ ∀ p, s.pc p ≠ some (.giveUp q)) :
    s'.stack q = s.stack q := by
  unfold Forking.stack
  simp only [hlive, hstack, hpc]

/-- The references of a process depend on its state, on whether it is a child, and on which
pages have which frames. -/
theorem Forking.refs_of {r : Fin NPROC × Nat} {x : Frame} (h : s'.holding.refs r x)
    (hstate : (s'.kernel.proc r.1).state = (s.kernel.proc r.1).state)
    (hchild : (s'.kernel.proc r.1).wmap.isChild = (s.kernel.proc r.1).wmap.isChild)
    (hp : ((s'.kernel.proc r.1).pgdir.entry r.2).p = ((s.kernel.proc r.1).pgdir.entry r.2).p)
    (hppn : ((s'.kernel.proc r.1).pgdir.entry r.2).ppn = ((s.kernel.proc r.1).pgdir.entry r.2).ppn) :
    s.holding.refs r x := by
  obtain ⟨h1, h2, h3, h4, h5, h6⟩ := h
  unfold Proc.live at h3
  rw [hstate] at h1 h3
  rw [hchild] at h2
  rw [hp] at h5
  rw [hppn] at h6
  exact ⟨h1, h2, h3, h4, h5, h6⟩

theorem Forking.refs_of_eq {r : Fin NPROC × Nat} {x : Frame} (h : s'.holding.refs r x)
    (he : s'.kernel.proc r.1 = s.kernel.proc r.1) : s.holding.refs r x :=
  refs_of h (by rw [he]) (by rw [he]) (by rw [he]) (by rw [he])

theorem Forking.Inv.of_proc (h : s.Inv) (hpc : s'.pc = s.pc)
    (hne : (s.kernel.proc q).state ≠ .embryo)
    (hproc : ∀ r, r ≠ q → s'.kernel.proc r = s.kernel.proc r)
    (hself : (s'.kernel.proc q).live ∧ (s'.kernel.proc q).state ≠ .embryo)
    (hwhole : (s'.kernel.proc q).Whole)
    (hwmap : s.pc q ≠ none → (s'.kernel.proc q).wmap = (s.kernel.proc q).wmap)
    (hsafe : s'.holding.Safe)
    (hbare : ∀ r x, s'.origin r = some x → x.Bare ∧ (s'.kernel.proc r).wmap.total = 0 ∧
      (s'.kernel.proc r).wmap.active = ∅) : s'.Inv := by
  refine ⟨fun r hl he => ?_, hsafe, fun p hp => ?_, fun p pc hp => ?_,
    fun p p' pc pc' hp hp' => ?_, hbare⟩
  · by_cases hrq : r = q
    · subst hrq
      exact hwhole
    · rw [hproc r hrq] at hl he ⊢
      exact h.whole r hl he
  · by_cases hpq : p = q
    · subst hpq
      exact hself
    · rw [hproc p hpq]
      exact h.busy p (hpc ▸ hp)
  · rw [hpc] at hp
    have hat := h.at_pc p pc hp
    refine hat.congr (fun hu => hproc _ ?_) ?_
    · intro hc
      exact hne (hc ▸ hat.embryo hu)
    · by_cases hpq : p = q
      · subst hpq
        exact hwmap (by rw [hp]; simp)
      · rw [hproc p hpq]
  · rw [hpc] at hp hp'
    exact h.unique p p' pc pc' hp hp'

theorem Forking.pool_le_of_same (hfree : s'.kernel.mach.kmem.free = s.kernel.mach.kmem.free)
    (hstack : ∀ r, s'.stack r = s.stack r) : s'.holding.pool ≤ s.holding.pool := by
  refine le_of_eq ?_
  simp only [Forking.holding, hfree, hstack]

theorem Forking.Inv.setState {st : ProcState} (h : s.Inv)
    (hself : s'.kernel.proc q = { s.kernel.proc q with state := st })
    (hlive : (s.kernel.proc q).live) (hne : (s.kernel.proc q).state ≠ .embryo) (hlive' : st ≠ .unused)
    (hne' : st ≠ .embryo) (hproc : ∀ r, r ≠ q → s'.kernel.proc r = s.kernel.proc r)
    (hfree : s'.kernel.mach.kmem.free = s.kernel.mach.kmem.free) (hpc : s'.pc = s.pc)
    (horigin : s'.origin = s.origin) : s'.Inv := by
  have hfields : ∀ r, (s'.kernel.proc r).wmap = (s.kernel.proc r).wmap ∧
      (s'.kernel.proc r).pgdir = (s.kernel.proc r).pgdir ∧
      (s'.kernel.proc r).kstack = (s.kernel.proc r).kstack ∧
      ((s'.kernel.proc r).live ↔ (s.kernel.proc r).live) ∧
      ((s'.kernel.proc r).state ≠ .embryo → (s.kernel.proc r).state ≠ .embryo) := by
    intro r
    by_cases hr : r = q
    · subst hr
      rw [hself]
      exact ⟨rfl, rfl, rfl, iff_of_true hlive' hlive, fun _ => hne⟩
    · rw [hproc r hr]
      exact ⟨rfl, rfl, rfl, Iff.rfl, id⟩
  refine h.of_proc hpc hne hproc (by rw [hself]; exact ⟨hlive', hne'⟩) ?_
    (fun _ => (hfields q).1) ?_ fun r x hx => ?_
  · obtain ⟨h1, h2, h3⟩ := h.whole q hlive hne
    rw [hself]
    exact ⟨h1, h2, h3⟩
  · refine safe_of_le h.safe (pool_le_of_same hfree fun r => ?_) fun r x hr => ?_
    · exact stack_congr (hfields r).2.2.2.1 (hfields r).2.2.1 (by rw [hpc])
    · obtain ⟨h1, h2, h3, h4, h5, h6⟩ := hr
      obtain ⟨e1, e2, -, e4, e5⟩ := hfields r.1
      rw [e1] at h2
      rw [e2] at h5 h6
      exact ⟨e5 h1, h2, e4.mp h3, h4, h5, h6⟩
  · rw [horigin] at hx
    rw [(hfields r).1]
    exact h.bare r x hx

theorem Forking.Inv.schedule {a : Act} (h : s.Inv) (ha : a.Schedules)
    (hstep : Xv6.Step s.kernel a k') : Forking.Inv ⟨k', s.pc, s.origin⟩ := by
  obtain ⟨hen, hperform⟩ := hstep
  cases perform_ok hperform with
  | @dispatch q =>
    have hrun : (s.kernel.proc q).state = .runnable := hen
    refine h.setState (proc_dispatched_self _ q) ?_ ?_ (by decide) (by decide)
      (fun r hr => proc_dispatched_ne _ hr) rfl rfl rfl
    · unfold Proc.live
      rw [hrun]
      decide
    · rw [hrun]
      decide
  | @yield q =>
    have hready : s.kernel.ready q := hen
    exact h.setState (proc_setProc_self _ q _) hready.live hready.not_embryo (by decide) (by decide)
      (fun r hr => proc_setProc_ne hr) rfl rfl rfl
  | _ => exact ha.elim

/-- What a call of process `q` leaves alone. -/
structure Forking.CallFrame (s : Forking) (q : Fin NPROC) (k' : Kernel) : Prop where
  others : ∀ r, r ≠ q → k'.proc r = s.kernel.proc r
  state : (k'.proc q).state = (s.kernel.proc q).state
  kstack : (k'.proc q).kstack = (s.kernel.proc q).kstack
  isChild : (k'.proc q).wmap.isChild = (s.kernel.proc q).wmap.isChild

abbrev Forking.called (s : Forking) (q : Fin NPROC) (k' : Kernel) : Forking :=
  ⟨k'.leave q, s.pc, update s.origin q none⟩

theorem Forking.CallFrame.stack (h : s.CallFrame q k') (r : Fin NPROC) :
    (s.called q k').stack r = s.stack r := by
  have hsame : (k'.proc r).state = (s.kernel.proc r).state ∧
      (k'.proc r).kstack = (s.kernel.proc r).kstack := by
    by_cases hr : r = q
    · subst hr
      exact ⟨h.state, h.kstack⟩
    · rw [h.others r hr]
      exact ⟨rfl, rfl⟩
  refine stack_congr ?_ hsame.2 Iff.rfl
  show (k'.proc r).state ≠ .unused ↔ (s.kernel.proc r).state ≠ .unused
  rw [hsame.1]

/-- The references after a call are the old ones, as far as the pages of the caller are. -/
theorem Forking.CallFrame.refs {r : Fin NPROC × Nat} {x : Frame} (h : s.CallFrame q k')
    (hr : (s.called q k').holding.refs r x) (hself : r.1 = q →
      (k'.proc q).pgdir.entry r.2 = (s.kernel.proc q).pgdir.entry r.2) :
    s.holding.refs r x := by
  obtain ⟨r, v⟩ := r
  by_cases hrq : r = q
  · subst hrq
    have he : (k'.proc r).pgdir.entry v = (s.kernel.proc r).pgdir.entry v := hself rfl
    exact refs_of hr h.state h.isChild (congrArg (·.p) he) (congrArg Pte.ppn he)
  · exact refs_of_eq hr (h.others r hrq)

theorem Forking.CallFrame.inv (hf : s.CallFrame q k') (h : s.Inv) (hready : s.kernel.ready q)
    (hpc : s.pc q = none) (hwhole : (k'.proc q).Whole) (hsafe : (s.called q k').holding.Safe) :
    (s.called q k').Inv := by
  have hne := hready.not_embryo
  have hself : (k'.proc q).live ∧ (k'.proc q).state ≠ .embryo := by
    unfold Proc.live
    rw [hf.state]
    exact ⟨hready.live, hne⟩
  refine h.of_proc (q := q) rfl hne hf.others hself hwhole (fun hn => (hn hpc).elim) hsafe
    fun r x hx => ?_
  change update s.origin q none r = some x at hx
  show x.Bare ∧ (k'.proc r).wmap.total = 0 ∧ (k'.proc r).wmap.active = ∅
  by_cases hr : r = q
  · subst hr
    simp at hx
  · rw [update_of_ne hr] at hx
    rw [hf.others r hr]
    exact h.bare r x hx

theorem Forking.Inv.wmap {addr : Nat} {length : Int} {flags : Nat} {fd : Int} {r : Option Nat}
    (h : s.Inv) (hready : s.kernel.ready q) (hpc : s.pc q = none) (ha : addr < 0x100000000)
    (hl : length < 0x80000000)
    (hcall : sysWmap (s.kernel.enter q) q addr length flags fd = .ok (r, k')) :
    (s.called q k').Inv := by
  have hne := hready.not_embryo
  have hwhole := h.whole q hready.live hne
  rcases sysWmap_cases hcall with ⟨-, rfl⟩ | ⟨hlo, hb, -, -, hal, hpos, hw⟩
  · have hf : s.CallFrame q (s.kernel.enter q) := ⟨fun _ _ => rfl, rfl, rfl, rfl⟩
    refine hf.inv h hready hpc hwhole ?_
    exact safe_of_le h.safe (pool_le_of_same rfl hf.stack) fun r x hr => hf.refs hr fun _ => rfl
  obtain ⟨hk, n, hcases⟩ := wmap_spec hw
  have hself : k'.proc q = { s.kernel.proc q with
      ofile := (k'.proc q).ofile, wmap := (k'.proc q).wmap } := by
    conv_lhs => rw [hk]
    rw [proc_setProc_self]
    rfl
  have hok : (k'.proc q).wmap.Ok ∧
      (k'.proc q).wmap.isChild = (s.kernel.proc q).wmap.isChild := by
    rcases hcases with ⟨-, -, hsame⟩ | ⟨-, hadd⟩
    · rw [hsame]
      exact ⟨hwhole.regions, rfl⟩
    · obtain ⟨-, -, i, -, he⟩ := Wmap.add_some hadd
      rw [he]
      exact ⟨wmapOk_update hwhole.regions fun _ =>
        regionOk_of_sysWmap ha hl hlo hb hal hpos, rfl⟩
  have hf : s.CallFrame q k' := by
    refine ⟨fun r hr => ?_, by rw [hself], by rw [hself], hok.2⟩
    rw [hk, proc_setProc_ne hr]
    rfl
  refine hf.inv h hready hpc ?_ ?_
  · rw [hself]
    exact ⟨hwhole.size, hok.1, hwhole.stack⟩
  · refine safe_of_le h.safe (pool_le_of_same ?_ hf.stack) fun r x hr => hf.refs hr fun _ => ?_
    · rw [hk]
      rfl
    · rw [hself]

/-- `wunmap` frees frames of a process that is not a child, which are mapped once. -/
theorem Forking.Inv.wunmap {addr : Nat} {b : Bool} (h : s.Inv) (hready : s.kernel.ready q)
    (hpc : s.pc q = none) (hclear : s.Clear (.act (.wunmap q addr)))
    (hcall : sysWunmap (s.kernel.enter q) q addr = .ok (b, k')) : (s.called q k').Inv := by
  have hne := hready.not_embryo
  have hwhole := h.whole q hready.live hne
  have hok : ((s.kernel.enter q).proc q).wmap.Ok := hwhole.regions
  obtain ⟨done, hu, hpages⟩ := sysWunmap_spec hok hcall
  have hself := hu.proc_self
  have hf : s.CallFrame q k' :=
    ⟨fun r hr => hu.proc_ne hr, by rw [hself]; rfl, by rw [hself]; rfl, hu.isChild⟩
  refine hf.inv h hready hpc ?_ ?_
  · refine ⟨?_, hu.wmapOk hok, ?_⟩
    · rw [hself]
      exact hwhole.size
    · rw [hself]
      exact hwhole.stack
  have hkept : ∀ v, v ∉ done →
      (k'.proc q).pgdir.entry v = (s.kernel.proc q).pgdir.entry v := hu.cleared.kept
  have hgone : ∀ v x, (s.called q k').holding.refs (q, v) x → v ∉ done := by
    rintro v x ⟨-, -, hm⟩ hv
    have hp : ((k'.proc q).pgdir.entry v).p = true := hm.present
    rw [hu.cleared.cleared v hv] at hp
    cases hp
  have hrefs : ∀ r x, (s.called q k').holding.refs r x → s.holding.refs r x := by
    rintro ⟨r, v⟩ x hr
    refine hf.refs hr fun hrq => hkept v ?_
    subst hrq
    exact hgone v x hr
  have hfree := hu.freed.free
  cases hchild : (s.kernel.proc q).wmap.isChild with
  | true =>
    rw [show ((s.kernel.enter q).proc q).wmap.isChild = true from hchild, if_pos rfl,
      add_zero] at hfree
    exact safe_of_le h.safe (pool_le_of_same hfree hf.stack) hrefs
  | false =>
    rw [show ((s.kernel.enter q).proc q).wmap.isChild = false from hchild,
      if_neg (by decide)] at hfree
    have hvalid : ∀ v ∈ done, s.kernel.Maps q v ((s.kernel.proc q).pgdir.entry v).ppn :=
      fun v hv => ⟨hready.live, (hpages v hv).1, hu.present v hv, rfl⟩
    have hexch : Lib.Exchange s.holding (s.called q k').holding
        (done.map fun v => ((q, v), ((s.kernel.proc q).pgdir.entry v).ppn)) Set.univ 0 0 := by
      refine ⟨?_, ?_, ?_, fun r x hr => Or.inr ⟨r, hrefs r x hr, ?_⟩, by simp,
        fun r x _ hd => (hd (Set.mem_univ r)).elim⟩
      · simp only [Forking.holding, add_zero, hf.stack, List.map_map]
        show k'.mach.kmem.free + _ = _
        rw [hfree, add_right_comm]
        rfl
      · simp only [List.map_map]
        exact hu.nodup.map fun v w hvw => (Prod.ext_iff.mp hvw).2
      · intro e he
        obtain ⟨v, hv, rfl⟩ := List.mem_map.mp he
        exact ⟨hne, hchild, hvalid v hv⟩
      · intro hmem
        obtain ⟨e, he, hre⟩ := List.mem_map.mp hmem
        obtain ⟨v, hv, rfl⟩ := List.mem_map.mp he
        subst hre
        exact hgone v x hr hv
    refine hexch.safe h.safe fun e he => ?_
    obtain ⟨v, hv, rfl⟩ := List.mem_map.mp he
    rintro x ⟨-, -, hm⟩ ⟨r, w⟩ ⟨hre, -, hm'⟩
    obtain ⟨rfl, rfl⟩ := hclear hchild v (hpages v hv).2 x hm r w hre hm'
    rfl

end

end Xv6
