import Xv6.ForkingSteps
import Xv6.FirstRuns
import Mathlib.Algebra.Order.BigOperators.Group.Finset

/-!
Children that run before they are built. `fork` makes the child runnable and only then
copies the regions of the parent, so that another CPU can run a child without them. When
processes fork only without regions, no child is ever seen half-built and no kernel stack
of a process that can run is free.
-/

namespace Xv6

open Function Multiset Kernel

section
variable {s : Forking} {k : Kernel} {q : Fin NPROC}

theorem Forking.pool_le_total {origin : Fin NPROC → Option Proc} (k : Kernel) :
    (Forking.holding ⟨k, fun _ => none, origin⟩).pool ≤ k.total := by
  have hstack : ∀ q, Forking.stack ⟨k, fun _ => none, origin⟩ q ≤ (k.proc q).owned := by
    intro q
    unfold Forking.stack Proc.owned
    dsimp only
    split
    · rename_i hl
      rw [if_pos hl.1]
      exact le_add_right _ _
    · exact zero_le _
  refine le_trans ?_ (le_add_right _ k.kpgdir.frames)
  exact add_le_add_right (Finset.sum_le_sum fun q _ => hstack q) _

theorem Kernel.Settled.inv (h : k.Settled) : Forking.Inv ⟨k, fun _ => none, fun _ => none⟩ := by
  refine ⟨fun q hl _ => ⟨(h.sane q).size hl, (h.sane q).wmap hl, h.stack q hl⟩, ⟨?_, ?_⟩,
    fun _ hp => (hp rfl).elim, nofun, nofun, nofun⟩
  · exact nodup_of_le (Forking.pool_le_total k) h.safe.nodup
  · rintro r x ⟨-, -, hm⟩ hx
    exact h.safe.apart r x hm (mem_of_le (Forking.pool_le_total k) hx)

theorem Forking.Inv.stack_not_free {x : Frame} (h : s.Inv) (hl : (s.kernel.proc q).live)
    (he : (s.kernel.proc q).state ≠ .embryo) (hx : (s.kernel.proc q).kstack = some x) :
    x ∉ s.kernel.mach.kmem.freelist := by
  have hstack : s.stack q = {x} := by
    rw [stack, if_pos, hx]
    · rfl
    · refine ⟨hl, fun p hp => he ?_⟩
      exact h.at_pc p _ hp
  have hn := h.safe.nodup
  simp only [Forking.holding] at hn
  rw [Lib.sum_split _ q, hstack] at hn
  intro hmem
  exact disjoint_left.mp (nodup_add.mp hn).2.2 (mem_coe.mpr hmem) (by simp)

/-- In every state that steps of `fork`, of the scheduler and of the region calls reach, as
long as processes fork without mappings, a process that can run has the regions and the
window pages its parent had when it forked, unless it has changed its regions itself, and
a kernel stack that is not free. -/
theorem children_built {as : List ForkingAct} {s : Forking} (hk : k.Settled)
    (h : Lib.Run (Lib.When Forking.Clear Forking.Step) ⟨k, fun _ => none, fun _ => none⟩ as s)
    (hq : (s.kernel.proc q).state = .runnable ∨ (s.kernel.proc q).state = .running) :
    (∀ x, s.origin q = some x → (s.kernel.proc q).Built x) ∧
    ∃ f, (s.kernel.proc q).kstack = some f ∧ f ∉ s.kernel.mach.kmem.freelist := by
  have hinv : s.Inv := h.invariant Forking.Inv hk.inv fun t a u ht hstep => ht.step hstep.1 hstep.2
  have hl : (s.kernel.proc q).live ∧ (s.kernel.proc q).state ≠ .embryo := by
    unfold Proc.live
    rcases hq with hq | hq
    · rw [hq]
      decide
    · rw [hq]
      decide
  refine ⟨fun x hx => ?_, ?_⟩
  · obtain ⟨hbare, htotal, hactive⟩ := hinv.bare q x hx
    refine ⟨htotal.trans hbare.total.symm, hactive.trans hbare.active.symm, fun i hi => ?_,
      fun v hlo hhi hp => ?_⟩
    · rw [hbare.active] at hi
      simp at hi
    · rw [hbare.pages v hlo hhi] at hp
      cases hp
  · obtain ⟨f, hf⟩ := (hinv.whole q hl.1 hl.2).stack
    exact ⟨f, hf, hinv.stack_not_free hl.1 hl.2 hf⟩

end

theorem Booted.settled {image : Image} {freelist : List Frame} {fs : Files} {root : Nat}
    {k : Kernel} {x s : Frame} (h : Booted image freelist fs root k x s) (hn : freelist.Nodup) :
    k.Settled := by
  refine ⟨h.sane, h.safe hn, fun q hl => ?_⟩
  by_cases hq : q = 0
  · subst hq
    exact ⟨s, by rw [h.self]⟩
  · rw [h.others q hq] at hl
    exact (hl rfl).elim

theorem Forking.step_fork {s : Forking} {p : Fin NPROC} {pc pc' : Option ForkPc} {k : Kernel}
    (hr : s.kernel.ready p) (hpc : s.pc p = pc)
    (h : forkStep (s.kernel.enter p) p pc = .ok (pc', k)) :
    Forking.Step s (.fork p) ⟨k.leave p, update s.pc p pc', s.begun p pc'⟩ := by
  subst hpc
  exact .fork hr h

/-- A process that can fork gets to the point where its child is scheduled on another CPU,
before any region has been copied. -/
theorem exists_published {k : Kernel} {p : Fin NPROC} (origin : Fin NPROC → Option Proc)
    (hr : k.ready p) (h : Forkable k p) : ∃ np s,
    Lib.Run (Lib.When (fun t a => (k.proc p).Bare → t.Clear a) Forking.Step)
      ⟨k, fun _ => none, origin⟩ [.fork p, .fork p, .fork p, .act (.dispatch np)] s ∧
    s.origin np = some (k.proc p) ∧ (s.kernel.proc np).state = .running ∧
    (s.kernel.proc np).wmap.active = ∅ := by
  obtain ⟨np, k1, ha⟩ := allocproc_total (k := k.enter p) h.slot
    (by have : 1027 ≤ (k.enter p).mach.kmem.free.card := h.memory; omega)
  obtain ⟨hun, x, a, hx, hk1⟩ := allocproc_some ha
  have hpn : p ≠ np := by
    rintro rfl
    exact hr.live hun
  have hp1 : k1.proc p = k.proc p := by
    rw [hk1, proc_setProc_ne hpn]
    rfl
  have hnp1 : (k1.proc np).wmap = Wmap.init := by
    rw [hk1, proc_setProc_self]
  have hcard : 1026 ≤ k1.mach.kmem.free.card := by
    have hm : 1027 ≤ (k.enter p).mach.kmem.free.card := h.memory
    have := congrArg Multiset.card (free_kalloc hx)
    rw [card_cons] at this
    rw [hk1]
    change 1026 ≤ a.free.card
    omega
  have hfs1 : k1.fs = k.fs := by
    rw [hk1]
    rfl
  obtain ⟨k2, hc⟩ := forkCopy_total (k := (k1.leave p).enter p) hpn
    (by change (k1.proc p).sz ≤ _; rw [hp1]; exact h.size) hcard
    (by change ∀ v, v < sizePages (k1.proc p).sz → ((k1.proc p).pgdir.entry v).p = true
        rw [hp1]; exact h.present)
    (by change ∀ i f, (k1.proc p).ofile i = some f → 1 ≤ (k1.fs.file f).ref
        rw [hp1, hfs1]; exact h.files)
    (by change (k1.proc p).cwd ≠ none; rw [hp1]; exact h.cwd)
  have hcopy := forkCopy_spec hpn (by change (k1.proc p).sz ≤ _; rw [hp1]; exact h.size) hc
  have hr1 : (k1.leave p).ready p := by
    change (k1.proc p).state = .running ∧ (k1.proc p).cowFault = none
    rw [hp1]
    exact hr
  have hr2 : (k2.leave p).ready p := by
    change (k2.proc p).state = .running ∧ (k2.proc p).cowFault = none
    rw [hcopy.parent]
    exact hr1
  obtain ⟨d, parent, tf, ofile, cwd, name, hnp2⟩ := hcopy.child rfl
  have hw2 : (k2.proc np).wmap.active = ∅ := by
    rw [hnp2]
    change (k1.proc np).wmap.active = ∅
    rw [hnp1]
    decide
  have h1 : forkStep (k.enter p) p none = .ok (some (.copy np), k1) := by
    rw [forkStep, ha]
    rfl
  have h2 : forkStep ((k1.leave p).enter p) p (some (.copy np)) = .ok (some (.publish np), k2) := by
    rw [forkStep, Lib.bind_eq_ok]
    exact ⟨_, hc, rfl⟩
  let s1 : Forking := ⟨k1.leave p, update (fun _ => none) p (some (.copy np)),
    update origin np (some (k.proc p))⟩
  let s2 : Forking := ⟨k2.leave p, update s1.pc p (some (.publish np)), s1.origin⟩
  let s3 : Forking := ⟨(publish ((k2.leave p).enter p) np).leave p,
    update s2.pc p (some (.slots np (List.finRange MAX_WMMAP_INFO))), s1.origin⟩
  have t1 : Forking.Step ⟨k, fun _ => none, origin⟩ (.fork p) s1 := Forking.step_fork hr rfl h1
  have hpc1 : s1.pc p = some (.copy np) := by simp [s1]
  have t2 : Forking.Step s1 (.fork p) s2 := Forking.step_fork hr1 hpc1 h2
  have hpc2 : s2.pc p = some (.publish np) := by simp [s2]
  have t3 : Forking.Step s2 (.fork p) s3 := Forking.step_fork hr2 hpc2 rfl
  have hnp3 : s3.kernel.proc np = { k2.proc np with state := .runnable } :=
    proc_setProc_self ..
  have t4 : Forking.Step s3 (.act (.dispatch np)) ⟨s3.kernel.dispatched np, s3.pc, s3.origin⟩ :=
    .schedule trivial (step_dispatch (by rw [hnp3]))
  have c1 : s1.Clear (.fork p) := fun hnone => by simp [hpc1] at hnone
  have c2 : s2.Clear (.fork p) := fun hnone => by simp [hpc2] at hnone
  refine ⟨np, ⟨s3.kernel.dispatched np, s3.pc, s3.origin⟩,
    (((Lib.Run.single ⟨fun hb _ => hb, t1⟩).snoc ⟨fun _ => c1, t2⟩).snoc ⟨fun _ => c2, t3⟩).snoc
      ⟨fun _ => trivial, t4⟩, update_self .., ?_, ?_⟩
  · rw [proc_dispatched_self]
  · rw [proc_dispatched_self, hnp3]
    exact hw2

/-- `initproc` forks as soon as it runs, and the child is scheduled. -/
theorem children_built_of_init : ∃ (k : Kernel) (s : Forking) (q : Fin NPROC) (x : Proc), k.Start ∧
    (s.kernel.proc q).state = .running ∧ s.origin q = some x ∧ (s.kernel.proc q).Built x ∧
    ∃ f, (s.kernel.proc q).kstack = some f ∧ f ∉ s.kernel.mach.kmem.freelist := by
  obtain ⟨k, x, f, hstart, hb⟩ := exists_booted rootFiles 1
  have hself : (k.dispatched 0).proc 0 = { k.proc 0 with state := .running } :=
    Kernel.proc_dispatched_self k 0
  have hbare : ((k.dispatched 0).proc 0).Bare := by
    rw [hself, hb.self]
    refine ⟨rfl, Wmap.active_init, fun v hlo hhi => ?_⟩
    change ((k.proc 0).pgdir.entry v).p = false
    rw [hb.space.entry v hhi, if_neg (by omega)]
    rfl
  obtain ⟨np, s, hrun, horigin, hnp, -⟩ := exists_published (k := k.dispatched 0) (p := 0)
    (fun _ => none) hb.ready hb.forkable
  have hfirst : Lib.Run (Lib.When Forking.Clear Forking.Step) ⟨k, fun _ => none, fun _ => none⟩
      [.act (.dispatch 0)] ⟨k.dispatched 0, fun _ => none, fun _ => none⟩ :=
    Lib.Run.single ⟨trivial, .schedule trivial hb.dispatch⟩
  have hall := hfirst.trans (hrun.mono fun t a u h => ⟨h.1 hbare, h.2⟩)
  obtain ⟨hbuilt, hstack⟩ := children_built (hb.settled pcImage.nodup_frames) hall (Or.inr hnp)
  exact ⟨k, s, np, _, hstart, hnp, horigin, hbuilt _ horigin, hstack⟩

/-- `initproc` maps a page of the window and forks; the child runs before its regions are
copied. -/
theorem child_runs_half_built : ∃ (k : Kernel) (as : List ForkingAct) (s : Forking) (q : Fin NPROC)
    (x : Proc), k.Start ∧ Lib.Run Forking.Step ⟨k, fun _ => none, fun _ => none⟩ as s ∧
    (s.kernel.proc q).state = .running ∧ s.origin q = some x ∧ ¬ (s.kernel.proc q).Built x := by
  obtain ⟨k, k1, x, f, h⟩ := exists_mapped
  obtain ⟨np, s, hrun, horigin, hnp, hempty⟩ := exists_published (k := k1) (p := 0)
    (update (fun _ => none) 0 none) h.ready h.forkable
  have hfirst : Lib.Run Forking.Step ⟨k, fun _ => none, fun _ => none⟩
      [.act (.dispatch 0)] ⟨k.dispatched 0, fun _ => none, fun _ => none⟩ :=
    Lib.Run.single (.schedule trivial h.dispatch)
  have hsecond : Forking.Step ⟨k.dispatched 0, fun _ => none, fun _ => none⟩
      (.act (.wmap 0 0x60000000 4096 14 (-1))) ⟨k1, fun _ => none, update (fun _ => none) 0 none⟩ :=
    .call trivial rfl h.wmap
  refine ⟨k, _, s, np, _, h.start, (hfirst.snoc hsecond).trans (hrun.mono fun t a u h => h.2), hnp,
    horigin, fun hbuilt => ?_⟩
  have hactive := hbuilt.active
  rw [hempty, h.proc, Wmap.active_onePage] at hactive
  exact Finset.singleton_ne_empty _ hactive.symm

/-- The steps of `fork` without interruption lead where the call leads. -/
theorem forkAlone_fork {k k' : Kernel} {p : Fin NPROC} {r : Option Nat} (h : fork k p = .ok (r, k')) :
    ∃ ls, Lib.Run (ForkAlone p) (none, k) ls (none, k') := by
  rw [fork_eq] at h
  split at h
  · rename_i k1 ha
    cases h
    have h1 : ForkAlone p (none, k) () (none, k') := by
      rw [ForkAlone, forkStep, ha]
      rfl
    exact ⟨_, Lib.Run.single h1⟩
  rename_i np k1 ha
  obtain ⟨⟨ok, k2⟩, hc, h⟩ := Lib.bind_eq_ok.mp h
  have h1 : ForkAlone p (none, k) () (some (.copy np), k1) := by
    rw [ForkAlone, forkStep, ha]
    rfl
  have h2 : ForkAlone p (some (.copy np), k1) ()
      (some (if ok then .publish np else .free np), k2) := by
    rw [ForkAlone, forkStep, Lib.bind_eq_ok]
    exact ⟨(ok, k2), hc, rfl⟩
  have hrun := (Lib.Run.single h1).snoc h2
  cases ok with
  | true =>
    obtain ⟨⟨b, k3⟩, hw, h⟩ := Lib.bind_eq_ok.mp h
    obtain ⟨ls, hls⟩ := forkAlone_slots hw
    have h3 := (hrun.snoc (a := ()) rfl).trans hls
    cases b with
    | true =>
      cases h
      exact ⟨_, h3⟩
    | false =>
      obtain ⟨k4, hd, h⟩ := Lib.bind_eq_ok.mp h
      cases h
      obtain ⟨ls', hls'⟩ := forkAlone_drop hd
      exact ⟨_, h3.trans hls'⟩
  | false =>
    obtain ⟨k3, hd, h⟩ := Lib.bind_eq_ok.mp h
    cases h
    obtain ⟨ls, hls⟩ := forkAlone_drop hd
    exact ⟨_, hrun.trans hls⟩

theorem forkAlone_fork_init : ∃ k r k', fork k 0 = .ok (r, k') ∧
    ∃ ls, Lib.Run (ForkAlone 0) (none, k) ls (none, k') := by
  obtain ⟨k, x, s, -, hb⟩ := exists_booted rootFiles 1
  obtain ⟨r, k', hfork⟩ := fork_total hb.ready.live hb.forkable
  exact ⟨_, r, k', hfork, forkAlone_fork hfork⟩

end Xv6
