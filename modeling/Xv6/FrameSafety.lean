import Xv6.FirstRuns

/-!
Frames over whole runs. As long as no step frees a frame that another entry maps, the free
list has no frame twice and none that is in use. As long as each entry that disappears is
freed or leaves another entry for its frame behind, no frame goes missing.
-/

namespace Xv6

open Multiset

variable {k k0 : Kernel} {x x0 : Frame}

def FreesUnshared (k : Kernel) (a : Act) : Prop :=
  ∀ q v x, a.Frees k q v → k.Maps q v x → ∀ r w, k.Maps r w x → r = q ∧ w = v

/-- The pages that disappear in a step are freed, or their frames are mapped elsewhere, and
nothing that can lose frames happens on the way. -/
def DropsHeld (k : Kernel) (a : Act) : Prop :=
  ¬ a.Lossy k ∧ ∀ q v x, k.Maps q v x → a.Drops k q v →
    a.Frees k q v ∨ ∃ r w, k.Maps r w x ∧ ¬ a.Drops k r w

section
variable {k k' : Kernel} {a : Act}

theorem step_safe (hs : k.Sane) (hsafe : k.holding.Safe) (hc : FreesUnshared k a)
    (h : Step k a k') : k'.holding.Safe := by
  obtain ⟨added, freed, dropped, lost, hx, hfrees, -⟩ := step_trades hs h
  refine hx.safe hsafe ?_
  rintro ⟨⟨q, v⟩, x⟩ he y hy ⟨r, w⟩ hr
  obtain ⟨rfl, rfl⟩ := hc q v y (hfrees _ he) hy r w hr
  rfl

theorem step_accounted (hs : k.Sane) (hc : DropsHeld k a) (h : Step k a k')
    (hx : k.holding.Accounted x) : k'.holding.Accounted x := by
  obtain ⟨added, freed, dropped, lost, hex, -, hkeep⟩ := step_trades hs h
  obtain ⟨rfl, hdropped⟩ := hkeep hc.1
  refine hex.accounted ?_ hx
  rintro ⟨q, v⟩ y hm hd
  obtain ⟨hdrop, hfreed⟩ := hdropped q v hd
  rcases hc.2 q v y hm hdrop with hf | ⟨r, w, hr, hnot⟩
  · exact Or.inl (hfreed y hm hf)
  · exact Or.inr ⟨(r, w), hr, fun hd' => hnot (hdropped r w hd').1⟩

/-- What a state keeps of the frames: the free list and the kernel's own frames are apart and
hold nothing that is mapped. -/
theorem Kernel.Start.safe_run {acts : List Act} (hstart : k0.Start)
    (hrun : Lib.Run (Lib.When FreesUnshared Step) k0 acts k) : k.Sane ∧ k.holding.Safe :=
  hrun.invariant (fun k => k.Sane ∧ k.holding.Safe) ⟨hstart.sane, hstart.safe⟩
    fun _ _ _ h hstep => ⟨step_sane h.1 hstep.2, step_safe h.1 h.2 hstep.1 hstep.2⟩

theorem no_dangling_frames {k0 : Kernel} {acts : List Act} (hstart : k0.Start)
    (hrun : Lib.Run (Lib.When FreesUnshared Step) k0 acts k) :
    k.mach.kmem.freelist.Nodup ∧ ∀ x ∈ k.mach.kmem.freelist, ∀ q v, ¬ k.Maps q v x := by
  obtain ⟨-, hsafe⟩ := hstart.safe_run hrun
  refine ⟨?_, fun x hx q v hm => hsafe.apart (q, v) x hm (Kernel.mem_total_of_free hx)⟩
  have hnodup : k.total.Nodup := hsafe.nodup
  exact Multiset.coe_nodup.mp (Multiset.nodup_add.mp (Multiset.nodup_add.mp hnodup).1).1

end

/-- The page that `initproc` has touched, and what it is in when `wunmap` is called. -/
structure Unmappable (k : Kernel) (x : Frame) : Prop where
  ready : k.ready 0
  wmap : (k.proc 0).wmap = Wmap.loadedPage
  usable : (k.proc 0).pgdir.Usable k.mach.image
  maps : k.Maps 0 0x60000 x

theorem Touched.unmappable (h : Touched k x0 x) : Unmappable k x := by
  refine ⟨h.ready, h.wmap, by rw [h.image]; exact h.usable, h.ready.live, by decide, ?_, ?_⟩
  · rw [h.entry _ (by decide)]
    rfl
  · rw [h.entry _ (by decide)]
    rfl

/-- `initproc` unmaps the page: the frame is free, and no other process was asked. -/
theorem Unmappable.unmap (h : Unmappable k x) :
    ∃ k', Step k (.wunmap 0 0x60000000) k' ∧ x ∈ k'.mach.kmem.freelist ∧
      ∀ q, q ≠ 0 → k'.proc q = k.proc q := by
  obtain ⟨k1, done, hstep, hun, hdone⟩ := step_wunmap_loadedPage h.ready h.wmap h.usable h.maps.present
  refine ⟨_, hstep, ?_, fun q hq => hun.proc_ne hq⟩
  have hchild : ((k.enter 0).proc 0).wmap.isChild = false := by
    change (k.proc 0).wmap.isChild = false
    rw [h.wmap]
    rfl
  have hfree := hun.freed.free
  rw [hchild] at hfree
  have hmem : x ∈ k1.mach.kmem.free := by
    rw [hfree]
    refine mem_add.mpr (Or.inr (mem_coe.mpr ?_))
    exact List.mem_map.mpr ⟨_, hdone, h.maps.ppn⟩
  exact hmem

theorem freesUnshared_of_injective {a : Act}
    (h : ∀ q v r w x, k.Maps q v x → k.Maps r w x → r = q ∧ w = v) : FreesUnshared k a :=
  fun q v x _ hm r w hm' => h q v r w x hm hm'

theorem Mapped.injective {s : Frame} (h : Mapped k0 k x0 s) (q : Fin NPROC) (v : Nat)
    (r : Fin NPROC) (w : Nat) (x : Frame) (hm : k.Maps q v x) (hm' : k.Maps r w x) :
    r = q ∧ w = v := by
  obtain ⟨rfl, rfl, -⟩ := h.maps hm
  obtain ⟨rfl, rfl, -⟩ := h.maps hm'
  exact ⟨rfl, rfl⟩

theorem Touched.injective (h : Touched k x0 x) (q : Fin NPROC) (v : Nat) (r : Fin NPROC) (w : Nat)
    (y : Frame) (hm : k.Maps q v y) (hm' : k.Maps r w y) : r = q ∧ w = v := by
  have hcases : ∀ {q v}, k.Maps q v y → q = 0 ∧ (v = 0x60000 ∧ y = x ∨ v = 0 ∧ y = x0) := by
    intro q v hm
    obtain rfl : q = 0 := by_contra fun hq => hm.live (h.others q hq)
    have hp := hm.present
    have hy := hm.ppn
    rw [h.entry v hm.user] at hp hy
    split_ifs at hp hy with h1 h2
    · exact ⟨rfl, Or.inl ⟨h1, hy.symm⟩⟩
    · exact ⟨rfl, Or.inr ⟨h2, hy.symm⟩⟩
    · cases hp
  have hne := h.apart
  obtain ⟨rfl, h1⟩ := hcases hm
  obtain ⟨rfl, h2⟩ := hcases hm'
  refine ⟨rfl, ?_⟩
  rcases h1 with ⟨rfl, h1⟩ | ⟨rfl, h1⟩ <;> rcases h2 with ⟨rfl, h2⟩ | ⟨rfl, h2⟩
  · rfl
  · exact (hne (h1.symm.trans h2)).elim
  · exact (hne (h2.symm.trans h1)).elim
  · rfl

/-- `initproc` maps a page, touches it and unmaps it: the frame that is freed was mapped
nowhere else. -/
theorem no_dangling_frames_one_page : ∃ (k0 k : Kernel) (x : Frame), k0.Start ∧
    x ∈ k.mach.kmem.freelist ∧ k.mach.kmem.freelist.Nodup ∧
    ∀ x ∈ k.mach.kmem.freelist, ∀ q v, ¬ k.Maps q v x := by
  obtain ⟨k0, k2, x0, s, hmapped⟩ := exists_mapped
  obtain ⟨k3, x, hfault, htouched⟩ := hmapped.touch
  obtain ⟨k4, hunmap, hfree, -⟩ := htouched.unmappable.unmap
  have h1 : FreesUnshared k0 (.dispatch 0) := fun _ _ _ hf => hf.elim
  have h2 : FreesUnshared (k0.dispatched 0) (.wmap 0 0x60000000 4096 14 (-1)) :=
    fun _ _ _ hf => hf.elim
  have hrun : Lib.Run (Lib.When FreesUnshared Step) k0 _ k4 :=
    (((Lib.Run.single ⟨h1, hmapped.dispatch⟩).snoc ⟨h2, hmapped.wmap⟩).snoc
      ⟨freesUnshared_of_injective hmapped.injective, hfault⟩).snoc
      ⟨freesUnshared_of_injective htouched.injective, hunmap⟩
  exact ⟨k0, k4, x, hmapped.start, hfree, no_dangling_frames hmapped.start hrun⟩

theorem Touched.fork (h : Touched k x0 x) :
    ∃ k' np, Step k (.fork 0) k' ∧ np ≠ 0 ∧ Unmappable k' x ∧ k'.Maps np 0x60000 x := by
  obtain ⟨np, k1, st, a, m, d, done, hfork, hforked⟩ := step_forked h.ready h.forkable
  have hsize : sizePages ((k.enter 0).proc 0).sz = 1 := by
    change sizePages (k.proc 0).sz = 1
    rw [h.size]
    rfl
  have hparent : ∀ v, ((k1.proc 0).pgdir.entry v).p = ((k.proc 0).pgdir.entry v).p ∧
      ((k1.proc 0).pgdir.entry v).ppn = ((k.proc 0).pgdir.entry v).ppn := by
    intro v
    rw [hforked.copy.parent v, hsize]
    split
    · rename_i hv
      obtain rfl : v = 0 := by omega
      have hp : (((k.enter 0).proc 0).pgdir.entry 0).p = true := hforked.copy.present 0 (by omega)
      exact ⟨(Pte.share_p _ hp).trans hp.symm, Pte.share_ppn _⟩
    · exact ⟨rfl, rfl⟩
  have hm := h.unmappable.maps
  have hpage : 0x60000 ∈ done := by
    refine hforked.all 0 ?_ 0x60000 ?_ ((hparent _).1.trans hm.present)
    · change 0 ∈ (k.proc 0).wmap.active
      rw [h.wmap, Wmap.active_loadedPage]
      decide
    · change 0x60000 ∈ ((k.proc 0).wmap.slot 0).pages
      rw [h.wmap]
      decide
  have hchild : (k1.proc np).pgdir.entry 0x60000 = (k1.proc 0).pgdir.entry 0x60000 := by
    rw [hforked.inherited.entry, if_pos hpage]
  have hready : (k1.leave 0).ready 0 := by
    change (k1.proc 0).state = .running ∧ (k1.proc 0).cowFault = none
    rw [hforked.parent]
    exact h.ready
  have himage : k1.mach.image = pcImage := by
    rw [hforked.mach]
    exact hforked.copy.image.trans h.image
  refine ⟨_, np, hfork, hforked.ne, ⟨hready, ?_, ?_, hready.live, by decide,
    (hparent _).1.trans hm.present, (hparent _).2.trans hm.ppn⟩, ?_, by decide, ?_, ?_⟩
  · change (k1.proc 0).wmap = _
    rw [hforked.parent]
    exact h.wmap
  · intro v hv hp
    change ((k1.proc 0).pgdir.entry v).p = true at hp
    rw [(hparent v).1] at hp
    change k1.mach.image.kend ≤ ((k1.proc 0).pgdir.entry v).ppn ∧ _
    rw [himage]
    have hu := h.usable v hv hp
    rw [← (hparent v).2] at hu
    exact hu
  · obtain ⟨ofile, cwd, name, hc⟩ := hforked.child
    change (k1.proc np).live
    rw [hc]
    simp [Proc.live]
  · change ((k1.proc np).pgdir.entry 0x60000).p = true
    rw [hchild]
    exact (hparent _).1.trans hm.present
  · change ((k1.proc np).pgdir.entry 0x60000).ppn = x
    rw [hchild]
    exact (hparent _).2.trans hm.ppn

/-- `initproc` maps a page, touches it and forks; then it unmaps the page. The child still
maps the frame. -/
theorem dangling_frame : ∃ (k0 k : Kernel) (x : Frame) (q : Fin NPROC) (v : Nat), k0.Start ∧
    Lib.Run Step k0 [.dispatch 0, .wmap 0 0x60000000 4096 14 (-1), .fault 0 0x60000000 true true,
      .fork 0, .wunmap 0 0x60000000] k ∧
    x ∈ k.mach.kmem.freelist ∧ k.Maps q v x := by
  obtain ⟨k0, k2, x0, s, hmapped⟩ := exists_mapped
  obtain ⟨k3, x, hfault, htouched⟩ := hmapped.touch
  obtain ⟨k4, np, hfork, hne, hready, hmaps⟩ := htouched.fork
  obtain ⟨k5, hunmap, hfree, hother⟩ := hready.unmap
  refine ⟨k0, k5, x, np, 0x60000, hmapped.start, ((hmapped.run.snoc hfault).snoc hfork).snoc hunmap,
    hfree, ?_⟩
  refine hmaps.congr ?_
  rw [hother np hne]
  exact Proc.SameSpace.refl _

/-- A frame that is free, or in use as a page directory, a page table, a kernel stack or
by a user entry. -/
def Kernel.Accounted (k : Kernel) (x : Frame) : Prop :=
  x ∈ k.mach.kmem.freelist ∨ x ∈ k.kpgdir.frames ∨
    (∃ q, (k.proc q).live ∧ ((k.proc q).kstack = some x ∨ x ∈ (k.proc q).pgdir.frames)) ∨
    ∃ q v, k.Maps q v x

theorem Kernel.mem_total_iff (k : Kernel) (x : Frame) : x ∈ k.total ↔ x ∈ k.mach.kmem.freelist ∨
    x ∈ k.kpgdir.frames ∨
    ∃ q, (k.proc q).live ∧ ((k.proc q).kstack = some x ∨ x ∈ (k.proc q).pgdir.frames) := by
  have howned : ∀ q, x ∈ (k.proc q).owned ↔
      (k.proc q).live ∧ ((k.proc q).kstack = some x ∨ x ∈ (k.proc q).pgdir.frames) := by
    intro q
    unfold Proc.owned
    split
    · rename_i hl
      simp [hl]
    · rename_i hl
      simp [hl]
  unfold Kernel.total
  rw [mem_add, mem_add, mem_sum]
  simp only [Finset.mem_univ, true_and, howned, Kmem.free, mem_coe]
  exact or_assoc.trans (or_congr Iff.rfl or_comm)

theorem Kernel.accounted_iff (k : Kernel) (x : Frame) : k.holding.Accounted x ↔ k.Accounted x := by
  constructor
  · rintro (h | ⟨⟨q, v⟩, h⟩)
    · rcases (k.mem_total_iff x).mp h with h | h | h
      · exact Or.inl h
      · exact Or.inr (Or.inl h)
      · exact Or.inr (Or.inr (Or.inl h))
    · exact Or.inr (Or.inr (Or.inr ⟨q, v, h⟩))
  · rintro (h | h | h | ⟨q, v, h⟩)
    · exact Or.inl ((k.mem_total_iff x).mpr (Or.inl h))
    · exact Or.inl ((k.mem_total_iff x).mpr (Or.inr (Or.inl h)))
    · exact Or.inl ((k.mem_total_iff x).mpr (Or.inr (Or.inr h)))
    · exact Or.inr ⟨(q, v), h⟩

theorem no_frame_leak {image : Image} {freelist : List Frame} {fs : Files} {root : Nat}
    {initcode : List UInt8} {k0 k : Kernel} {acts : List Act} (hlen : 2054 ≤ freelist.length)
    (hboot : boot image freelist fs root initcode = .ok k0)
    (hrun : Lib.Run (Lib.When DropsHeld Step) k0 acts k) : ∀ x ∈ freelist, k.Accounted x := by
  obtain ⟨y, s, hb⟩ := boot_spec hlen hboot
  intro x hx
  have hfirst : k0.holding.Accounted x := by
    have hmem : x ∈ k0.total + {y} := by
      rw [hb.total]
      exact Multiset.mem_coe.mpr hx
    rcases Multiset.mem_add.mp hmem with hm | hm
    · exact Or.inl hm
    · rw [Multiset.mem_singleton.mp hm]
      exact Or.inr ⟨(0, 0), hb.page⟩
  have hall : k.Sane ∧ k.holding.Accounted x :=
    hrun.invariant (fun k => k.Sane ∧ k.holding.Accounted x) ⟨hb.sane, hfirst⟩
      fun _ _ _ h hstep => ⟨step_sane h.1 hstep.2, step_accounted h.1 hstep.1 hstep.2 h.2⟩
  exact (k.accounted_iff x).mp hall.2

/-- `initproc` maps a page, touches it and unmaps it; every frame is where it belongs. -/
theorem no_frame_leak_one_page : ∃ (freelist : List Frame) (k : Kernel) (x : Frame),
    2054 ≤ freelist.length ∧ x ∈ k.mach.kmem.freelist ∧ ∀ y ∈ freelist, k.Accounted y := by
  obtain ⟨k0, k2, x0, s, hmapped⟩ := exists_mapped
  obtain ⟨k3, x, hfault, htouched⟩ := hmapped.touch
  obtain ⟨k4, hunmap, hfree, -⟩ := htouched.unmappable.unmap
  have h1 : DropsHeld k0 (.dispatch 0) := ⟨id, fun _ _ _ _ hd => hd.elim⟩
  have h2 : DropsHeld (k0.dispatched 0) (.wmap 0 0x60000000 4096 14 (-1)) :=
    ⟨id, fun _ _ _ _ hd => hd.elim⟩
  have h3 : DropsHeld k2 (.fault 0 0x60000000 true true) := by
    refine ⟨?_, ?_⟩
    · rintro (⟨-, hk⟩ | ⟨-, -, i, hcov, hread⟩)
      · rw [hmapped.proc, hmapped.booted.self] at hk
        cases hk
      · refine hread fun hfb => ?_
        rw [hmapped.faultsIn.covering] at hcov
        cases hcov
        rw [hmapped.proc] at hfb
        cases hfb
    · rintro q v y hm ⟨rfl, hd⟩
      obtain ⟨-, rfl, -⟩ := hmapped.maps hm
      rcases hd with ⟨-, -, i, -, -, -, hrange⟩ | ⟨hout, -⟩ | ⟨-, -, i, hi, hv⟩
      · have := (mem_pageRange (by decide)).mp hrange
        omega
      · omega
      · rw [hmapped.proc] at hi hv
        have := (Wmap.ok_onePage i hi).pages_window hv
        omega
  have h4 : DropsHeld k3 (.wunmap 0 0x60000000) := by
    refine ⟨id, ?_⟩
    rintro q v y hm ⟨rfl, hpage⟩
    exact Or.inl ⟨rfl, by rw [htouched.wmap]; rfl, hpage, hm.present⟩
  have hrun : Lib.Run (Lib.When DropsHeld Step) k0 _ k4 :=
    (((Lib.Run.single ⟨h1, hmapped.dispatch⟩).snoc ⟨h2, hmapped.wmap⟩).snoc ⟨h3, hfault⟩).snoc
      ⟨h4, hunmap⟩
  obtain ⟨image, freelist, fs, root, initcode, hn, hrange, hlen, hboot⟩ := hmapped.start
  exact ⟨freelist, k4, x, hlen, hfree, no_frame_leak hlen hboot hrun⟩

/-- The first `exec` of `initproc` loses the frame of its program: the page has a count of 1,
so that `freevm` does not free it. -/
theorem first_exec_leaks : ∃ (k0 k : Kernel) (x : Frame), k0.Start ∧
    Lib.Run Step k0 [.dispatch 0, .exec 0 (some 2) [] [] fun _ => false] k ∧
    k0.Accounted x ∧ ¬ k.Accounted x := by
  obtain ⟨k0, k, h⟩ := exists_launch
  obtain ⟨image, freelist, fs, root, initcode, hn, hrange, hlen, hboot⟩ := h.start
  obtain ⟨x, s, hb⟩ := boot_spec hlen hboot
  have hsafe := h.start.safe
  have hfree : x ∉ k0.mach.kmem.free := fun hf =>
    hsafe.apart (0, 0) x hb.page (Kernel.mem_total_of_free hf)
  refine ⟨k0, k.leave 0, x, h.start, h.run, (k0.accounted_iff x).mp (Or.inr ⟨(0, 0), hb.page⟩), ?_⟩
  rw [← Kernel.accounted_iff, Kernel.holding_leave]
  have hproc := Kernel.proc_dispatched_self k0 0
  have hsame : ((k0.dispatched 0).enter 0).holding = k0.holding := by
    refine (Kernel.holding_enter ..).trans (Kernel.holding_dispatched ?_)
    rw [hb.self]
    simp [Proc.live]
  have hsafe1 : ((k0.dispatched 0).enter 0).holding.Safe := by rw [hsame]; exact hsafe
  have hmaps1 : ((k0.dispatched 0).enter 0).holding.refs (0, 0) x := by rw [hsame]; exact hb.page
  rcases exec_spec h.exec with ⟨hfalse, -⟩ | ⟨-, m, d, sz, xs, hr⟩
  · cases hfalse
  have hlive : (((k0.dispatched 0).enter 0).proc 0).live := h.ready.live
  obtain ⟨freed, dropped, lost, hex, hfrees, -⟩ := hr.trades hlive
  rintro (hpool | ⟨⟨q, v⟩, hm⟩)
  · have hin : x ∈ k.holding.pool + xs + lost := by simp [hpool]
    rw [hex.balance] at hin
    rcases Multiset.mem_add.mp hin with hin | hin
    · exact hsafe1.apart _ _ hmaps1 hin
    -- what is freed has no count, and the page of the program has one
    obtain ⟨e, he, rfl⟩ := List.mem_map.mp (Multiset.mem_coe.mp hin)
    obtain ⟨hq, -, -, hcount⟩ := hfrees e he
    have hppn := (hex.valid e he).ppn
    rw [hq] at hppn
    rw [hppn] at hcount
    change k0.mach.counts e.2 = 0 at hcount
    rw [hb.counts, Function.update_self] at hcount
    cases hcount
  · have hq : q = 0 := by
      by_contra hq
      have hlive : (k.proc q).live := hm.live
      rw [show k.proc q = Proc.zero from h.launched.others q hq] at hlive
      exact hlive rfl
    subst hq
    obtain ⟨name, tf, heq⟩ := hr.eq
    have hdir : (k.proc 0).pgdir = d := by
      rw [heq]
      simp
    have hpres : ((k.proc 0).pgdir.entry v).p = true := hm.present
    have hppn : ((k.proc 0).pgdir.entry v).ppn = x := hm.ppn
    rw [hdir] at hpres hppn
    have hlt := (hr.built.present v hm.user).mp hpres
    rw [hr.built.ppn v hlt] at hppn
    refine hfree ?_
    have hbuilt : k0.mach.kmem.free = _ := hr.built.free
    rw [hbuilt, ← hppn]
    simp

end Xv6
