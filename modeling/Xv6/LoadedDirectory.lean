import Xv6.DirectorySteps

/-!
The page directory in CR3. `switchuvm` loads the directory of the process it switches to,
but `fork` returns with the one of the child loaded, and an `exec` that fails after it has
loaded a page with the one it has just freed.
-/

namespace Xv6

open Function Kernel

variable {np : Fin NPROC} {ip r : Option Nat} {path : List UInt8} {argv : List (List UInt8)}
  {slept : Nat → Bool} {b : Bool} {a : Act}

/-- There is nothing for `fork` to copy into: no slot, or not enough memory for the kernel
stack and the kernel part of a directory. -/
def Kernel.ForkRefused (k : Kernel) : Prop :=
  (∀ q, (k.proc q).state ≠ .unused) ∨ k.mach.kmem.free.card ≤ 65

/-- A call of `exec` that does not fail once it has begun to load. -/
def Kernel.ExecClean (k : Kernel) (ip : Option Nat) (argv : List (List UInt8)) : Prop :=
  ExecSafe k.fs k.mach.kmem ip argv ∨ k.mach.kmem.free.card ≤ 64

section
variable {k k' : Kernel} {p : Fin NPROC}

theorem ForkFrame.dirs (h : ForkFrame k p np k')
    (hframe : (k'.proc p).pgdir.frame = (k.proc p).pgdir.frame)
    (hstate : (k'.proc np).state ≠ .running) (hlive : (k.proc p).live)
    (hcr3 : k'.mach.cr3 = k.mach.cr3 ∨ k'.mach.cr3 = (k.proc p).pgdir.frame) : SameDirs k p k' := by
  refine ⟨h.loaded, fun q hq => ?_, fun q hq => ?_, fun _ => hcr3⟩
  · have hnp : q ≠ np := fun he => hq (he ▸ h.unused)
    by_cases hqp : q = p
    · subst hqp
      refine ⟨?_, hframe⟩
      rw [h.parent]
      exact hlive
    · rw [h.others q hqp hnp]
      exact ⟨hq, rfl⟩
  · have hnp : q ≠ np := fun he => hstate (he ▸ hq)
    by_cases hqp : q = p
    · subst hqp
      rw [h.parent] at hq
      exact hq
    · rw [h.others q hqp hnp] at hq
      exact hq

theorem fork_dirs_refused (hs : k.Sane) (hlive : (k.proc p).live) (hc : k.ForkRefused)
    (h : fork k p = .ok (r, k')) : SameDirs k p k' := by
  have hslot : ∀ {np}, (k.proc np).state = .unused → k.mach.kmem.free.card ≤ 65 := fun hun =>
    hc.resolve_left fun hall => hall _ hun
  have hcard : ∀ {s a}, kalloc k.mach.kmem = (some s, a) → a.free.card + 1 = k.mach.kmem.free.card := by
    intro s a hk
    rw [free_kalloc hk, Multiset.card_cons]
  rcases fork_spec hlive (le_of_lt ((hs p).size hlive)) ((hs p).wmap hlive) h with
    ⟨-, rfl | ⟨np, hun, hempty, hk⟩⟩ | ⟨-, np, s, a, m, j, t, hf⟩ |
    ⟨-, np, s, a, a1, m, d, d1, done, hf⟩ | ⟨-, np, s, a, m, d, done, hf⟩
  · exact .refl k' p
  · have hproc : ∀ q, (k'.proc q).state = (k.proc q).state ∧ (k'.proc q).pgdir = (k.proc q).pgdir := by
      intro q
      by_cases hq : q = np
      · subst hq
        rw [hk, proc_setProc_self]
        exact ⟨rfl, rfl⟩
      · rw [hk, proc_setProc_ne hq]
        exact ⟨rfl, rfl⟩
    refine ⟨by rw [hk]; rfl, fun q hq => ⟨?_, by rw [(hproc q).2]⟩, fun q hq => ?_, fun _ => Or.inl ?_⟩
    · unfold Proc.live at hq ⊢
      rwa [(hproc q).1]
    · rwa [(hproc q).1] at hq
    · rw [hk]
      rfl
  · have hj : j = 0 := by
      have h1 := hslot hf.unused
      have h2 := hcard hf.stack
      by_contra hj
      have h3 : 65 ≤ a.free.card := hf.copy.taken (by omega)
      omega
    refine hf.toForkFrame.dirs hf.copy.parentFrame (by rw [hf.child]; simp) hlive (Or.inl ?_)
    exact hf.freed.cr3.trans (hf.copy.cr3 hj)
  · have h1 := hslot hf.unused
    have h2 := hcard hf.stack
    have h3 : 65 ≤ a.free.card := hf.copy.taken
    omega
  · have h1 := hslot hf.unused
    have h2 := hcard hf.stack
    have h3 : 65 ≤ a.free.card := hf.copy.taken
    omega

theorem Forked.dirsLive {s : Frame} {a : Kmem} {m : Machine} {d : PgDir} {done : List Nat}
    (h : Forked (k.enter p) p np k' s a m d done) (hlive : (k.proc p).live) (hk : k.DirsLive) :
    (k'.leave p).DirsLive ∧ (k'.leave p).loaded p = (k'.proc np).pgdir.frame ∧
      (k'.proc np).live := by
  obtain ⟨ofile, cwd, name, hchild⟩ := h.child
  have hnp : (k'.proc np).live := by
    rw [hchild]
    simp [Proc.live]
  have hcr3 : k'.mach.cr3 = (k'.proc np).pgdir.frame := by
    rw [h.mach, h.inherited.extend.frame]
    rfl
  have hkept : ∀ q, (k.proc q).live →
      (k'.proc q).live ∧ (k'.proc q).pgdir.frame = (k.proc q).pgdir.frame := by
    intro q hq
    have hne : q ≠ np := fun he => hq (he ▸ h.unused)
    by_cases hqp : q = p
    · subst hqp
      refine ⟨?_, h.copy.parentFrame⟩
      rw [h.parent]
      exact hlive
    · rw [h.others q hqp hne]
      exact ⟨hq, rfl⟩
  refine ⟨fun q hq => ?_, (update_self ..).trans hcr3, hnp⟩
  by_cases hqp : q = p
  · subst hqp
    exact ⟨np, hnp, (update_self ..).trans hcr3⟩
  have hne : q ≠ np := by
    rintro rfl
    have hrun : (k'.proc q).state = .running := hq
    rw [hchild] at hrun
    cases hrun
  have hrun : (k'.proc q).state = .running := hq
  rw [h.others q hqp hne] at hrun
  obtain ⟨r, hr, he⟩ := hk q hrun
  have hl : (k'.leave p).loaded q = k.loaded q :=
    (update_of_ne hqp ..).trans (congrFun h.loaded q)
  exact ⟨r, (hkept r hr).1, (hl.trans he).trans (hkept r hr).2.symm⟩

/-- Without memory for the kernel part of a directory, `exec` loads nothing. -/
theorem exec_short (hshort : k.mach.kmem.free.card ≤ 64)
    (h : exec k p ip path argv slept = .ok (b, k')) :
    b = false ∧ (k'.mach.cr3 = k.mach.cr3 ∨ k'.mach.cr3 = (k.proc p).pgdir.frame) := by
  have hnone : ∀ {d m}, setupkvm (k.mach.resume (slept 0) (k.proc p).pgdir.frame) ≠ .ok (some d, m) := by
    intro d m hs
    rcases setupkvm_spec hs with ⟨d', -, -, hfree, -, -, -, hcard⟩ | ⟨hn, -⟩
    · have := congrArg Multiset.card hfree
      rw [Multiset.card_add, resume_kmem] at this
      omega
    · cases hn
  rcases exec_cases h with ⟨-, rfl, rfl⟩ | ⟨i, hi, hrun⟩
  · exact ⟨rfl, Or.inl rfl⟩
  cases hrun with
  | refused _ => exact ⟨rfl, resume_cr3 ..⟩
  | unbuilt _ hs =>
    rcases setupkvm_spec hs with ⟨d, hd, -⟩ | ⟨-, -, -, hcr3, -⟩
    · cases hd
    · refine ⟨rfl, ?_⟩
      dsimp only
      rw [hcr3]
      exact resume_cr3 ..
  | unloaded _ hl => exact (hnone hl.kvm).elim
  | unstacked _ hl => exact (hnone hl.kvm).elim
  | replaced _ hl => exact (hnone hl.kvm).elim

/-- An `exec` that fails early leaves CR3 alone, and one that succeeds loads the new directory. -/
theorem exec_dirs (hc : k.ExecClean ip argv) (h : exec k p ip path argv slept = .ok (b, k')) :
    SameDirs k p k' ∨ b = true ∧ k'.mach.cr3 = (k'.proc p).pgdir.frame ∧
      k'.loaded = k.loaded ∧ (k'.proc p).state = (k.proc p).state ∧
      ∀ q, q ≠ p → k'.proc q = k.proc q := by
  rcases exec_spec h with ⟨rfl, hk, hf⟩ | ⟨rfl, m, d, sz, xs, hr⟩
  · refine Or.inl ?_
    have hcr3 : k'.mach.cr3 = k.mach.cr3 ∨ k'.mach.cr3 = (k.proc p).pgdir.frame := by
      rcases hc with hsafe | hshort
      · exact ((exec_safe hsafe h).resolve_left (by decide)).2
      · exact (exec_short hshort h).2
    have hproc : k'.proc = k.proc := (congrArg Kernel.proc hk).trans rfl
    exact .of_proc ((congrArg Kernel.loaded hk).trans rfl) (fun q _ => by rw [hproc])
      (by rw [hproc]) (by rw [hproc]) hcr3
  · obtain ⟨name, tf, hk⟩ := hr.eq
    have hself : k'.proc p = { k.proc p with name := name, pgdir := d, sz := sz, tf := tf } := by
      rw [hk, proc_setProc_self]
    refine Or.inr ⟨rfl, ?_, (congrArg Kernel.loaded hk).trans rfl, by rw [hself], fun q hq => ?_⟩
    · rw [hself]
      exact hr.freed.cr3
    · rw [hk, proc_setProc_ne hq]

/-- The processes whose directories a step can free. -/
def Act.Gone (k : Kernel) : Act → Fin NPROC → Prop
  | exec p _ _ _ _, q => q = p
  | wait p, q => k.zombieChild p = some q
  | _, _ => False

/-- The steps after which a CPU that had the directory of its process loaded still has. -/
def OwnKept (k : Kernel) : Act → Prop
  | .fork _ => k.ForkRefused
  | .exec _ ip _ argv _ => k.ExecClean ip argv
  | _ => True

theorem step_dirs (hs : k.Sane) (hc : OwnKept k a) (h : Step k a k') :
    ∃ gone, (∀ q, gone q → a.Gone k q) ∧ DirStep k k' gone := by
  have none : ∀ {k'}, DirStep k k' (fun _ => False) →
      ∃ gone, (∀ q, gone q → a.Gone k q) ∧ DirStep k k' gone := fun h => ⟨_, fun _ hf => hf.elim, h⟩
  obtain ⟨hen, h⟩ := h
  cases perform_ok h with
  | @dispatch p =>
    have hrun : (k.proc p).state = .runnable := hen
    refine none ⟨fun q hq _ => ?_, fun q hq => ?_⟩
    · by_cases hqp : q = p
      · subst hqp
        rw [proc_dispatched_self]
        exact ⟨by simp [Proc.live], rfl⟩
      · rw [proc_dispatched_ne _ hqp]
        exact ⟨hq, rfl⟩
    · by_cases hqp : q = p
      · subst hqp
        exact Or.inl (k.ownLoaded_dispatched q)
      · rw [proc_dispatched_ne _ hqp] at hq
        exact Or.inr ⟨hq, not_false, update_of_ne hqp ..⟩
  | @yield p =>
    refine none (.of_proc rfl (fun q hq => proc_setProc_ne hq) ?_ ?_ ?_)
    all_goals rw [proc_setProc_self]
    · simp [Proc.live]
    · simp
  | @fork p _ _ hf =>
    have hready : k.ready p := hen
    exact none ((fork_dirs_refused (hs.enter p) hready.live hc hf).dirStep hready.live)
  | @exec p _ _ _ _ _ k1 hf =>
    have hready : k.ready p := hen
    rcases exec_dirs (k := k.enter p) hc hf with hsame | ⟨-, hcr3, hl, hst, hother⟩
    · exact none (hsame.dirStep hready.live)
    refine ⟨fun q => q = p, fun q hq => hq, fun q hq hqp => ?_, fun q hq => ?_⟩
    · change (k1.proc q).live ∧ (k1.proc q).pgdir.frame = _
      rw [hother q hqp]
      exact ⟨hq, rfl⟩
    by_cases hqp : q = p
    · subst hqp
      exact Or.inl ((update_self ..).trans hcr3)
    · have hrun : (k1.proc q).state = .running := hq
      rw [hother q hqp] at hrun
      exact Or.inr ⟨hrun, hqp, (update_of_ne hqp ..).trans (congrFun hl q)⟩
  | @exit p _ hf =>
    have hready : k.ready p := hen
    exact none ((exit_dirs ((hs.enter p p).wmap hready.live) hf).dirStep hready.live)
  | @wait p r k1 hf =>
    have hready : k.ready p := hen
    rcases wait_spec hf with rfl | ⟨q, s, hq, hz, -, hfreed, hk⟩
    · exact none ((SameDirs.refl _ p).dirStep hready.live)
    have hgone : (k1.proc q).state = .unused := by rw [hk, proc_setProc_self]
    have hother : ∀ r, r ≠ q → k1.proc r = k.proc r := fun r hr => by
      rw [hk, proc_setProc_ne hr]
      rfl
    refine ⟨fun r => r = q, fun r hr => hr ▸ hq, fun r hr hrq => ?_, fun r hr => ?_⟩
    · change (k1.proc r).live ∧ (k1.proc r).pgdir.frame = _
      rw [hother r hrq]
      exact ⟨hr, rfl⟩
    have hrun : (k1.proc r).state = .running := hr
    have hrq : r ≠ q := by
      rintro rfl
      rw [hgone] at hrun
      cases hrun
    rw [hother r hrq] at hrun
    refine Or.inr ⟨hrun, hrq, ?_⟩
    have hl : k1.loaded = k.loaded := (congrArg Kernel.loaded hk).trans rfl
    by_cases hrp : r = p
    · subst hrp
      exact (update_self ..).trans hfreed.cr3
    · exact (update_of_ne hrp ..).trans (congrFun hl r)
  | @sbrk p _ _ _ hf =>
    obtain ⟨hready, hlo, hhi⟩ := hen
    exact none ((growproc_dirs ((hs.enter p p).size hready.live) hlo hhi hf).dirStep hready.live)
  | @wmap p _ _ _ _ _ _ hf =>
    obtain ⟨hready, -⟩ := hen
    exact none ((sysWmap_dirs hf).dirStep hready.live)
  | @wunmap p _ _ _ hf =>
    obtain ⟨hready, -⟩ := hen
    exact none ((sysWunmap_dirs ((hs.enter p p).wmap hready.live) hf).dirStep hready.live)
  | @fault p va write user _ k1 k2 hf hl =>
    obtain ⟨hready, hva, -⟩ := hen
    have hlive : ((k.enter p).proc p).live := hready.live
    have hd := pageFault_dirs hlive hva ((hs.enter p p).base hready.live) hf
    have hs1 := sane_pageFault (hs.enter p) hready.live hready.2 hva hf
    have hok := (hs1 p).wmap (hd.kept p hlive).1
    exact none ((hd.trans hlive (leaveTrap_dirs hok hl)).dirStep hready.live)
  | @cowRead p va pa refCount hr =>
    have hready : k.ready p := hen.1
    refine none (.of_proc rfl (fun q hq => proc_setProc_ne hq) ?_ ?_ ?_)
    all_goals rw [proc_setProc_self]
    · exact hready.live
    · exact id
  | @cowResolve p user va pa refCount b d m back k1 hf hres hl =>
    obtain ⟨hlive, hva, b', d', m', hres', hspec⟩ := hs.resolve hf (k.enter p).mach
    rw [hres] at hres'
    cases hres'
    have hlive' : ((k.enter p).proc p).live := hlive
    have hd := hspec.dirs (k := k.enter p) hlive'
    have hs1 := hspec.sane_cowDone (hs.enter p) hlive hva
    have hok := (hs1 p).wmap (hd.kept p hlive').1
    exact none ((hd.trans hlive' (leaveTrap_dirs hok hl)).dirStep hlive)
  | @store p _ _ _ _ =>
    have hready : k.ready p := hen.1
    exact none (.of_proc (p := p) rfl (fun q _ => rfl) hready.live rfl id)
  | @files p ofile fs =>
    have hready : k.ready p := hen
    refine none (.of_proc rfl (fun q hq => proc_setProc_ne hq) ?_ ?_ ?_)
    all_goals rw [proc_setProc_self]
    · exact hready.live
    · exact id

/-- The steps after which every CPU that runs a process still has a directory loaded that is
in use: a `fork` does not run out of memory after it has begun to copy, and no directory is
freed that is loaded on another CPU. -/
def DirsKept (k : Kernel) : Act → Prop
  | .fork _ => k.ForkRefused ∨ 1027 ≤ k.mach.kmem.free.card
  | .exec p ip _ argv _ => k.ExecClean ip argv ∧ ∀ q, q ≠ p → (k.proc q).state = .running →
      k.loaded q ≠ (k.proc p).pgdir.frame
  | .wait p => ∀ r, k.zombieChild p = some r → ∀ q, (k.proc q).state = .running →
      k.loaded q ≠ (k.proc r).pgdir.frame
  | _ => True

theorem fork_forked (hs : k.Sane) (hlive : (k.proc p).live) (hmem : 1027 ≤ k.mach.kmem.free.card)
    (h : fork k p = .ok (r, k')) : k' = k ∨ ∃ np s a m d done, Forked k p np k' s a m d done := by
  rcases fork_spec hlive (le_of_lt ((hs p).size hlive)) ((hs p).wmap hlive) h with
    ⟨-, rfl | ⟨np, hun, hempty, hk⟩⟩ | ⟨-, np, s, a, m, j, t, hf⟩ |
    ⟨-, np, s, a, a1, m, d, d1, done, hf⟩ | ⟨-, hf⟩
  · exact Or.inl rfl
  · rw [Kmem.free, hempty] at hmem
    simp at hmem
  · have := hf.card_le
    omega
  · have := hf.card_le
    omega
  · exact Or.inr hf

theorem step_dirsLive (hs : k.Sane) (hc : DirsKept k a) (hk : k.DirsLive) (h : Step k a k') :
    k'.DirsLive := by
  by_cases hown : OwnKept k a
  · obtain ⟨gone, hgone, hd⟩ := step_dirs hs hown h
    refine hd.dirsLive (fun r hr q hq hnot => ?_) hk
    have hg := hgone r hr
    cases a with
    | exec p ip path argv slept =>
      obtain rfl : r = p := hg
      exact hc.2 q (fun hqp => hnot (hqp ▸ hr)) hq
    | wait p => exact hc r hg q hq
    | _ => exact hg.elim
  · obtain ⟨hen, h⟩ := h
    cases perform_ok h with
    | @fork p _ k1 hf =>
      have hready : k.ready p := hen
      have hmem := hc.resolve_left hown
      rcases fork_forked (hs.enter p) hready.live hmem hf with rfl | ⟨np, s, a, m, d, done, hf⟩
      · exact ((SameDirs.refl _ p).dirStep hready.live).dirsLive (fun _ hg => hg.elim) hk
      · exact (hf.dirsLive hready.live hk).1
    | exec _ => exact (hown hc.1).elim
    | _ => exact (hown trivial).elim

theorem Kernel.Start.not_running (h : k.Start) (p : Fin NPROC) :
    (k.proc p).state = if p = 0 then .runnable else .unused := by
  obtain ⟨image, freelist, fs, root, initcode, -, -, hlen, hb⟩ := h
  obtain ⟨x, s, hb⟩ := boot_spec hlen hb
  split
  · rename_i hp
    rw [hp, hb.self]
  · rename_i hp
    rw [hb.others p hp]
    rfl

/-- In every state that is reached, no CPU that runs a process has a directory loaded that is
on the free list; and a process that has its own directory loaded still has it loaded when
a step is over that does not change this. -/
theorem loaded_directory {k0 : Kernel} {acts : List Act} (hstart : k0.Start)
    (hrun : Lib.Run (Lib.When (fun k a => FreesUnshared k a ∧ DirsKept k a) Step) k0 acts k) :
    (∀ p, (k.proc p).state = .running → k.loaded p ∉ k.mach.kmem.freelist) ∧
    ∀ a k', Step k a k' → OwnKept k a → ∀ q, (k'.proc q).state = .running →
      ((k.proc q).state = .running → k.OwnLoaded q) → k'.OwnLoaded q := by
  obtain ⟨hs, hsafe, hdirs⟩ : k.Sane ∧ k.holding.Safe ∧ k.DirsLive := by
    refine hrun.invariant (fun k => k.Sane ∧ k.holding.Safe ∧ k.DirsLive)
      ⟨hstart.sane, hstart.safe, fun p hp => ?_⟩ fun _ _ _ ⟨h1, h2, h3⟩ hstep =>
        ⟨step_sane h1 hstep.2, step_safe h1 h2 hstep.1.1 hstep.2,
          step_dirsLive h1 hstep.1.2 h3 hstep.2⟩
    rw [hstart.not_running p] at hp
    split at hp <;> cases hp
  refine ⟨fun p hp hfree => ?_, fun a k' hstep hc q hq hown => ?_⟩
  · obtain ⟨q, hq, he⟩ := hdirs p hp
    rw [he] at hfree
    exact Kernel.notMem_owned_of_free hsafe hfree (Kernel.frame_mem_owned hq)
  · obtain ⟨gone, -, hd⟩ := step_dirs hs hc hstep
    exact hd.ownLoaded hq hown

end

/-- `initproc` runs and forks. -/
structure FirstFork (k0 k : Kernel) (np : Fin NPROC) : Prop where
  start : k0.Start
  dispatch : Step k0 (.dispatch 0) (k0.dispatched 0)
  fork : Step (k0.dispatched 0) (.fork 0) k
  memory : 1027 ≤ (k0.dispatched 0).mach.kmem.free.card
  ne : np ≠ 0
  ready : k.ready 0
  child : (k.proc np).live
  loaded : k.loaded 0 = (k.proc np).pgdir.frame
  wmap : (k.proc 0).wmap = Wmap.init

theorem exists_firstFork : ∃ k0 k np, FirstFork k0 k np := by
  obtain ⟨k0, x, s, hstart, hb⟩ := exists_booted rootFiles 1
  have hself : (k0.dispatched 0).proc 0 = { k0.proc 0 with state := .running } :=
    proc_dispatched_self k0 0
  have hr := hb.ready
  obtain ⟨np, k1, st, a, m, d, done, hfork, hforked⟩ := step_forked hr hb.forkable
  have hdirs : (k0.dispatched 0).DirsLive := by
    intro q hq
    by_cases hq0 : q = 0
    · subst hq0
      exact ⟨0, hr.live, k0.ownLoaded_dispatched 0⟩
    · rw [proc_dispatched_ne k0 hq0, hb.others q hq0] at hq
      cases hq
  obtain ⟨-, hloaded, hlive⟩ := hforked.dirsLive hr.live hdirs
  refine ⟨k0, _, np, hstart, hb.dispatch, hfork, hb.forkable.memory, hforked.ne, ?_, hlive, hloaded, ?_⟩
  · change (k1.proc 0).state = .running ∧ (k1.proc 0).cowFault = none
    rw [hforked.parent]
    exact hr
  · change (k1.proc 0).wmap = Wmap.init
    rw [hforked.parent]
    change ((k0.dispatched 0).proc 0).wmap = Wmap.init
    rw [hself, hb.self]

/-- `initproc` forks, is scheduled again and calls `wmap`. -/
theorem loaded_directory_after_fork : ∃ k0 k k' : Kernel, k0.Start ∧
    (k.proc 0).state = .running ∧ k.loaded 0 ∉ k.mach.kmem.freelist ∧
    Step k (.wmap 0 0x60000000 4096 14 (-1)) k' ∧ k'.OwnLoaded 0 := by
  obtain ⟨k0, k2, np, h⟩ := exists_firstFork
  let k3 := k2.setProc 0 { k2.proc 0 with state := .runnable }
  have h3 : k3.proc 0 = { k2.proc 0 with state := .runnable } := Kernel.proc_setProc_self ..
  have h4 : (k3.dispatched 0).proc 0 = { k2.proc 0 with state := .running } := by
    rw [Kernel.proc_dispatched_self, h3]
  have hready : (k3.dispatched 0).ready 0 := ⟨by rw [h4], by rw [h4]; exact h.ready.2⟩
  have hyield : Step k2 (.yield 0) k3 := ⟨h.ready, rfl⟩
  have hstep : Step (k3.dispatched 0) (.wmap 0 0x60000000 4096 14 (-1)) ((k3.dispatched 0).mapped 0) :=
    step_wmap_onePage hready (by rw [h4]; exact h.wmap)
  have hfree : ∀ {k : Kernel} {a : Act}, (∀ q v, ¬ a.Frees k q v) → FreesUnshared k a :=
    fun hno q v x hf => (hno q v hf).elim
  have hrun : Lib.Run (Lib.When (fun k a => FreesUnshared k a ∧ DirsKept k a) Step) k0
      [.dispatch 0, .fork 0, .yield 0, .dispatch 0] (k3.dispatched 0) :=
    (((Lib.Run.single ⟨⟨hfree fun _ _ => id, trivial⟩, h.dispatch⟩).snoc
      ⟨⟨hfree fun _ _ => id, Or.inr h.memory⟩, h.fork⟩).snoc
      ⟨⟨hfree fun _ _ => id, trivial⟩, hyield⟩).snoc
      ⟨⟨hfree fun _ _ => id, trivial⟩, step_dispatch (by rw [h3])⟩
  obtain ⟨hnot, hown⟩ := loaded_directory h.start hrun
  refine ⟨k0, k3.dispatched 0, _, h.start, hready.1, hnot 0 hready.1, hstep, ?_⟩
  refine hown _ _ hstep trivial 0 ?_ fun _ => ?_
  · rw [Kernel.proc_mapped_self, h4]
  · exact k3.ownLoaded_dispatched 0

/-- `fork` returns to the parent with the directory of the child loaded. -/
theorem fork_loads_child : ∃ k0 k : Kernel, k0.Start ∧
    Lib.Run Step k0 [.dispatch 0, .fork 0] k ∧ (k.proc 0).state = .running ∧ ¬ k.OwnLoaded 0 := by
  obtain ⟨k0, k, np, h⟩ := exists_firstFork
  refine ⟨k0, k, h.start, (Lib.Run.single h.dispatch).snoc h.fork, h.ready.1, fun hown => ?_⟩
  have h1 : FreesUnshared k0 (.dispatch 0) := fun _ _ _ hf => hf.elim
  have h2 : FreesUnshared (k0.dispatched 0) (.fork 0) := fun _ _ _ hf => hf.elim
  have hsafe := (h.start.safe_run ((Lib.Run.single ⟨h1, h.dispatch⟩).snoc ⟨h2, h.fork⟩)).2
  have hframe : (k.proc np).pgdir.frame = (k.proc 0).pgdir.frame := h.loaded.symm.trans hown
  have hmem := Kernel.frame_mem_owned h.child
  rw [hframe] at hmem
  exact Kernel.notMem_owned_of_ne hsafe h.ne hmem (Kernel.frame_mem_owned h.ready.live)

end Xv6
