import Xv6.ForkSteps
import Xv6.Supply

/-!
When `fork` succeeds: there is a slot, memory for a kernel stack, a directory and its
tables, every page below `sz` is there, and the regions lie apart from them.
-/

namespace Xv6

open Lib Kernel

structure Forkable (k : Kernel) (p : Fin NPROC) : Prop where
  slot : ∃ np, (k.proc np).state = .unused
  memory : 1027 ≤ k.mach.kmem.free.card
  size : (k.proc p).sz ≤ 0x80000000
  present : ∀ v, v < sizePages (k.proc p).sz → ((k.proc p).pgdir.entry v).p = true
  files : ∀ i f, (k.proc p).ofile i = some f → 1 ≤ (k.fs.file f).ref
  cwd : (k.proc p).cwd ≠ none
  regions : (k.proc p).wmap.Ok
  apart : (k.proc p).wmap.PagesApart
  inside : ∀ i ∈ (k.proc p).wmap.active, ∀ v ∈ ((k.proc p).wmap.slot i).pages,
    ((k.proc p).pgdir.entry v).p = true → ((k.proc p).pgdir.entry v).ppn ≠ 0 ∧
      sizePages (k.proc p).sz ≤ v

section
variable {k : Kernel} {p np : Fin NPROC}

theorem Forkable.congr {k' : Kernel} (h : Forkable k p) (hproc : k'.proc = k.proc)
    (hkmem : k'.mach.kmem = k.mach.kmem) (hfs : k'.fs = k.fs) : Forkable k' p where
  slot := by rw [hproc]; exact h.slot
  memory := by rw [hkmem]; exact h.memory
  size := by rw [hproc]; exact h.size
  present := by rw [hproc]; exact h.present
  files := by rw [hproc, hfs]; exact h.files
  cwd := by rw [hproc]; exact h.cwd
  regions := by rw [hproc]; exact h.regions
  apart := by rw [hproc]; exact h.apart
  inside := by rw [hproc]; exact h.inside

theorem allocproc_total (hslot : ∃ np, (k.proc np).state = .unused)
    (hmem : 0 < k.mach.kmem.free.card) : ∃ np k', allocproc k = (some np, k') := by
  obtain ⟨s, a, hk⟩ := kalloc_total hmem
  unfold allocproc
  split
  · rename_i hnone
    obtain ⟨np, hnp⟩ := hslot
    have := List.find?_eq_none.mp hnone np (List.mem_finRange np)
    simp [hnp] at this
  · rename_i np hsome
    dsimp only
    rw [hk]
    exact ⟨np, _, rfl⟩

theorem dupAll_total (is : List (Fin NOFILE)) (hne : p ≠ np)
    (h : ∀ i f, (k.proc p).ofile i = some f → 1 ≤ (k.fs.file f).ref) :
    ∃ k', dupAll p np is k = .ok k' := by
  induction is generalizing k with
  | nil => exact ⟨k, rfl⟩
  | cons i is ih =>
    rw [dupAll]
    split
    · exact ih h
    rename_i f hf
    have hdup : filedup k.fs f =
        .ok (k.fs.setFile f { k.fs.file f with ref := (k.fs.file f).ref + 1 }) := by
      rw [filedup, if_neg (by have := h i f hf; omega)]
      rfl
    refine exists_bind_ok hdup (ih fun j g hg => ?_)
    rw [proc_setProc_ne hne] at hg
    have hone := h j g hg
    simp only [Files.setFile, fs_setProc]
    by_cases hgf : g = f
    · subst hgf
      simp
    · simpa [hgf] using hone

theorem forkCopy_total (hne : p ≠ np) (hsz : (k.proc p).sz ≤ 0x80000000)
    (hmem : 1026 ≤ k.mach.kmem.free.card)
    (hpres : ∀ v, v < sizePages (k.proc p).sz → ((k.proc p).pgdir.entry v).p = true)
    (hfiles : ∀ i f, (k.proc p).ofile i = some f → 1 ≤ (k.fs.file f).ref)
    (hcwd : (k.proc p).cwd ≠ none) : ∃ k', forkCopy k p np = .ok (true, k') := by
  obtain ⟨d, pgdir, m, hc⟩ := copyuvm_total hsz hmem hpres
  let y : Proc := { k.proc np with
    pgdir := d, wmap := { (k.proc np).wmap with isChild := true }, sz := (k.proc p).sz,
    parent := some p, tf := { (k.proc p).tf with eax := 0 } }
  let k1 : Kernel := ({ k with mach := (m.lcr3 pgdir.frame).lcr3 d.frame }.setProc p
    { k.proc p with pgdir := pgdir }).setProc np y
  have hself : k1.proc p = { k.proc p with pgdir := pgdir } := by
    simp [k1, Kernel.setProc, hne]
  obtain ⟨k2, hdup⟩ := dupAll_total (k := k1) (List.finRange NOFILE) hne
    (by rw [hself]; exact hfiles)
  have hcwd2 : (k2.proc p).cwd = (k.proc p).cwd := by
    rw [dupAll_spec hdup, proc_setProc_ne hne, hself]
  obtain ⟨c, hc'⟩ := Option.ne_none_iff_exists'.mp hcwd
  have hfs : idup k2.fs (k2.proc p).cwd =
      .ok (k2.fs.setInode c { k2.fs.inode c with ref := (k2.fs.inode c).ref + 1 }) := by
    rw [hcwd2, hc']
    rfl
  have hnp : (({ k with mach := m }.setProc p { k.proc p with pgdir := pgdir }).proc np) =
      k.proc np := proc_setProc_ne hne.symm
  have hcopy : ∃ r, forkCopy k p np = .ok r ∧ r.1 = true := by
    unfold forkCopy
    refine exists_bind_ok_of hc ?_
    dsimp only
    rw [hnp]
    exact exists_bind_ok_of hdup (exists_bind_ok_of hfs ⟨_, rfl, rfl⟩)
  obtain ⟨⟨_, k'⟩, hk', rfl⟩ := hcopy
  exact ⟨k', hk'⟩

theorem ForkReady.copyWmap_total {km : Kernel} {s : Frame} {a : Kmem} {m : Machine}
    {pgdir d : PgDir} (hne : p ≠ np) (h : Forkable k p) (hcard : 1026 ≤ a.free.card)
    (hcopy : Copied { k.mach with kmem := a } (k.proc p).pgdir (sizePages (k.proc p).sz) m pgdir d)
    (hm : ForkReady k p np s m pgdir d km) : ∃ k', copyWmap km p np = .ok (true, k') := by
  obtain ⟨ofile, cwd, name, hchild⟩ := hm.child
  refine copySlots_total (enoughFor_supply _) hne ?_ ?_ (List.nodup_finRange _) ?_ ?_
  · rw [hm.parent]
    exact h.regions
  · rw [hm.parent]
    exact h.apart
  · have hfree : a.free.card = (m.kmem.free + d.frames).card :=
      congrArg Multiset.card hcopy.free
    rw [Multiset.card_add] at hfree
    rw [hm.mach, hchild]
    simp only [supply, Machine.lcr3]
    omega
  · intro i _ hi v hv hpres
    rw [hm.parent] at hi hv hpres ⊢
    dsimp only at hi hv hpres ⊢
    have hwin := ((h.regions i hi).pages_window hv).2
    have hin := h.inside i hi v hv
    rw [hcopy.parent] at hpres ⊢
    by_cases hlt : v < sizePages (k.proc p).sz
    · have := (hin (h.present v hlt)).2
      omega
    · rw [if_neg hlt] at hpres ⊢
      rw [hchild, hcopy.child v hwin, if_neg hlt]
      exact ⟨(hin hpres).1, rfl⟩

theorem fork_of_copied {s : Frame} {a : Kmem} {k1 : Kernel} {m : Machine} {pgdir d : PgDir}
    (hp : (k.proc p).live) (ha : allocproc k = (some np, k1)) (hs : kalloc k.mach.kmem = (some s, a))
    (hc : copyuvm { k.mach with kmem := a } (k.proc p).pgdir (k.proc p).sz = .ok (some d, pgdir, m))
    (hfiles : ∀ i f, (k.proc p).ofile i = some f → 1 ≤ (k.fs.file f).ref)
    (hcwd : (k.proc p).cwd ≠ none) :
    ∃ km, ForkReady k p np s m pgdir d km ∧ fork k p = (do
      let (ok, k) ← copyWmap km p np
      if ok then pure (some (k.proc np).pid, k)
      else do
        let k ← dropSlot k np
        pure (none, k)) := by
  obtain ⟨hun, s', a', hs', rfl⟩ := allocproc_some ha
  rw [hs] at hs'
  cases hs'
  have hne : p ≠ np := by
    rintro rfl
    exact hp hun
  obtain ⟨k2, hdup⟩ := dupAll_total (List.finRange NOFILE)
    (k := k.forking p np s a m pgdir d) hne (by
      simpa [Kernel.forking, Kernel.setProc, hne, hne.symm] using hfiles)
  have hcwd2 : (k2.proc p).cwd = (k.proc p).cwd := by
    rw [dupAll_spec hdup]
    simp [Kernel.forking, Kernel.setProc, hne]
  obtain ⟨c, hcwd'⟩ := Option.ne_none_iff_exists'.mp hcwd
  rw [hcwd'] at hcwd2
  obtain ⟨fs, hfs⟩ : ∃ fs, idup k2.fs (k2.proc p).cwd = .ok fs := by
    rw [hcwd2]
    exact ⟨_, rfl⟩
  have hx : ({ k with mach := { k.mach with kmem := a }, nextpid := k.nextpid + 1 }.setProc np
      { k.proc np with
        state := .embryo, pid := k.nextpid, kstack := some s, wmap := Wmap.init }).proc p =
      k.proc p := proc_setProc_ne hne
  refine ⟨_, forkReady_of_dupAll (s := s) (a := a) hne.symm hdup fs, ?_⟩
  rw [fork, ha]
  dsimp only
  rw [hx]
  refine (bind_of_ok hc).trans ?_
  dsimp only
  rw [Kernel.forking] at hdup
  dsimp only at hdup
  rw [hx] at hdup
  exact (bind_of_ok hdup).trans (bind_of_ok hfs)

theorem fork_total (hp : (k.proc p).live) (h : Forkable k p) :
    ∃ r k', fork k p = .ok (some r, k') := by
  obtain ⟨np, k1, ha⟩ := allocproc_total h.slot (by have := h.memory; omega)
  obtain ⟨hun, s, a, hs, -⟩ := allocproc_some ha
  have hne : p ≠ np := by
    rintro rfl
    exact hp hun
  have hcard : 1026 ≤ a.free.card := by
    have := h.memory
    have := congrArg Multiset.card (free_kalloc hs)
    rw [Multiset.card_cons] at this
    omega
  obtain ⟨d, pgdir, m, hc⟩ := copyuvm_total (m := { k.mach with kmem := a }) h.size hcard h.present
  obtain ⟨d', hd, hcopy⟩ | ⟨hnone, -⟩ := copyuvm_spec h.size hc
  · cases hd
    obtain ⟨km, hready, hfork⟩ := fork_of_copied hp ha hs hc h.files h.cwd
    obtain ⟨k', hw⟩ := hready.copyWmap_total hne h hcard hcopy
    refine ⟨(k'.proc np).pid, k', ?_⟩
    rw [hfork, bind_of_ok hw]
    rfl
  · cases hnone

end

end Xv6
