import Xv6.Inherit
import Xv6.Kernel

/-!
`fork`. There are four outcomes: no slot or no kernel stack; `copyuvm` fails; `copyWmap`
fails, and the child's directory is dropped without being freed; or the child runs.
-/

namespace Xv6

open Function Lib Kernel

variable {k k' : Kernel} {np p : Fin NPROC} {is : List (Fin NOFILE)} {r : Option Nat}

theorem allocproc_some (h : allocproc k = (some np, k')) :
    (k.proc np).state = .unused ∧ ∃ s a, kalloc k.mach.kmem = (some s, a) ∧
      k' = { k with mach := { k.mach with kmem := a }, nextpid := k.nextpid + 1 }.setProc np
        { k.proc np with
          state := .embryo, pid := k.nextpid, kstack := some s, wmap := Wmap.init } := by
  unfold allocproc at h
  split at h
  · cases h
  rename_i q hq
  have hun : (k.proc q).state = .unused := by simpa using List.find?_some hq
  dsimp only at h
  split at h
  · cases h
  · rename_i s a hk
    cases h
    exact ⟨hun, s, a, hk, rfl⟩

theorem allocproc_none (h : allocproc k = (none, k')) :
    k' = k ∨ ∃ np, (k.proc np).state = .unused ∧ k.mach.kmem.freelist = [] ∧
      k' = { k with mach := { k.mach with kmem := { k.mach.kmem with failed := true } },
                    nextpid := k.nextpid + 1 }.setProc np
        { k.proc np with pid := k.nextpid, kstack := none } := by
  unfold allocproc at h
  split at h
  · cases h
    exact Or.inl rfl
  rename_i q hq
  have hun : (k.proc q).state = .unused := by simpa using List.find?_some hq
  dsimp only at h
  split at h
  · rename_i a hk
    obtain ⟨hf, rfl⟩ := kalloc_none hk
    cases h
    refine Or.inr ⟨q, hun, hf, ?_⟩
    rw [← hun]
  · cases h

theorem dupAll_spec (h : dupAll p np is k = .ok k') :
    k' = { k with fs := k'.fs }.setProc np { k.proc np with ofile := (k'.proc np).ofile } := by
  induction is generalizing k with
  | nil =>
    cases h
    simp [Kernel.setProc]
  | cons i is ih =>
    rw [dupAll] at h
    split at h
    · exact ih h
    · obtain ⟨fs, -, h⟩ := bind_eq_ok.mp h
      conv_lhs => rw [ih h]
      simp [Kernel.setProc]

theorem dropSlot_spec (h : dropSlot k np = .ok k') :
    ∃ s, (k.proc np).kstack = some s ∧ Freed k.mach {s} k'.mach ∧
      k' = { k with mach := k'.mach }.setProc np
        { k.proc np with kstack := none, state := .unused } := by
  unfold dropSlot at h
  dsimp only at h
  split at h
  · cases h
  · rename_i s hs
    obtain ⟨m, hm, h⟩ := bind_eq_ok.mp h
    cases h
    exact ⟨s, hs, kfree_spec hm, rfl⟩

/-- What `fork` leaves as it was, once it has found the slot `np`. -/
structure ForkFrame (k : Kernel) (p np : Fin NPROC) (k' : Kernel) : Prop where
  ne : np ≠ p
  unused : (k.proc np).state = .unused
  others : ∀ q, q ≠ p → q ≠ np → k'.proc q = k.proc q
  parent : k'.proc p = { k.proc p with pgdir := (k'.proc p).pgdir }
  initproc : k'.initproc = k.initproc
  kpgdir : k'.kpgdir = k.kpgdir
  loaded : k'.loaded = k.loaded

structure ForkFailed (k : Kernel) (p np : Fin NPROC) (k' : Kernel) (s : Frame) (a : Kmem)
    (m : Machine) (j t : Nat) : Prop extends ForkFrame k p np k' where
  stack : kalloc k.mach.kmem = (some s, a)
  copy : CopyFailed { k.mach with kmem := a } (k.proc p).pgdir (sizePages (k.proc p).sz) m
    (k'.proc p).pgdir j t
  freed : Freed m {s} k'.mach
  child : k'.proc np = { k.proc np with
    state := .unused, pid := k.nextpid, kstack := none, wmap := Wmap.init }

structure ForkCopied (k : Kernel) (p np : Fin NPROC) (k' : Kernel) (s : Frame) (a : Kmem)
    (m : Machine) (d : PgDir) : Prop extends ForkFrame k p np k' where
  stack : kalloc k.mach.kmem = (some s, a)
  copy : Copied { k.mach with kmem := a } (k.proc p).pgdir (sizePages (k.proc p).sz) m
    (k'.proc p).pgdir d

/-- `copyWmap` failed: the child's directory, with what it had inherited, is dropped. -/
structure ForkDropped (k : Kernel) (p np : Fin NPROC) (k' : Kernel) (s : Frame) (a a1 : Kmem)
    (m : Machine) (d d1 : PgDir) (done : List Nat) : Prop extends ForkCopied k p np k' s a m d where
  inherited : Inherited (k'.proc p).pgdir m.kmem d done a1 d1
  failed : a1.failed = true
  short : a1.freelist = []
  freed : Freed { m.lcr3 d.frame with kmem := a1 } {s} k'.mach
  child : (k'.proc np).state = .unused ∧ (k'.proc np).cowFault = (k.proc np).cowFault

structure Forked (k : Kernel) (p np : Fin NPROC) (k' : Kernel) (s : Frame) (a : Kmem)
    (m : Machine) (d : PgDir) (done : List Nat) : Prop extends ForkCopied k p np k' s a m d where
  inherited : Inherited (k'.proc p).pgdir m.kmem d done k'.mach.kmem (k'.proc np).pgdir
  pages : ∀ v ∈ done, ∃ i ∈ (k.proc p).wmap.active, v ∈ ((k.proc p).wmap.slot i).pages
  all : ∀ i ∈ (k.proc p).wmap.active, ∀ v ∈ ((k.proc p).wmap.slot i).pages,
    ((k'.proc p).pgdir.entry v).p = true → v ∈ done
  mach : k'.mach = { m.lcr3 d.frame with kmem := k'.mach.kmem }
  failed : k'.mach.kmem.failed = k.mach.kmem.failed
  child : ∃ ofile cwd name, k'.proc np = { k.proc np with
    state := .runnable, pid := k.nextpid, kstack := some s, sz := (k.proc p).sz,
    pgdir := (k'.proc np).pgdir, wmap := (k'.proc np).wmap, parent := some p,
    tf := { (k.proc p).tf with eax := 0 }, ofile := ofile, cwd := cwd, name := name }
  isChild : (k'.proc np).wmap.isChild = true
  slot : ∀ i, (k'.proc np).wmap.slot i = if i ∈ (k.proc p).wmap.active
    then (k.proc p).wmap.slot i else Region.empty
  total : (k'.proc np).wmap.total = if (k.proc p).wmap.active.Nonempty
    then (k.proc p).wmap.total else 0

structure ForkReady (k : Kernel) (p np : Fin NPROC) (s : Frame) (m : Machine) (pgdir d : PgDir)
    (km : Kernel) : Prop where
  mach : km.mach = m.lcr3 d.frame
  parent : km.proc p = { k.proc p with pgdir := pgdir }
  child : ∃ ofile cwd name, km.proc np = { k.proc np with
    state := .runnable, pid := k.nextpid, kstack := some s, sz := (k.proc p).sz, pgdir := d,
    wmap := { Wmap.init with isChild := true }, parent := some p,
    tf := { (k.proc p).tf with eax := 0 }, ofile := ofile, cwd := cwd, name := name }
  others : ∀ q, q ≠ p → q ≠ np → km.proc q = k.proc q
  initproc : km.initproc = k.initproc
  kpgdir : km.kpgdir = k.kpgdir
  loaded : km.loaded = k.loaded

section
variable {k k' km : Kernel} {p np : Fin NPROC} {s : Frame} {a : Kmem} {m : Machine}
  {pgdir d : PgDir} {done : List Nat}

section
variable (hne : np ≠ p) (hun : (k.proc np).state = .unused) (hs : kalloc k.mach.kmem = (some s, a))
  (hcopy : Copied { k.mach with kmem := a } (k.proc p).pgdir (sizePages (k.proc p).sz) m pgdir d)
  (hm : ForkReady k p np s m pgdir d km)
include hne hun hs hcopy hm

theorem ForkReady.forked (h : CopiedSlots km p np (List.finRange MAX_WMMAP_INFO) true k' done) :
    Forked k p np k' s a m d done := by
  obtain ⟨ofile, cwd, name, hchild⟩ := hm.child
  have hp : k'.proc p = { k.proc p with pgdir := pgdir } := by
    rw [h.eq, proc_setProc_ne hne.symm]
    exact hm.parent
  have hact : (km.proc p).wmap = (k.proc p).wmap := by rw [hm.parent]
  refine ⟨⟨⟨hne, hun, ?_, ?_, ?_, ?_, ?_⟩, hs, ?_⟩, ?_, ?_, ?_, ?_, ?_, ⟨ofile, cwd, name, ?_⟩, ?_,
    ?_, ?_⟩
  · intro q hqp hqn
    rw [h.eq, proc_setProc_ne hqn]
    exact hm.others q hqp hqn
  · rw [hp]
  · rw [h.eq]
    exact hm.initproc
  · rw [h.eq]
    exact hm.kpgdir
  · rw [h.eq]
    exact hm.loaded
  · rw [hp]
    exact hcopy
  · have hinh := h.inherited
    rw [hm.parent, hm.mach, hchild] at hinh
    rw [hp]
    exact hinh
  · rw [← hact]
    exact h.pages
  · have hall := h.all rfl
    simp only [hm.parent] at hall
    rw [hp]
    exact fun i hi => hall i (List.mem_finRange i) hi
  · conv_lhs => rw [h.eq]
    simp [hm.mach]
  · rw [h.failed, hm.mach]
    simp only [Bool.not_true, Bool.or_false]
    exact hcopy.failed.trans (kalloc_some hs).2
  · conv_lhs => rw [h.eq]
    simp [hchild]
  · rw [h.isChild, hchild]
  · intro i
    have hslot := h.slot rfl i
    rw [hact, hchild] at hslot
    simpa [Wmap.init] using hslot
  · have htotal := h.total rfl
    rw [hact, hchild] at htotal
    have hiff : (∃ i ∈ List.finRange MAX_WMMAP_INFO, i ∈ (k.proc p).wmap.active) ↔
        (k.proc p).wmap.active.Nonempty := by simp [Finset.Nonempty]
    by_cases hn : (k.proc p).wmap.active.Nonempty
    · rw [if_pos hn, htotal, if_pos (hiff.mpr hn)]
    · rw [if_neg hn, htotal, if_neg (mt hiff.mp hn)]
      rfl

theorem ForkReady.dropped {k3 : Kernel}
    (h : CopiedSlots km p np (List.finRange MAX_WMMAP_INFO) false k3 done)
    (hd : dropSlot k3 np = .ok k') :
    ForkDropped k p np k' s a k3.mach.kmem m d (k3.proc np).pgdir done := by
  obtain ⟨ofile, cwd, name, hchild⟩ := hm.child
  obtain ⟨s', hs', hf, hk⟩ := dropSlot_spec hd
  have hnp : k3.proc np = { km.proc np with
      pgdir := (k3.proc np).pgdir, wmap := (k3.proc np).wmap } := by
    conv_lhs => rw [h.eq]
    simp
  have hmach : k3.mach = { m.lcr3 d.frame with kmem := k3.mach.kmem } := by
    conv_lhs => rw [h.eq]
    simp [hm.mach]
  obtain rfl : s = s' := by
    rw [hnp, hchild] at hs'
    exact Option.some.inj hs'
  have hp : k'.proc p = { k.proc p with pgdir := pgdir } := by
    rw [hk, proc_setProc_ne hne.symm, h.eq]
    change (km.setProc np _).proc p = _
    rw [proc_setProc_ne hne.symm]
    exact hm.parent
  refine ⟨⟨⟨hne, hun, ?_, ?_, ?_, ?_, ?_⟩, hs, ?_⟩, ?_, ?_, h.short rfl, ?_, ?_⟩
  · intro q hqp hqn
    rw [hk, proc_setProc_ne hqn, h.eq]
    change (km.setProc np _).proc q = _
    rw [proc_setProc_ne hqn]
    exact hm.others q hqp hqn
  · rw [hp]
  · rw [hk, h.eq]
    exact hm.initproc
  · rw [hk, h.eq]
    exact hm.kpgdir
  · rw [hk, h.eq]
    exact hm.loaded
  · rw [hp]
    exact hcopy
  · have hinh := h.inherited
    rw [hm.parent, hm.mach, hchild] at hinh
    rw [hp]
    exact hinh
  · rw [h.failed]
    simp
  · rw [← hmach]
    exact hf
  · rw [hk, proc_setProc_self, hnp, hchild]
    exact ⟨rfl, rfl⟩

end

end

def Kernel.forking (k : Kernel) (p np : Fin NPROC) (s : Frame) (a : Kmem) (m : Machine)
    (pgdir d : PgDir) : Kernel :=
  let k := { k with mach := { k.mach with kmem := a }, nextpid := k.nextpid + 1 }.setProc np
    { k.proc np with state := .embryo, pid := k.nextpid, kstack := some s, wmap := Wmap.init }
  let x := { k.proc p with pgdir := pgdir }
  let k := { k with mach := m }.setProc p x
  let y := k.proc np
  { k with mach := (k.mach.lcr3 x.pgdir.frame).lcr3 d.frame }.setProc np
    { y with
      pgdir := d, wmap := { y.wmap with isChild := true }, sz := x.sz, parent := some p,
      tf := { x.tf with eax := 0 } }

theorem forkReady_of_dupAll {k2 : Kernel} {s : Frame} {a : Kmem} {m : Machine} {pgdir d : PgDir}
    (hne : np ≠ p) (h : dupAll p np is (k.forking p np s a m pgdir d) = .ok k2) (fs : Files) :
    ForkReady k p np s m pgdir d ({ k2 with fs := fs }.setProc np
      { k2.proc np with
        cwd := (k2.proc p).cwd, name := (k2.proc p).name, state := .runnable }) := by
  rw [dupAll_spec h]
  refine ⟨rfl, ?_, ⟨(k2.proc np).ofile, (k.proc p).cwd, (k.proc p).name, ?_⟩, ?_, rfl, rfl, rfl⟩
  · simp [Kernel.forking, Kernel.setProc, hne.symm]
  · simp [Kernel.forking, Kernel.setProc, hne, hne.symm]
  · intro q hqp hqn
    simp [Kernel.forking, Kernel.setProc, hqp, hqn]

section
variable (hp : (k.proc p).live) (hsz : (k.proc p).sz ≤ 0x80000000) (hok : (k.proc p).wmap.Ok)
  (h : fork k p = .ok (r, k'))
include hp hsz hok h

theorem fork_cases : (r = none ∧ allocproc k = (none, k')) ∨
    ∃ np s a child m, copyuvm { k.mach with kmem := a } (k.proc p).pgdir (k.proc p).sz =
        .ok (child, (k'.proc p).pgdir, m) ∧
      ((child = none ∧ r = none ∧ k'.fs = k.fs ∧ ∃ j t, ForkFailed k p np k' s a m j t) ∨
        ∃ d, child = some d ∧
          ((r = none ∧ ∃ a1 d1 done, ForkDropped k p np k' s a a1 m d d1 done) ∨
            (r.isSome ∧ ∃ done, Forked k p np k' s a m d done))) := by
  unfold fork at h
  split at h
  · rename_i k1 ha
    cases h
    exact Or.inl ⟨rfl, ha⟩
  rename_i np k1 ha
  obtain ⟨hun, s, a, hs, rfl⟩ := allocproc_some ha
  have hne : np ≠ p := by
    rintro rfl
    exact hp hun
  obtain ⟨⟨child, pgdir, m⟩, hc, h⟩ := bind_eq_ok.mp h
  simp only [Kernel.setProc, update_of_ne hne.symm] at hc
  refine Or.inr ⟨np, s, a, child, m, ?_⟩
  rcases copyuvm_spec hsz hc with ⟨d, rfl, hcopy⟩ | ⟨rfl, j, t, hcopy⟩
  · obtain ⟨k2, hdup, h⟩ := bind_eq_ok.mp h
    obtain ⟨fs, -, h⟩ := bind_eq_ok.mp h
    obtain ⟨⟨ok, k3⟩, hw, h⟩ := bind_eq_ok.mp h
    have hready := forkReady_of_dupAll (s := s) (a := a) hne hdup fs
    obtain ⟨done, hslots⟩ := copySlots_spec hne.symm (by rw [hready.parent]; exact hok) hw
    have hpar : (k3.proc p).pgdir = pgdir := by
      rw [hslots.eq, proc_setProc_ne hne.symm]
      exact congrArg Proc.pgdir hready.parent
    dsimp only at h
    split at h
    · rename_i hok'
      subst hok'
      cases h
      refine ⟨?_, Or.inr ⟨d, rfl, Or.inr ⟨rfl, done, hready.forked hne hun hs hcopy hslots⟩⟩⟩
      rw [hpar]
      exact hc
    · rename_i hok'
      rw [Bool.eq_false_iff.mpr hok'] at hslots
      obtain ⟨k4, hd, h⟩ := bind_eq_ok.mp h
      cases h
      obtain ⟨-, -, -, hk⟩ := dropSlot_spec hd
      refine ⟨?_, Or.inr ⟨d, rfl, Or.inl ⟨rfl, _, _, done,
        hready.dropped hne hun hs hcopy hslots hd⟩⟩⟩
      rw [hk, proc_setProc_ne hne.symm]
      change _ = Except.ok (some d, (k3.proc p).pgdir, m)
      rw [hpar]
      exact hc
  · obtain ⟨k2, hd, h⟩ := bind_eq_ok.mp h
    cases h
    obtain ⟨s', hs', hf, hk⟩ := dropSlot_spec hd
    simp only [Kernel.setProc] at hs' hf hk
    rw [update_of_ne hne, update_self] at hs' hk
    cases hs'
    have hpar : (k'.proc p).pgdir = pgdir := by
      rw [hk]
      simp [hne.symm]
    refine ⟨by rw [hpar]; exact hc, Or.inl ⟨rfl, rfl, by rw [hk], j, t,
      ⟨hne, hun, ?_, ?_, ?_, ?_, ?_⟩, hs, ?_, hf, ?_⟩⟩
    · intro q hqp hqn
      rw [hk]
      simp [hqp, hqn]
    · rw [hpar, hk]
      simp [hne.symm]
    · rw [hk]
    · rw [hk]
    · rw [hk]
    · rw [hpar]
      exact hcopy
    · rw [hk]
      simp

theorem fork_spec :
    (r = none ∧ (k' = k ∨ ∃ np, (k.proc np).state = .unused ∧ k.mach.kmem.freelist = [] ∧
      k' = { k with mach := { k.mach with kmem := { k.mach.kmem with failed := true } },
                    nextpid := k.nextpid + 1 }.setProc np
        { k.proc np with pid := k.nextpid, kstack := none })) ∨
    (r = none ∧ ∃ np s a m j t, ForkFailed k p np k' s a m j t) ∨
    (r = none ∧ ∃ np s a a1 m d d1 done, ForkDropped k p np k' s a a1 m d d1 done) ∨
    (r.isSome ∧ ∃ np s a m d done, Forked k p np k' s a m d done) := by
  rcases fork_cases hp hsz hok h with ⟨hr, ha⟩ | ⟨np, s, a, child, m, -, hout⟩
  · exact Or.inl ⟨hr, allocproc_none ha⟩
  · rcases hout with ⟨-, hr, -, j, t, hf⟩ | ⟨d, -, ⟨hr, a1, d1, done, hd⟩ | ⟨hr, done, hd⟩⟩
    · exact Or.inr (Or.inl ⟨hr, np, s, a, m, j, t, hf⟩)
    · exact Or.inr (Or.inr (Or.inl ⟨hr, np, s, a, a1, m, d, d1, done, hd⟩))
    · exact Or.inr (Or.inr (Or.inr ⟨hr, np, s, a, m, d, done, hd⟩))

end

end Xv6
