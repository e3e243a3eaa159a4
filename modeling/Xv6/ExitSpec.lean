import Xv6.Inherit
import Xv6.Kernel

/-!
`wunmap` on any table `sys_wmap` can make, `exit` and `wait`. `exit` ignores the results
of its unmappings, so a zombie may keep some of its pages; `wait` hands them to `freevm`.
-/

namespace Xv6

open Lib Kernel

section
variable {k k' : Kernel} {p : Fin NPROC} {done : List Nat}

theorem Unmapped.wmapOk (h : Unmapped k p done k') (hok : (k.proc p).wmap.Ok) :
    (k'.proc p).wmap.Ok := by
  intro i hi
  obtain ⟨hi', he⟩ := h.active hi
  rw [he]
  exact hok i hi'

theorem wunmap_spec {addr : Nat} {b : Bool} (hok : (k.proc p).wmap.Ok)
    (h : wunmap k p addr = .ok (b, k')) :
    ∃ done, Unmapped k p done k' ∧ ∀ v ∈ done, ∃ i ∈ (k.proc p).wmap.active,
      (k.proc p).wmap.startsAt addr = some i ∧ 0 < ((k.proc p).wmap.slot i).nLoaded ∧
      v ∈ ((k.proc p).wmap.slot i).pages := by
  rcases wunmap_cases h with ⟨-, -, rfl⟩ | ⟨-, -, -, rfl⟩ | ⟨-, i, k1, hs, hu, rfl⟩
  · exact ⟨[], Unmapped.refl _ p, by simp⟩
  · exact ⟨[], Unmapped.refl _ p, by simp⟩
  obtain ⟨hi, rfl⟩ := Wmap.startsAt_some hs
  obtain ⟨done, hun, hsub, -, hz⟩ := unmapPages_spec (hok i hi).aligned (hok i hi).bound hu
  refine ⟨done, ?_, ?_⟩
  · split
    · exact hun.drop i
    · exact hun
  · intro v hv
    refine ⟨i, hi, hs, ?_, hsub v hv⟩
    by_contra hn
    rw [hz (by omega)] at hv
    cases hv

theorem unmapAll_spec {is : List (Fin MAX_WMMAP_INFO)} (hok : (k.proc p).wmap.Ok)
    (h : unmapAll p is k = .ok k') :
    ∃ done, Unmapped k p done k' ∧
      ∀ v ∈ done, ∃ i ∈ (k.proc p).wmap.active, v ∈ ((k.proc p).wmap.slot i).pages := by
  induction is generalizing k with
  | nil =>
    cases h
    exact ⟨[], Unmapped.refl _ p, by simp⟩
  | cons i is ih =>
    rw [unmapAll] at h
    dsimp only at h
    split at h
    · exact ih hok h
    obtain ⟨⟨b, k1⟩, hw, h⟩ := bind_eq_ok.mp h
    obtain ⟨vs, hu, hvs⟩ := wunmap_spec hok hw
    obtain ⟨ws, hu', hws⟩ := ih (hu.wmapOk hok) h
    refine ⟨vs ++ ws, hu.trans hu', ?_⟩
    intro v hv
    rcases List.mem_append.mp hv with hv | hv
    · obtain ⟨j, hj, -, -, hp⟩ := hvs v hv
      exact ⟨j, hj, hp⟩
    · obtain ⟨j, hj, hp⟩ := hws v hv
      obtain ⟨hj', he⟩ := hu.active hj
      exact ⟨j, hj', by rwa [he] at hp⟩

end

/-- `exit` lowers the counts of the page tables it walks over and changes nothing else of the
machine. -/
structure Lowered (m : Machine) (xs : List Frame) (m' : Machine) : Prop where
  image : m'.image = m.image
  kmem : m'.kmem = m.kmem
  mem : m'.mem = m.mem
  cr3 : m'.cr3 = m.cr3
  le : ∀ x, m'.counts x ≤ m.counts x
  same : ∀ x, x ∉ xs → m'.counts x = m.counts x

theorem decCount_lowered (m : Machine) (x : Frame) : Lowered m [x] (m.decCount x) := by
  unfold Machine.decCount
  split
  · refine ⟨rfl, rfl, rfl, rfl, ?_, ?_⟩
    · intro y
      by_cases hy : y = x
      · subst hy
        simp [Machine.setCount]
      · simp [Machine.setCount, hy]
    · intro y hy
      rw [List.mem_singleton] at hy
      simp [Machine.setCount, hy]
  · exact ⟨rfl, rfl, rfl, rfl, fun _ => le_rfl, fun _ _ => rfl⟩

theorem decTables_spec (xs : List Frame) (m : Machine) : Lowered m xs (decTables xs m) := by
  induction xs generalizing m with
  | nil => exact ⟨rfl, rfl, rfl, rfl, fun _ => le_rfl, fun _ _ => rfl⟩
  | cons x xs ih =>
    have h := decCount_lowered m x
    have h' := ih (m.decCount x)
    refine ⟨h'.image.trans h.image, h'.kmem.trans h.kmem, h'.mem.trans h.mem,
      h'.cr3.trans h.cr3, fun y => (h'.le y).trans (h.le y), ?_⟩
    intro y hy
    rw [List.mem_cons, not_or] at hy
    exact (h'.same y hy.2).trans (h.same y (List.not_mem_cons_of_ne_of_not_mem hy.1 List.not_mem_nil))

theorem closeAll_spec {p : Fin NPROC} {fds : List (Fin NOFILE)} {k k' : Kernel}
    (h : closeAll p fds k = .ok k') :
    k' = { k with fs := k'.fs }.setProc p { k.proc p with ofile := (k'.proc p).ofile } := by
  induction fds generalizing k with
  | nil =>
    cases h
    simp [Kernel.setProc]
  | cons fd fds ih =>
    rw [closeAll] at h
    split at h
    · exact ih h
    · obtain ⟨fs, -, h⟩ := bind_eq_ok.mp h
      conv_lhs => rw [ih h]
      simp [Kernel.setProc]

theorem proc_reparent (k : Kernel) (p q : Fin NPROC) : (reparent k p).proc q =
    { k.proc q with parent := ((reparent k p).proc q).parent } := by
  simp only [reparent]
  split <;> rfl

/-- The kernel after `exit`: a zombie, and perhaps new parents. -/
structure Exited (k : Kernel) (p : Fin NPROC) (k' : Kernel) (done : List Nat) (k1 : Kernel) :
    Prop where
  unmapped : Unmapped k p done k1
  pages : ∀ v ∈ done, ∃ i ∈ (k.proc p).wmap.active, v ∈ ((k.proc p).wmap.slot i).pages
  lowered : Lowered k1.mach (k.proc p).pgdir.tables k'.mach
  self : k'.proc p =
    { k1.proc p with
      ofile := (k'.proc p).ofile
      cwd := none
      parent := (k'.proc p).parent
      state := .zombie }
  others : ∀ q, q ≠ p → k'.proc q = { k.proc q with parent := (k'.proc q).parent }
  initproc : k'.initproc = k.initproc
  kpgdir : k'.kpgdir = k.kpgdir
  loaded : k'.loaded = k.loaded
  notInit : p ≠ k.initproc

theorem exit_spec {k k' : Kernel} {p : Fin NPROC} (hok : (k.proc p).wmap.Ok)
    (h : exit k p = .ok k') : ∃ done k1, Exited k p k' done k1 := by
  unfold exit at h
  split at h
  · cases h
  rename_i hinit
  obtain ⟨k1, hu, h⟩ := bind_eq_ok.mp h
  obtain ⟨k2, hcl, h⟩ := bind_eq_ok.mp h
  obtain ⟨fs, -, h⟩ := bind_eq_ok.mp h
  cases h
  obtain ⟨done, hun, hpages⟩ := unmapAll_spec hok hu
  have hk2 := closeAll_spec hcl
  have hlow := decTables_spec (k1.proc p).pgdir.tables k1.mach
  generalize decTables (k1.proc p).pgdir.tables k1.mach = m at hlow hk2
  rw [hun.cleared.tables] at hlow
  refine ⟨done, k1, hun, hpages, ?_, ?_, ?_, ?_, ?_, ?_, hinit⟩
  · rw [← show k2.mach = m from congrArg Kernel.mach hk2] at hlow
    exact hlow
  · have hself : k2.proc p = { k1.proc p with ofile := (k2.proc p).ofile } := by
      conv_lhs => rw [hk2, proc_setProc_self]
    simp only [proc_setProc_self]
    rw [proc_reparent, proc_setProc_self, hself]
  · intro q hq
    rw [proc_setProc_ne hq, proc_reparent, proc_setProc_ne hq]
    have : k2.proc q = k.proc q := by
      rw [congrArg (fun k => k.proc q) hk2, proc_setProc_ne hq]
      exact hun.proc_ne hq
    simp only [this]
  · exact (congrArg Kernel.initproc hk2).trans hun.initproc
  · exact (congrArg Kernel.kpgdir hk2).trans hun.kpgdir
  · exact (congrArg Kernel.loaded hk2).trans hun.loaded

theorem wait_spec {k k' : Kernel} {p : Fin NPROC} {r : Option Nat} (h : wait k p = .ok (r, k')) :
    k' = k ∨ ∃ q s, k.zombieChild p = some q ∧ (k.proc q).state = .zombie ∧
      (k.proc q).kstack = some s ∧
      Freed k.mach ({s} + (k.proc q).pgdir.freed k.mach.counts) k'.mach ∧
      k' = { k with mach := k'.mach }.setProc q
        { k.proc q with
          kstack := none, pid := 0, parent := none, name := [], killed := false,
          state := .unused } := by
  unfold wait at h
  split at h
  · rename_i q hq
    have hz : (k.proc q).state = .zombie := by simpa using List.find?_some hq
    dsimp only at h
    split at h
    · cases h
    rename_i s hs
    obtain ⟨m, hm, h⟩ := bind_eq_ok.mp h
    obtain ⟨m', hm', h⟩ := bind_eq_ok.mp h
    cases h
    have hf := kfree_spec hm
    have hf' := freevm_spec hm'
    rw [hf.counts] at hf'
    exact Or.inr ⟨q, s, hq, hz, hs, hf.trans hf', rfl⟩
  · split at h
    · cases h
      exact Or.inl rfl
    · cases h

end Xv6
