import Xv6.System
import Xv6.Unmap
import Xv6.Lib.Run

/-!
Sequences of `wmap` and `wunmap` calls of one process. The region table is in order
after every sequence whose ranges do not wrap around the top of the address space, and
it behaves as a set of at most 16 disjoint byte ranges.
-/

namespace Xv6

variable {k k' : Kernel} {p : Fin NPROC} {fd length : Int} {addr flags : Nat} {r : Option Nat}

theorem storedFd_spec {n : Int} (h : storedFd k p fd = .ok (n, k')) :
    k' = { k with fs := k'.fs }.setProc p { k.proc p with ofile := (k'.proc p).ofile } := by
  have same : k = { k with fs := k.fs }.setProc p { k.proc p with ofile := (k.proc p).ofile } := by
    simp [Kernel.setProc]
  unfold storedFd duplicateFd at h
  split at h
  · split at h
    · split at h
      · cases h
        exact same
      split at h
      · cases h
        exact same
      · obtain ⟨fs, -, h⟩ := Lib.bind_eq_ok.mp h
        cases h
        simp [Kernel.setProc]
    · cases h
      exact same
  · cases h
    exact same

/-- `wmap` stores a descriptor and, when the table has room, the new region. -/
theorem wmap_spec (h : wmap k p addr length flags fd = .ok (r, k')) :
    k' = { k with fs := k'.fs }.setProc p
        { k.proc p with ofile := (k'.proc p).ofile, wmap := (k'.proc p).wmap } ∧
      ∃ n, (r = none ∧ (k.proc p).wmap.add addr length (flags &&& 4 = 0) n = none ∧
          (k'.proc p).wmap = (k.proc p).wmap) ∨
        (r = some addr ∧ (k.proc p).wmap.add addr length (flags &&& 4 = 0) n =
          some (k'.proc p).wmap) := by
  obtain ⟨⟨n, k1⟩, hf, h⟩ := Lib.bind_eq_ok.mp h
  have hk := storedFd_spec hf
  have hw : (k1.proc p).wmap = (k.proc p).wmap := by
    rw [hk]
    simp [Kernel.setProc]
  dsimp only at h
  rw [hw] at h
  split at h
  · rename_i hadd
    cases h
    refine ⟨?_, n, Or.inl ⟨rfl, hadd, hw⟩⟩
    conv_lhs => rw [hk]
    rw [hw]
  · rename_i w hadd
    cases h
    refine ⟨?_, n, Or.inr ⟨rfl, by simpa [Kernel.setProc] using hadd⟩⟩
    conv_lhs => rw [hk]
    simp [Kernel.setProc]

/-- A call on the region table with the arguments the kernel fetched. -/
inductive RegionCall where
  | wmap (addr : Nat) (length : Int) (flags : Nat) (fd : Int)
  | wunmap (addr : Nat)

def RegionCall.Fits : RegionCall → Prop
  | wmap addr length flags fd => addr < 0x100000000 ∧ -0x80000000 ≤ length ∧ length < 0x80000000 ∧
      flags < 0x100000000 ∧ -0x80000000 ≤ fd ∧ fd < 0x80000000
  | wunmap addr => addr < 0x100000000

/-- The system call: whether it succeeds, and the kernel it leaves. -/
def RegionCall.system (k : Kernel) (p : Fin NPROC) : RegionCall → Except Halt (Bool × Kernel)
  | wmap addr length flags fd => do
      let (r, k) ← sysWmap k p addr length flags fd
      pure (r.isSome, k)
  | wunmap addr => sysWunmap k p addr

def SystemStep (p : Fin NPROC) (k : Kernel) (c : RegionCall) (k' : Kernel) : Prop :=
  c.Fits ∧ ∃ b, c.system k p = .ok (b, k')

structure Wmap.Valid (w : Wmap) : Prop where
  aligned : ∀ i ∈ w.active, (w.slot i).addr % 4096 = 0
  positive : ∀ i ∈ w.active, 0 < (w.slot i).length
  bounds : ∀ i ∈ w.active, 0x60000000 ≤ (w.slot i).addr ∧
    ((w.slot i).addr : Int) + (w.slot i).length ≤ 0x80000000
  apart : ∀ i ∈ w.active, ∀ j ∈ w.active, i ≠ j →
    ¬ ((w.slot i).interval.roundOut 4096).Meets ((w.slot j).interval.roundOut 4096)

/-- No call that passes the other tests of `sys_wmap` has a range that ends above the top
of the address space. -/
def RegionCall.NoWrap : RegionCall → Prop
  | wmap addr length flags _ => 0x60000000 ≤ addr → addr % 4096 = 0 → 0 < length →
      flags &&& 8 ≠ 0 → flags &&& 2 ≠ 0 → (addr : Int) + length < 0x100000000
  | wunmap _ => True

theorem sysWmap_cases (h : sysWmap k p addr length flags fd = .ok (r, k')) : (r = none ∧ k' = k) ∨
    (0x60000000 ≤ addr ∧ addInt addr length ≤ 0x80000000 ∧ flags &&& 8 ≠ 0 ∧ flags &&& 2 ≠ 0 ∧
      addr % 4096 = 0 ∧ 0 < length ∧ wmap k p addr length flags fd = .ok (r, k')) := by
  unfold sysWmap at h
  split at h
  · cases h
    exact Or.inl ⟨rfl, rfl⟩
  rename_i hb
  split at h
  · cases h
    exact Or.inl ⟨rfl, rfl⟩
  rename_i h8
  split at h
  · cases h
    exact Or.inl ⟨rfl, rfl⟩
  rename_i h2
  split at h
  · cases h
    exact Or.inl ⟨rfl, rfl⟩
  rename_i hal
  split at h
  · cases h
    exact Or.inl ⟨rfl, rfl⟩
  · rename_i hl
    exact Or.inr ⟨by omega, by omega, h8, h2, by omega, by omega, h⟩

/-- Ranges that start on page boundaries and do not meet do not meet as whole pages
either. -/
theorem Wmap.Apart.valid {w : Wmap} (h : w.Apart)
    (hal : ∀ i ∈ w.active, (w.slot i).addr % 4096 = 0) : w.Valid := by
  refine ⟨hal, fun i hi => (h.window i hi).2.1, ?_, ?_⟩
  · intro i hi
    obtain ⟨h1, -, h₂⟩ := h.window i hi
    simp only [Region.interval] at h1 h₂
    omega
  intro i hi j hj hij hm
  apply h.apart i hi j hj hij
  have h1 : 0 < (w.slot i).length := (h.window i hi).2.1
  have h₂ : 0 < (w.slot j).length := (h.window j hj).2.1
  have h3 := hal i hi
  have h4 := hal j hj
  rw [Lib.Interval.meets_iff_of_pos h1 h₂]
  rw [Lib.Interval.meets_iff] at hm
  simp only [Lib.Interval.roundOut, Region.interval] at hm ⊢
  omega

theorem apart_systemStep {c : RegionCall} (hc : c.NoWrap) (h : SystemStep p k c k')
    (hw : (k.proc p).wmap.Apart ∧ ∀ i ∈ (k.proc p).wmap.active,
      ((k.proc p).wmap.slot i).addr % 4096 = 0) :
    (k'.proc p).wmap.Apart ∧ ∀ i ∈ (k'.proc p).wmap.active,
      ((k'.proc p).wmap.slot i).addr % 4096 = 0 := by
  obtain ⟨hfits, b, h⟩ := h
  cases c with
  | wmap addr length flags fd =>
    obtain ⟨⟨r, k1⟩, h, hk⟩ := Lib.bind_eq_ok.mp h
    cases hk
    rcases sysWmap_cases h with ⟨-, rfl⟩ | ⟨ha, hb, h8, h2, hal, hl, h⟩
    · exact hw
    obtain ⟨-, n, ⟨-, -, hsame⟩ | ⟨-, hadd⟩⟩ := wmap_spec h
    · rw [hsame]
      exact hw
    have hlt := hc ha hal hl h8 h2
    have hsum := addInt_of_lt (a := addr) (n := length) (by omega) hlt
    have hin : InWindow ⟨addr, length⟩ := inWindow_mk.mpr (by omega)
    refine ⟨(hw.1.add hin hadd).1, ?_⟩
    obtain ⟨-, -, i, hi, he⟩ := Wmap.add_some hadd
    rw [he, Wmap.active_update_region
      (isEmpty_of_window (r := ⟨addr, length, 0, flags &&& 4 = 0, n⟩) hin)]
    intro j hj
    by_cases hji : j = i
    · subst hji
      rw [Wmap.slot_update_self]
      exact hal
    · rw [Wmap.slot_update_ne hji]
      exact hw.2 j ((Finset.mem_insert.mp hj).resolve_left hji)
  | wunmap addr =>
    simp only [RegionCall.system, sysWunmap] at h
    split at h
    · cases h
      exact hw
    rcases wunmap_cases h with ⟨-, -, rfl⟩ | ⟨-, -, -, rfl⟩ | ⟨-, i, k1, hs, hu, rfl⟩
    · exact hw
    · exact hw
    have hsame := (wmap_unmapPages hu).1
    split
    · simp only [Kernel.dropRegion, Kernel.setProc, Function.update_self, hsame]
      refine ⟨(hw.1.drop (Wmap.startsAt_some hs).1).1, ?_⟩
      rw [Wmap.active_update_empty]
      intro j hj
      rw [Wmap.slot_update_ne (Finset.ne_of_mem_erase hj)]
      exact hw.2 j (Finset.mem_of_mem_erase hj)
    · rw [hsame]
      exact hw

/-- After every sequence of calls that do not wrap, the regions are page-aligned, nonempty,
inside the window and disjoint as whole pages. -/
theorem regions_valid_of_noWrap {p : Fin NPROC} {k k' : Kernel} {calls : List RegionCall}
    (hinit : (k.proc p).wmap = Wmap.init)
    (h : Lib.Run (Lib.When (fun _ c => c.NoWrap) (SystemStep p)) k calls k') :
    (k'.proc p).wmap.Valid := by
  have hinv := h.invariant
    (fun k => (k.proc p).wmap.Apart ∧ ∀ i ∈ (k.proc p).wmap.active,
      ((k.proc p).wmap.slot i).addr % 4096 = 0)
    (by rw [hinit]; exact ⟨Wmap.apart_init, by simp⟩)
    (fun s c t hs hstep => apart_systemStep hstep.1 hstep.2 hs)
  exact hinv.1.valid hinv.2

/-- A kernel whose processes have the tables `allocproc` sets up. -/
def Kernel.fresh : Kernel where
  mach := ⟨⟨257, 258, by decide, by decide, by decide⟩, ⟨[], false⟩, fun _ => 0, fun _ _ => 1, 0⟩
  fs := ⟨fun _ => {}, fun _ => {}, fun _ => none, fun _ => none, 0, 0, fun _ => {}, 0⟩
  proc := fun _ => { Proc.zero with wmap := Wmap.init }
  initproc := 0
  nextpid := 1
  kpgdir := PgDir.empty 0
  loaded := fun _ => 0

theorem regions_valid_one_page :
    ∃ k' : Kernel, (k'.proc 0).wmap.active = {0} ∧ (k'.proc 0).wmap.Valid := by
  refine ⟨_, ?_, @regions_valid_of_noWrap 0 Kernel.fresh _
    [.wmap 0x60000000 0x1000 14 (-1)] rfl
    (Lib.Run.single ⟨?_, by simp [RegionCall.Fits], true, rfl⟩)⟩
  · decide
  · intro _ _ _ _ _
    decide

/-- `sys_wmap(0xFFFFF000, 0x2000, MAP_SHARED | MAP_ANONYMOUS | MAP_FIXED, -1)` passes the
bound test, because the sum of address and length is reduced to 0x1000. -/
theorem regions_invalid_after_wrap : ∃ k', (Kernel.fresh.proc 0).wmap = Wmap.init ∧
    Lib.Run (SystemStep 0) Kernel.fresh [.wmap 0xFFFFF000 0x2000 14 (-1)] k' ∧
    ¬ (k'.proc 0).wmap.Valid := by
  refine ⟨_, rfl, Lib.Run.single ⟨by simp [RegionCall.Fits], true, rfl⟩, ?_⟩
  intro h
  have hb := (h.bounds 0 (by decide)).2
  revert hb
  decide

end Xv6
