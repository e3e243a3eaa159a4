import Xv6.Lib.Holding
import Xv6.Resize
import Xv6.ForkSpec
import Xv6.WindowSpec

/-!
Who holds which frame. The pool consists of the free list and of all kernel stacks, page
directories and page tables in use; the references are the present user entries of the
processes. What an operation of one process does to the pool is read off its effect on
that process and the free list.
-/

namespace Xv6

open Multiset

variable {k : Kernel} {x : Frame} {y : Proc} {p : Fin NPROC}

/-- The frames a process has besides its user pages: its kernel stack, its page directory
and the page tables. -/
def Proc.owned (x : Proc) : Multiset Frame :=
  if x.live then (x.kstack.toList : Multiset Frame) + x.pgdir.frames else 0

def Kernel.total (k : Kernel) : Multiset Frame :=
  k.mach.kmem.free + ∑ p, (k.proc p).owned + k.kpgdir.frames

structure Kernel.Maps (k : Kernel) (p : Fin NPROC) (v : Nat) (x : Frame) : Prop where
  live : (k.proc p).live
  user : v < 0x80000
  present : ((k.proc p).pgdir.entry v).p = true
  ppn : ((k.proc p).pgdir.entry v).ppn = x

def Kernel.holding (k : Kernel) : Lib.Holding (Fin NPROC × Nat) Frame :=
  ⟨k.total, fun r x => k.Maps r.1 r.2 x⟩

/-- Two states of a process with the same frames at the same places. -/
structure Proc.SameSpace (x y : Proc) : Prop where
  live : x.live ↔ y.live
  kstack : x.kstack = y.kstack
  frames : x.pgdir.frames = y.pgdir.frames
  present : ∀ v, v < 0x80000 → (x.pgdir.entry v).p = (y.pgdir.entry v).p
  ppn : ∀ v, v < 0x80000 → (x.pgdir.entry v).ppn = (y.pgdir.entry v).ppn

theorem Proc.SameSpace.of_eq {x : Proc} (hlive : x.live ↔ y.live) (hstack : x.kstack = y.kstack)
    (hpgdir : x.pgdir = y.pgdir) : Proc.SameSpace x y :=
  ⟨hlive, hstack, by rw [hpgdir], fun v _ => by rw [hpgdir], fun v _ => by rw [hpgdir]⟩

theorem Proc.SameSpace.refl (x : Proc) : Proc.SameSpace x x := .of_eq Iff.rfl rfl rfl

theorem Proc.SameSpace.symm {x : Proc} (h : Proc.SameSpace x y) : Proc.SameSpace y x :=
  ⟨h.live.symm, h.kstack.symm, h.frames.symm, fun v hv => (h.present v hv).symm,
    fun v hv => (h.ppn v hv).symm⟩

theorem Proc.SameSpace.owned {x : Proc} (h : Proc.SameSpace x y) : x.owned = y.owned := by
  unfold Proc.owned
  simp only [h.live, h.frames, h.kstack]

theorem Kernel.Maps.congr {k' : Kernel} {v : Nat} (h : Proc.SameSpace (k'.proc p) (k.proc p))
    (hm : k.Maps p v x) : k'.Maps p v x :=
  ⟨h.live.mpr hm.live, hm.user, (h.present v hm.user).trans hm.present,
    (h.ppn v hm.user).trans hm.ppn⟩

theorem Kernel.mem_total_of_free (h : x ∈ k.mach.kmem.free) : x ∈ k.total := by
  simp [Kernel.total, h]

theorem Kernel.notMem_owned_of_free (hs : k.holding.Safe) (h : x ∈ k.mach.kmem.free) :
    x ∉ (k.proc p).owned := by
  intro ho
  have hn : k.total.Nodup := hs.nodup
  unfold Kernel.total at hn
  rw [Lib.sum_split _ p] at hn
  have hd := (nodup_add.mp (nodup_add.mp hn).1).2.2
  exact disjoint_left.mp hd h (mem_add.mpr (Or.inl ho))

section
variable {k k' : Kernel} {p : Fin NPROC}

theorem total_exchange (hother : ∀ q, q ≠ p → Proc.SameSpace (k'.proc q) (k.proc q))
    (hk : k'.kpgdir = k.kpgdir) (xs ys : Multiset Frame)
    (h : k'.mach.kmem.free + (k'.proc p).owned + xs = k.mach.kmem.free + (k.proc p).owned + ys) :
    k'.total + xs = k.total + ys := by
  have hrest := Lib.sum_erase_congr (i := p) fun q hq => (hother q hq).owned
  unfold Kernel.total
  rw [Lib.sum_split _ p, Lib.sum_split (fun q => (k.proc q).owned) p, hrest, hk]
  calc _ = (k'.mach.kmem.free + (k'.proc p).owned + xs) +
        (∑ q ∈ Finset.univ.erase p, (k.proc q).owned + k.kpgdir.frames) := by abel
    _ = _ := by rw [h]; abel

theorem holding_same (hother : ∀ q, Proc.SameSpace (k'.proc q) (k.proc q))
    (hk : k'.kpgdir = k.kpgdir) (hfree : k'.mach.kmem.free = k.mach.kmem.free) :
    k'.holding = k.holding := by
  have htotal : k'.total = k.total := by
    unfold Kernel.total
    rw [hk, hfree, Finset.sum_congr rfl fun q _ => (hother q).owned]
  have hmaps : ∀ (r : Fin NPROC × Nat) x, k'.Maps r.1 r.2 x = k.Maps r.1 r.2 x := fun r x =>
    propext ⟨Kernel.Maps.congr (hother r.1).symm, Kernel.Maps.congr (hother r.1)⟩
  simp only [Kernel.holding, htotal, hmaps]

/-- An operation on the address space of `p`: the frames of the pages `fs` go to the free
list, the pages of `D` may be gone. -/
theorem exchange_proc (hother : ∀ q, q ≠ p → Proc.SameSpace (k'.proc q) (k.proc q))
    (hk : k'.kpgdir = k.kpgdir) (hlive : (k.proc p).live) {fs : List Nat} {D : Set Nat}
    {added lost : Multiset Frame}
    (hbalance : k'.mach.kmem.free + (k'.proc p).owned + (added + lost) =
      k.mach.kmem.free + (k.proc p).owned + (k.proc p).pgdir.ppns fs)
    (hnodup : fs.Nodup)
    (hvalid : ∀ v ∈ fs, v < 0x80000 ∧ ((k.proc p).pgdir.entry v).p = true)
    (horigin : ∀ v x, k'.Maps p v x → x ∈ added ∨ k.Maps p v x ∧ v ∉ fs)
    (hlanded : ∀ x ∈ added, ∃ v, k'.Maps p v x)
    (hkept : ∀ v x, k.Maps p v x → v ∉ D → k'.Maps p v x) :
    Lib.Exchange k.holding k'.holding
      (fs.map fun v => ((p, v), ((k.proc p).pgdir.entry v).ppn)) {r | r.1 = p ∧ r.2 ∈ D}
      added lost := by
  have hkeys : (fs.map fun v => ((p, v), ((k.proc p).pgdir.entry v).ppn)).map Prod.fst =
      fs.map fun v => (p, v) := by simp
  refine ⟨?_, ?_, ?_, ?_, ?_, ?_⟩
  · have h := total_exchange hother hk _ _ hbalance
    rw [List.map_map, add_assoc]
    exact h
  · rw [hkeys]
    exact hnodup.map fun v w h => (Prod.ext_iff.mp h).2
  · intro e he
    obtain ⟨v, hv, rfl⟩ := List.mem_map.mp he
    exact ⟨hlive, (hvalid v hv).1, (hvalid v hv).2, rfl⟩
  · rintro ⟨q, v⟩ x hm
    rw [hkeys]
    by_cases hq : q = p
    · subst hq
      rcases horigin v x hm with hadd | ⟨hold, hnot⟩
      · exact Or.inl (mem_add.mpr (Or.inl hadd))
      · exact Or.inr ⟨(q, v), hold, by simpa using hnot⟩
    · refine Or.inr ⟨(q, v), Kernel.Maps.congr (hother q hq).symm hm, ?_⟩
      intro hmem
      obtain ⟨w, -, hw⟩ := List.mem_map.mp hmem
      exact hq (Prod.ext_iff.mp hw).1.symm
  · intro x hx
    obtain ⟨v, hv⟩ := hlanded x hx
    exact ⟨(p, v), hv⟩
  · rintro ⟨q, v⟩ x hm hn
    by_cases hq : q = p
    · subst hq
      exact hkept v x hm fun hd => hn ⟨rfl, hd⟩
    · exact Kernel.Maps.congr (hother q hq) hm

end

end Xv6
