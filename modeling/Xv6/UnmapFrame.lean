import Xv6.CopyExact

/-!
What a successful `wunmap` of a forked process leaves alone. The frames of its regions are
those of its parent and are not freed, so no byte of memory changes; in its own address
space the pages of the region go, and nothing else.
-/

namespace Xv6

section
variable {k k' : Kernel} {p : Fin NPROC} {addr : Nat} {i : Fin MAX_WMMAP_INFO}

theorem Wmap.Tidy.first_page {w : Wmap} (h : w.Tidy) (hi : i ∈ w.active) :
    (w.slot i).addr / 4096 ∈ (w.slot i).pages := by
  have hal := h.aligned i hi
  obtain ⟨-, hpos, hend⟩ := h.window i hi
  change 0 < (w.slot i).length at hpos
  change ((w.slot i).addr : Int) + (w.slot i).length ≤ 0x80000000 at hend
  rw [(h.ok i hi).mem_pages]
  omega

theorem Wmap.Tidy.startsAt {w : Wmap} (h : w.Tidy) (hi : i ∈ w.active) :
    w.startsAt (w.slot i).addr = some i := by
  cases hs : w.startsAt (w.slot i).addr with
  | none => exact (Wmap.startsAt_none hs hi rfl).elim
  | some j =>
    obtain ⟨hj, haddr⟩ := Wmap.startsAt_some hs
    by_contra hne
    have hij : j ≠ i := fun he => hne (congrArg some he)
    refine h.apart j hj i hi hij _ (h.first_page hj) ?_
    rw [haddr]
    exact h.first_page hi

theorem Wmap.Tidy.total_ne_zero {w : Wmap} (h : w.Tidy) (hi : i ∈ w.active) : w.total ≠ 0 := by
  have := Finset.card_pos.mpr ⟨i, hi⟩
  have := h.total
  omega

/-- Present pages of regions have been counted. -/
def Proc.Counted (x : Proc) : Prop :=
  ∀ i ∈ x.wmap.active, ∀ v ∈ (x.wmap.slot i).pages, (x.pgdir.entry v).p = true →
    0 < (x.wmap.slot i).nLoaded

/-- Region `i` of process `p` is gone, with its pages and nothing else of its address space. -/
structure RegionGone (k : Kernel) (p : Fin NPROC) (i : Fin MAX_WMMAP_INFO) (k' : Kernel) : Prop where
  pages : ∀ v ∈ ((k.proc p).wmap.slot i).pages, ((k'.proc p).pgdir.entry v).p = false
  entry : ∀ v, v ∉ ((k.proc p).wmap.slot i).pages →
    (k'.proc p).pgdir.entry v = (k.proc p).pgdir.entry v
  slot : (k'.proc p).wmap.slot i = Region.empty
  others : ∀ j, j ≠ i → (k'.proc p).wmap.slot j = (k.proc p).wmap.slot j
  total : (k'.proc p).wmap.total = (k.proc p).wmap.total - 1

theorem wunmap_done (htidy : (k.proc p).wmap.Tidy) (hcounted : (k.proc p).Counted)
    (hi : i ∈ (k.proc p).wmap.active) (haddr : ((k.proc p).wmap.slot i).addr = addr)
    (h : wunmap k p addr = .ok (true, k')) :
    RegionGone k p i k' ∧ ∃ done, Unmapped k p done k' := by
  subst haddr
  rcases wunmap_cases h with ⟨h0, -⟩ | ⟨-, hnone, -⟩ | ⟨-, j, k1, hs, hu, hk⟩
  · exact (htidy.total_ne_zero hi h0).elim
  · rw [htidy.startsAt hi] at hnone
    cases hnone
  rw [htidy.startsAt hi] at hs
  cases hs
  have hok := htidy.ok i hi
  obtain ⟨done, hun, hsub, hall, -⟩ := unmapPages_spec hok.aligned hok.bound hu
  obtain ⟨hwmap, -⟩ := wmap_unmapPages hu
  rw [if_pos rfl] at hk
  subst hk
  have hdrop := hun.drop i
  have htable : ((k1.dropRegion p i).proc p).wmap =
      (k.proc p).wmap.update i Region.empty ((k.proc p).wmap.total - 1) := by
    rw [Kernel.dropRegion, Kernel.proc_setProc_self, hwmap]
  refine ⟨⟨fun v hv => ?_, fun v hv => ?_, ?_, fun j hj => ?_, ?_⟩, done, hdrop⟩
  · by_cases hd : v ∈ done
    · exact hdrop.cleared.cleared v hd
    · rw [hdrop.cleared.kept v hd]
      by_contra hp
      have hp := Bool.not_eq_false _ ▸ hp
      exact hd (hall (hcounted i hi v hv hp) rfl v hv hp)
  · exact hdrop.cleared.kept v fun hd => hv (hsub v hd)
  · rw [htable]
    exact Function.update_self ..
  · rw [htable]
    exact Function.update_of_ne hj ..
  · rw [htable]
    rfl

/-- A successful `wunmap` of a process that `fork` has made. -/
theorem wunmap_frame (hchild : (k.proc p).wmap.isChild = true) (htidy : (k.proc p).wmap.Tidy)
    (hcounted : (k.proc p).Counted) (hi : i ∈ (k.proc p).wmap.active)
    (haddr : ((k.proc p).wmap.slot i).addr = addr) (h : wunmap k p addr = .ok (true, k')) :
    RegionGone k p i k' ∧ (∀ q, q ≠ p → k'.proc q = k.proc q) ∧ k'.mach.mem = k.mach.mem := by
  obtain ⟨hgone, done, hun⟩ := wunmap_done htidy hcounted hi haddr h
  refine ⟨hgone, fun q hq => hun.proc_ne hq, ?_⟩
  have hfreed := hun.freed
  rw [if_pos hchild] at hfreed
  funext x
  exact hfreed.mem x (Multiset.notMem_zero x)

end

/-- The process of `Kernel.onePage`, as a child. -/
def Kernel.childPage : Kernel :=
  Kernel.onePage.setProc 0 { Kernel.onePage.proc 0 with
    wmap := { Wmap.loadedPage with isChild := true } }

theorem wunmap_frame_onePage : ∃ k', wunmap Kernel.childPage 0 0x60000000 = .ok (true, k') ∧
    RegionGone Kernel.childPage 0 0 k' ∧ k'.mach.mem = Kernel.childPage.mach.mem := by
  have hself : (Kernel.childPage.proc 0).wmap = { Wmap.loadedPage with isChild := true } :=
    congrArg Proc.wmap (Kernel.proc_setProc_self ..)
  have htidy : (Kernel.childPage.proc 0).wmap.Tidy := by
    obtain ⟨h1, h2, h3, h4⟩ := Wmap.tidy_loadedPage
    rw [hself]
    exact ⟨h1, h2, h3, h4⟩
  have hcounted : (Kernel.childPage.proc 0).Counted := by
    intro i hi v _ _
    have hi : i ∈ Wmap.loadedPage.active := by rwa [hself] at hi
    rw [Wmap.active_loadedPage, Finset.mem_singleton] at hi
    subst hi
    decide
  have hcall : ∃ k', wunmap Kernel.childPage 0 0x60000000 = .ok (true, k') := ⟨_, rfl⟩
  obtain ⟨k', hcall⟩ := hcall
  obtain ⟨hgone, -, hmem⟩ := wunmap_frame (i := 0) rfl htidy hcounted (by decide) rfl hcall
  exact ⟨k', hcall, hgone, hmem⟩

end Xv6
