import Xv6.RegionSet

/-!
What `getwmapinfo` reports. A program that reads the first `total_mmaps` entries sees the
regions in use exactly when these fill the first slots of the table. `wmap` takes the first
free slot, and `wunmap` frees a slot without moving the ones behind it.
-/

namespace Xv6

structure WmapInfo where
  totalMmaps : Int
  addr : Fin MAX_WMMAP_INFO → Nat
  length : Fin MAX_WMMAP_INFO → Int
  nLoadedPages : Fin MAX_WMMAP_INFO → Int

/-- `getwmapinfo`: what it stores for the caller. -/
def getwmapinfo (k : Kernel) (p : Fin NPROC) : WmapInfo where
  totalMmaps := (k.proc p).wmap.total
  addr := fun i => ((k.proc p).wmap.slot i).addr
  length := fun i => ((k.proc p).wmap.slot i).length
  nLoadedPages := fun i => ((k.proc p).wmap.slot i).nLoaded

/-- The entries a program reads that iterates over `i < total_mmaps`. -/
def WmapInfo.entries (info : WmapInfo) : List (Nat × Int × Int) :=
  ((List.finRange MAX_WMMAP_INFO).filter fun i => (i.val : Int) < info.totalMmaps).map
    fun i => (info.addr i, info.length i, info.nLoadedPages i)

def Wmap.regions (w : Wmap) : Multiset (Nat × Int × Int) :=
  w.active.val.map fun i => ((w.slot i).addr, (w.slot i).length, (w.slot i).nLoaded)

def Wmap.Packed (w : Wmap) : Prop :=
  ∃ n ≤ MAX_WMMAP_INFO, w.total = n ∧ ∀ i, i ∈ w.active ↔ i.val < n

/-- A call of process `p` with arguments from user code, or anything else that changes at most
the numbers of loaded pages in its table. -/
def ReportStep (p : Fin NPROC) (k : Kernel) : Option RegionCall → Kernel → Prop
  | some c, k' => SystemStep p k c k'
  | none, k' => (k'.proc p).wmap.unloaded = (k.proc p).wmap.unloaded

/-- A `wunmap` that finds a region finds the one in the last slot in use. -/
def RegionCall.TakesLast (k : Kernel) (p : Fin NPROC) : Option RegionCall → Prop
  | some (wunmap addr) => ∀ i, (k.proc p).wmap.startsAt addr = some i →
      ∀ j ∈ (k.proc p).wmap.active, j ≤ i
  | _ => True

section
variable {w w' : Wmap} {i : Fin MAX_WMMAP_INFO}

theorem Wmap.Packed.entries {k : Kernel} {p : Fin NPROC} (h : (k.proc p).wmap.Packed) :
    ((getwmapinfo k p).entries : Multiset (Nat × Int × Int)) = (k.proc p).wmap.regions := by
  obtain ⟨n, -, htotal, hslots⟩ := h
  have hactive : (k.proc p).wmap.active =
      Finset.univ.filter fun i => (i.val : Int) < (k.proc p).wmap.total := by
    ext i
    rw [hslots i, Finset.mem_filter, htotal]
    simp
  unfold WmapInfo.entries Wmap.regions
  rw [hactive]
  rfl

theorem Wmap.packed_unloaded : w.unloaded.Packed ↔ w.Packed := Iff.rfl

theorem Wmap.add_first {a : Nat} {l : Int} {fb : Bool} {fd : Int} (h : w.add a l fb fd = some w') :
    ∃ i, w' = w.update i ⟨a, l, 0, fb, fd⟩ (w.total + 1) ∧ i ∉ w.active ∧ ∀ j < i, j ∈ w.active := by
  unfold add at h
  split at h
  · cases h
  rw [findSpot_eq] at h
  split at h
  · rename_i i hs
    split at hs
    · cases hs
    replace hs := Option.some.inj hs
    obtain ⟨he, n, hn, hi, hbefore⟩ := List.find?_eq_some_iff_getElem.mp hs
    refine ⟨i, (Option.some.inj h).symm, notMem_active.mpr he, fun j hj => ?_⟩
    have hin : i.val = n := by rw [← hi, List.getElem_finRange]; rfl
    have hj' : j.val < n := by rw [← hin]; exact hj
    have hfree := hbefore j.val hj'
    rw [List.getElem_finRange] at hfree
    exact mem_active.mpr (by simpa using hfree)
  · cases h

theorem Wmap.Packed.add (h : w.Packed) {r : Region} (hr : r.isEmpty = false) (hi : i ∉ w.active)
    (hfirst : ∀ j < i, j ∈ w.active) : (w.update i r (w.total + 1)).Packed := by
  obtain ⟨n, hn, htotal, hslots⟩ := h
  obtain rfl : n = i.val := by
    rw [hslots] at hi
    by_contra hne
    have hlt : n < i.val := by omega
    have hj := (hslots ⟨n, by omega⟩).mp (hfirst ⟨n, by omega⟩ hlt)
    exact Nat.lt_irrefl n hj
  refine ⟨i.val + 1, i.isLt, ?_, fun j => ?_⟩
  · change w.total + 1 = _
    rw [htotal, Int.natCast_succ]
  rw [active_update_region hr, Finset.mem_insert, hslots, Fin.ext_iff]
  omega

theorem Wmap.Packed.drop (h : w.Packed) (hi : i ∈ w.active) (hlast : ∀ j ∈ w.active, j ≤ i) :
    (w.update i Region.empty (w.total - 1)).Packed := by
  obtain ⟨n, hn, htotal, hslots⟩ := h
  have hin := (hslots i).mp hi
  obtain rfl : n = i.val + 1 := by
    have hmax := hlast ⟨n - 1, by omega⟩ ((hslots _).mpr (by change n - 1 < n; omega))
    have hle : n - 1 ≤ i.val := hmax
    omega
  refine ⟨i.val, by omega, ?_, fun j => ?_⟩
  · change w.total - 1 = _
    rw [htotal]
    omega
  · rw [active_update_empty, Finset.mem_erase, hslots, ne_eq, Fin.ext_iff]
    omega

end

section
variable {k k' : Kernel} {p : Fin NPROC}

/-- One call keeps the regions in the first slots, unless it frees a slot in between. -/
theorem packed_reportStep {c : Option RegionCall} (hc : RegionCall.TakesLast k p c)
    (h : ReportStep p k c k') (hw : (k.proc p).wmap.Packed) : (k'.proc p).wmap.Packed := by
  cases c with
  | none =>
    rw [← Wmap.packed_unloaded, show (k'.proc p).wmap.unloaded = _ from h, Wmap.packed_unloaded]
    exact hw
  | some c =>
    obtain ⟨-, b, h⟩ := h
    cases c with
    | wmap addr length flags fd =>
      obtain ⟨⟨r, k1⟩, h, hk⟩ := Lib.bind_eq_ok.mp h
      cases hk
      rcases sysWmap_cases h with ⟨-, rfl⟩ | ⟨hlow, -, -, -, -, -, h⟩
      · exact hw
      obtain ⟨-, n, ⟨-, -, hsame⟩ | ⟨-, hadd⟩⟩ := wmap_spec h
      · rw [hsame]
        exact hw
      · obtain ⟨i, he, hi, hfirst⟩ := Wmap.add_first hadd
        rw [he]
        refine hw.add ?_ hi hfirst
        have hne : addr ≠ 0 := by omega
        simp [Region.isEmpty, hne]
    | wunmap addr =>
      simp only [RegionCall.system, sysWunmap] at h
      split at h
      · cases h
        exact hw
      rcases wunmap_cases h with ⟨-, -, rfl⟩ | ⟨-, -, -, rfl⟩ | ⟨-, i, k1, hs, hu, rfl⟩
      · exact hw
      · exact hw
      have hsame := (wmap_unmapPages hu).1
      split
      · simp only [Kernel.dropRegion, Kernel.proc_setProc_self, hsame]
        exact hw.drop (Wmap.startsAt_some hs).1 (hc i hs)
      · rw [hsame]
        exact hw

/-- In every run in which `wunmap` takes regions from the end, the first `total_mmaps` entries of
the report are the regions in use, each once. -/
theorem getwmapinfo_lists_regions {calls : List (Option RegionCall)}
    (hinit : (k.proc p).wmap = Wmap.init)
    (h : Lib.Run (Lib.When (fun k => RegionCall.TakesLast k p) (ReportStep p)) k calls k') :
    ((getwmapinfo k' p).entries : Multiset (Nat × Int × Int)) = (k'.proc p).wmap.regions := by
  have hpacked : (k'.proc p).wmap.Packed := by
    refine h.invariant (fun k => (k.proc p).wmap.Packed) ?_ ?_
    · rw [hinit]
      exact ⟨0, Nat.zero_le _, rfl, by simp⟩
    · exact fun s c t hs hstep => packed_reportStep hstep.1 hstep.2 hs
  exact hpacked.entries

end

theorem getwmapinfo_lists_two : ∃ k' : Kernel,
    (getwmapinfo k' 0).entries = [(0x60000000, 4096, 0), (0x60001000, 4096, 0)] ∧
    ((getwmapinfo k' 0).entries : Multiset (Nat × Int × Int)) = (k'.proc 0).wmap.regions := by
  refine ⟨_, ?_, @getwmapinfo_lists_regions Kernel.fresh _ 0
    [some (.wmap 0x60000000 4096 14 (-1)), some (.wmap 0x60001000 4096 14 (-1))] rfl
    ((Lib.Run.single ⟨trivial, by simp [RegionCall.Fits], true, rfl⟩).snoc
      ⟨trivial, by simp [RegionCall.Fits], true, rfl⟩)⟩
  rfl

/-- Two regions, of which the first is unmapped: the program reads the free slot and not the
region that is left. -/
theorem getwmapinfo_reports_free_slot : ∃ k' : Kernel,
    Lib.Run (ReportStep 0) Kernel.fresh [some (.wmap 0x60000000 4096 14 (-1)),
      some (.wmap 0x60001000 4096 14 (-1)), some (.wunmap 0x60000000)] k' ∧
    (k'.proc 0).wmap.regions = {(0x60001000, 4096, 0)} ∧
    (getwmapinfo k' 0).entries = [(0, -1, 0)] := by
  refine ⟨_, ((Lib.Run.single ⟨by simp [RegionCall.Fits], true, rfl⟩).snoc
    ⟨by simp [RegionCall.Fits], true, rfl⟩).snoc ⟨by simp [RegionCall.Fits], true, rfl⟩, ?_, ?_⟩
  · decide
  · decide

end Xv6
