import Xv6.Release
import Xv6.RegionTable

/-!
What `dellocateAndUnmap` and `wunmap` do to a kernel. The pages that were given up are
a list `done`: all present pages of the range when the call succeeds, some of them when
a write-back fails. Their frames are freed when the process is not a forked one.
-/

namespace Xv6

open Lib

variable {i : Fin MAX_WMMAP_INFO} {k k' : Kernel} {p : Fin NPROC} {addr bound v : Nat} {b go : Bool}
  {done vs : List Nat} {w : Wmap}

def PgDir.ppns (d : PgDir) (vs : List Nat) : List Frame := vs.map fun v => (d.entry v).ppn

/-- The kernel after process `p` gave up the present pages `done` and perhaps some
regions. -/
structure Unmapped (k : Kernel) (p : Fin NPROC) (done : List Nat) (k' : Kernel) : Prop where
  eq : k' = { k with mach := k'.mach, fs := k'.fs }.setProc p
    { k.proc p with pgdir := (k'.proc p).pgdir, wmap := (k'.proc p).wmap }
  freed : Freed k.mach (if (k.proc p).wmap.isChild then 0 else (k.proc p).pgdir.ppns done) k'.mach
  cleared : Cleared (k.proc p).pgdir (· ∈ done) (k'.proc p).pgdir
  present : ∀ v ∈ done, ((k.proc p).pgdir.entry v).p = true
  nodup : done.Nodup
  isChild : (k'.proc p).wmap.isChild = (k.proc p).wmap.isChild
  slot : ∀ i, (k'.proc p).wmap.slot i = (k.proc p).wmap.slot i ∨
    (k'.proc p).wmap.slot i = Region.empty

section
variable {k k' : Kernel} {p : Fin NPROC} {done : List Nat}

section
variable (h : Unmapped k p done k')
include h

theorem Unmapped.proc_self : k'.proc p =
    { k.proc p with pgdir := (k'.proc p).pgdir, wmap := (k'.proc p).wmap } := by
  conv_lhs => rw [h.eq]
  simp

theorem Unmapped.proc_ne {q : Fin NPROC} (hq : q ≠ p) : k'.proc q = k.proc q := by
  rw [h.eq, Kernel.proc_setProc_ne hq]

theorem Unmapped.initproc : k'.initproc = k.initproc :=
  (congrArg Kernel.initproc h.eq).trans rfl

theorem Unmapped.kpgdir : k'.kpgdir = k.kpgdir :=
  (congrArg Kernel.kpgdir h.eq).trans rfl

theorem Unmapped.loaded : k'.loaded = k.loaded :=
  (congrArg Kernel.loaded h.eq).trans rfl

theorem Unmapped.active (hi : i ∈ (k'.proc p).wmap.active) :
    i ∈ (k.proc p).wmap.active ∧ (k'.proc p).wmap.slot i = (k.proc p).wmap.slot i := by
  rcases h.slot i with he | he
  · rw [Wmap.mem_active, he] at hi
    exact ⟨Wmap.mem_active.mpr hi, he⟩
  · rw [Wmap.mem_active, he] at hi
    cases hi

end

/-- Nothing was given up; a failed write may still have moved a file offset. -/
theorem Unmapped.files (k : Kernel) (p : Fin NPROC) (fs : Files) :
    Unmapped k p [] { k with fs := fs } := by
  refine ⟨by simp [Kernel.setProc], ?_, (Cleared.refl _).congr (by simp) (by simp), by simp,
    by simp, rfl, fun _ => Or.inl rfl⟩
  simp only [PgDir.ppns, List.map_nil, Multiset.coe_nil, ite_self]
  exact Freed.refl k.mach

theorem Unmapped.refl (k : Kernel) (p : Fin NPROC) : Unmapped k p [] k := Unmapped.files k p k.fs

theorem Unmapped.trans {k1 k2 k3 : Kernel} {ws : List Nat} (h : Unmapped k1 p vs k2)
    (h' : Unmapped k2 p ws k3) : Unmapped k1 p (vs ++ ws) k3 := by
  have disjoint : ∀ w ∈ ws, w ∉ vs := by
    intro w hw hv
    have := h'.present w hw
    rw [h.cleared.cleared w hv] at this
    exact Bool.false_ne_true this
  have kept : ∀ w ∈ ws, (k2.proc p).pgdir.entry w = (k1.proc p).pgdir.entry w :=
    fun w hw => h.cleared.kept w (disjoint w hw)
  refine ⟨?_, ?_, ?_, ?_, ?_, h'.isChild.trans h.isChild, ?_⟩
  · conv_lhs => rw [h'.eq, h.eq]
    simp [Kernel.setProc]
  · have hf := h'.freed
    have hppns : (k2.proc p).pgdir.ppns ws = (k1.proc p).pgdir.ppns ws :=
      List.map_congr_left fun w hw => by rw [kept w hw]
    rw [h.isChild, hppns] at hf
    have := h.freed.trans hf
    split at this
    · rename_i hc
      rw [if_pos hc]
      simpa using this
    · rename_i hc
      rw [if_neg hc, PgDir.ppns, List.map_append, ← Multiset.coe_add]
      exact this
  · exact (h.cleared.trans h'.cleared).congr (by simp) fun v hv => Or.inl (by simpa using hv)
  · intro v hv
    rcases List.mem_append.mp hv with hv | hv
    · exact h.present v hv
    · rw [← kept v hv]
      exact h'.present v hv
  · exact h.nodup.append h'.nodup fun v hv hw => disjoint v hw hv
  · intro i
    rcases h'.slot i with he | he
    · rw [he]
      exact h.slot i
    · exact Or.inr he

end

/-- A turn of the page loop leaves the region table alone and fails for file-backed
regions only. -/
theorem wmap_unmapPage {a : Nat} {pte : Pte} (h : unmapPage p i k a pte = .ok (k', go)) :
    (k'.proc p).wmap = (k.proc p).wmap ∧
      (((k.proc p).wmap.slot i).fileBacked = false → go = true) := by
  unfold unmapPage at h
  split at h
  · cases h
  obtain ⟨⟨ok, fs⟩, hw, h⟩ := bind_eq_ok.mp h
  dsimp only at h
  split at h
  · obtain ⟨m, -, h⟩ := bind_eq_ok.mp h
    cases h
    exact ⟨by simp [Kernel.setProc], fun _ => rfl⟩
  rename_i hok
  cases h
  refine ⟨rfl, fun hfb => ?_⟩
  simp only [writeBack, hfb] at hw
  cases hw
  exact (hok rfl).elim

theorem unmapPage_spec (hv : v < 0x100000) (hp : ((k.proc p).pgdir.entry v).p = true)
    (h : unmapPage p i k (v * 4096) ((k.proc p).pgdir.entry v) = .ok (k', go)) :
    Unmapped k p (if go then [v] else []) k' := by
  unfold unmapPage at h
  split at h
  · cases h
  obtain ⟨⟨ok, fs⟩, hw, h⟩ := bind_eq_ok.mp h
  dsimp only at h
  split at h
  · obtain ⟨m, hm, h⟩ := bind_eq_ok.mp h
    cases h
    refine ⟨by simp [Kernel.setProc], ?_, ?_, by simpa using hp, by simp, by simp,
      fun _ => Or.inl (by simp)⟩
    · simpa [PgDir.ppns] using kfreeUnless_spec hm
    · simpa using Cleared.setPte hv hp
  · cases h
    exact Unmapped.files k p fs

theorem visit_unmap_spec (hvs : ∀ v ∈ vs, v < 0x100000)
    (h : visit (fun k => (k.proc p).pgdir) (unmapPage p i) vs k = .ok (k', go)) :
    ∃ done, Unmapped k p done k' ∧ (∀ v ∈ done, v ∈ vs) ∧
      (go = true → ∀ v ∈ vs, ((k.proc p).pgdir.entry v).p = true → v ∈ done) := by
  induction vs generalizing k with
  | nil =>
    cases h
    exact ⟨[], Unmapped.refl k' p, by simp, by simp⟩
  | cons v vs ih =>
    have hlts : ∀ u ∈ vs, u < 0x100000 := fun u hu => hvs u (List.mem_cons_of_mem v hu)
    rw [visit] at h
    split at h
    · rename_i hp
      obtain ⟨⟨k1, go1⟩, hb, h⟩ := bind_eq_ok.mp h
      have hu := unmapPage_spec (hvs v (by simp)) hp hb
      dsimp only at h
      split at h
      · rename_i hgo1
        rw [if_pos hgo1] at hu
        obtain ⟨done, hu', hsub, hall⟩ := ih hlts h
        refine ⟨v :: done, hu.trans hu', ?_, ?_⟩
        · intro u hd
          rcases List.mem_cons.mp hd with rfl | hd
          · simp
          · exact List.mem_cons_of_mem v (hsub u hd)
        · intro hgo u hu'' hpu
          by_cases huv : u = v
          · simp [huv]
          · refine List.mem_cons_of_mem v (hall hgo u ?_ ?_)
            · exact (List.mem_cons.mp hu'').resolve_left huv
            · rw [hu.cleared.kept u (by simpa using huv)]
              exact hpu
      · rename_i hgo1
        cases h
        rw [if_neg hgo1] at hu
        exact ⟨[], hu, by simp, by simp⟩
    · rename_i hp
      obtain ⟨done, hu, hsub, hall⟩ := ih hlts h
      refine ⟨done, hu, fun u hd => List.mem_cons_of_mem v (hsub u hd), ?_⟩
      intro hgo u hu' hpu
      rcases List.mem_cons.mp hu' with rfl | hu'
      · exact (hp hpu).elim
      · exact hall hgo u hu' hpu

/-- The pages of the byte range from `addr` to `bound`. -/
def pageRange (addr bound : Nat) : List Nat := List.range' (addr / 4096) (pagesTo addr bound)

theorem mem_pageRange (h : addr % 4096 = 0) :
    v ∈ pageRange addr bound ↔ addr ≤ v * 4096 ∧ v * 4096 < bound := by
  unfold pageRange pagesTo
  rw [List.mem_range'_1]
  omega

/-- The first page of the kernel half maps physical page 0, which no code frees. -/
def PgDir.KernelBase (d : PgDir) : Prop := (d.entry 0x80000).p = true ∧ (d.entry 0x80000).ppn = 0

theorem Unmapped.kernelBase (h : Unmapped k p done k') (hb : (k.proc p).pgdir.KernelBase)
    (hd : ∀ v ∈ done, v < 0x80000) : (k'.proc p).pgdir.KernelBase := by
  have hk := h.cleared.kept 0x80000 fun hv => by have := hd _ hv; omega
  unfold PgDir.KernelBase
  rw [hk]
  exact hb

theorem unmapPages_spec (hal : addr % 4096 = 0) (hbound : bound ≤ 0x80000000)
    (h : unmapPages k p addr bound i = .ok (k', go)) :
    ∃ done, Unmapped k p done k' ∧ (∀ v ∈ done, v ∈ pageRange addr bound) ∧
      (0 < ((k.proc p).wmap.slot i).nLoaded → go = true → ∀ v ∈ pageRange addr bound,
        ((k.proc p).pgdir.entry v).p = true → v ∈ done) ∧
      (((k.proc p).wmap.slot i).nLoaded ≤ 0 → done = []) := by
  unfold unmapPages at h
  split at h
  · rename_i hn
    rw [sweep_eq_visit (by omega) _ _ _ hal (by omega)] at h
    have hlt : ∀ v ∈ pageRange addr bound, v < 0x100000 := by
      intro v hv
      have := (mem_pageRange hal).mp hv
      omega
    obtain ⟨done, hu, hsub, hall⟩ := visit_unmap_spec hlt h
    exact ⟨done, hu, hsub, fun _ => hall, fun hn' => by omega⟩
  · rename_i hn
    cases h
    exact ⟨[], Unmapped.refl k p, by simp, fun hn' => (hn hn').elim, fun _ => rfl⟩

/-- The page loop of `dellocateAndUnmap` with a bound in the kernel half: it can only end
at a failed write-back. -/
theorem unmapPages_kernel (hal : addr % 4096 = 0) (ha : addr ≤ 0x80000000)
    (hbound : 0x80000000 < bound) (hbase : (k.proc p).pgdir.KernelBase)
    (h : unmapPages k p addr bound i = .ok (k', go)) :
    ∃ done, Unmapped k p done k' ∧ (∀ v ∈ done, v ∈ pageRange addr 0x80000000) ∧
      (((k.proc p).wmap.slot i).nLoaded ≤ 0 → done = []) ∧
      (go = true → ((k.proc p).wmap.slot i).nLoaded ≤ 0) := by
  unfold unmapPages at h
  split at h
  · rename_i hn
    have hlt : ∀ v ∈ pageRange addr 0x80000000, v < 0x100000 := by
      intro v hv
      have := (mem_pageRange hal).mp hv
      omega
    have hkeep : ∀ (s : Kernel) v s' go, (s.proc p).pgdir.KernelBase → v * 4096 < 0x80000000 →
        ((s.proc p).pgdir.entry v).p = true →
        unmapPage p i s (v * 4096) ((s.proc p).pgdir.entry v) = .ok (s', go) →
        (s'.proc p).pgdir.KernelBase := by
      intro s v s' go hs hv hp hb
      refine (unmapPage_spec (by omega) hp hb).kernelBase hs ?_
      intro u hu
      split at hu
      · rw [List.mem_singleton.mp hu]
        omega
      · simp at hu
    have hend : ∀ s : Kernel, (s.proc p).pgdir.KernelBase → ∃ pte,
        (s.proc p).pgdir.walk 0x80000000 = some pte ∧ pte.p = true ∧
        ∀ r, unmapPage p i s 0x80000000 pte ≠ .ok r := by
      rintro s ⟨hp, hz⟩
      refine ⟨(s.proc p).pgdir.entry 0x80000, ?_, hp, ?_⟩
      · exact PgDir.walk_of_present (show 0x80000000 < 0x100000000 by omega) hp
      · intro r hr
        rw [unmapPage, if_pos hz] at hr
        cases hr
    obtain ⟨rfl, hv⟩ := sweep_stops (by omega) (by omega) hbound hkeep hend hal ha hbase h
    obtain ⟨done, hu, hsub, -⟩ := visit_unmap_spec hlt hv
    exact ⟨done, hu, hsub, fun hn' => by omega, by simp⟩
  · rename_i hn
    cases h
    exact ⟨[], Unmapped.refl k p, by simp, fun _ => rfl, fun _ => by omega⟩

theorem wmap_unmapPages (h : unmapPages k p addr bound i = .ok (k', go)) :
    (k'.proc p).wmap = (k.proc p).wmap ∧
      (((k.proc p).wmap.slot i).fileBacked = false → go = true) := by
  unfold unmapPages at h
  split at h
  · refine sweep_rule (P := fun s : Kernel => (s.proc p).wmap = (k.proc p).wmap)
      (Q := fun s go => (s.proc p).wmap = (k.proc p).wmap ∧
        (((k.proc p).wmap.slot i).fileBacked = false → go = true))
      (fun s hs => ⟨hs, fun _ => rfl⟩) ?_ ?_ rfl h
    · intro s a pte s' hs hb
      exact (wmap_unmapPage hb).1.trans hs
    · intro s a pte s' hs hb
      obtain ⟨hsame, hanon⟩ := wmap_unmapPage hb
      rw [hs] at hsame hanon
      exact ⟨hsame, hanon⟩
  · cases h
    exact ⟨rfl, fun _ => rfl⟩

def Kernel.dropRegion (k : Kernel) (p : Fin NPROC) (i : Fin MAX_WMMAP_INFO) : Kernel :=
  k.setProc p { k.proc p with
    wmap := (k.proc p).wmap.update i Region.empty ((k.proc p).wmap.total - 1) }

theorem Unmapped.drop (h : Unmapped k p done k') (i : Fin MAX_WMMAP_INFO) :
    Unmapped k p done (k'.dropRegion p i) := by
  refine ⟨?_, h.freed, ?_, h.present, h.nodup, ?_, ?_⟩
  · conv_lhs => rw [Kernel.dropRegion, h.eq]
    simp [Kernel.dropRegion, Kernel.setProc]
  · simpa [Kernel.dropRegion] using h.cleared
  · simpa [Kernel.dropRegion, Wmap.update] using h.isChild
  · intro j
    by_cases hj : j = i
    · subst hj
      simp [Kernel.dropRegion]
    · simpa [Kernel.dropRegion, Wmap.slot_update_ne, hj] using h.slot j

theorem dellocateAndUnmap_cases {length : Int}
    (h : dellocateAndUnmap k p addr length i = .ok (b, k')) :
    ∃ k1, unmapPages k p addr (addInt addr length) i = .ok (k1, b) ∧
      k' = if b then k1.dropRegion p i else k1 := by
  obtain ⟨⟨k1, go⟩, hu, h⟩ := bind_eq_ok.mp h
  dsimp only at h
  split at h
  · rename_i hgo
    cases h
    exact ⟨k1, by rw [hu, hgo], rfl⟩
  · rename_i hgo
    cases h
    exact ⟨k', by rw [hu, Bool.eq_false_iff.mpr hgo], rfl⟩

theorem Wmap.startsAt_some (h : w.startsAt addr = some i) : i ∈ w.active ∧ (w.slot i).addr = addr := by
  have := List.find?_some h
  simpa [mem_active] using this

theorem Wmap.startsAt_none (h : w.startsAt addr = none) (hi : i ∈ w.active) :
    (w.slot i).addr ≠ addr := by
  have := List.find?_eq_none.mp h i (List.mem_finRange i)
  rw [mem_active] at hi
  simpa [hi] using this

theorem wunmap_cases (h : wunmap k p addr = .ok (b, k')) :
    ((k.proc p).wmap.total = 0 ∧ b = true ∧ k' = k) ∨
    ((k.proc p).wmap.total ≠ 0 ∧ (k.proc p).wmap.startsAt addr = none ∧ b = false ∧ k' = k) ∨
    ((k.proc p).wmap.total ≠ 0 ∧ ∃ i k1, (k.proc p).wmap.startsAt addr = some i ∧
      unmapPages k p addr (addInt addr ((k.proc p).wmap.slot i).length) i = .ok (k1, b) ∧
      k' = if b then k1.dropRegion p i else k1) := by
  unfold wunmap at h
  split at h
  · rename_i ht
    cases h
    exact Or.inl ⟨ht, rfl, rfl⟩
  rename_i ht
  split at h
  · rename_i hs
    cases h
    exact Or.inr (Or.inl ⟨ht, hs, rfl, rfl⟩)
  · rename_i i hs
    obtain ⟨k1, hu, hk⟩ := dellocateAndUnmap_cases h
    exact Or.inr (Or.inr ⟨ht, i, k1, hs, hu, hk⟩)

end Xv6
