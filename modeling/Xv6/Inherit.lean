import Xv6.Share

/-!
`copyWmap`: the child gets the region table of the parent, and for each page of a region
that is present in the parent an entry with the same frame and flags. No count changes.
-/

namespace Xv6

variable {r : Region} {d parent : PgDir} {vs ws : List Nat} {v : Nat} {i : Fin MAX_WMMAP_INFO}

/-- The directory `d` after the pages `done` of `parent` were entered in it. -/
structure Inherited (parent : PgDir) (a : Kmem) (d : PgDir) (done : List Nat) (a' : Kmem)
    (d' : PgDir) : Prop where
  extend : Extends a d a' d'
  present : ∀ v ∈ done, (parent.entry v).p = true
  absent : ∀ v ∈ done, (d.entry v).p = false
  entry : ∀ v, d'.entry v = if v ∈ done then parent.entry v else d.entry v

theorem Inherited.refl (parent : PgDir) (a : Kmem) (d : PgDir) : Inherited parent a d [] a d :=
  ⟨Extends.refl a d, by simp, by simp, by simp⟩

theorem Inherited.trans {a1 a2 a3 : Kmem} {d1 d2 d3 : PgDir} (h : Inherited parent a1 d1 vs a2 d2)
    (k : Inherited parent a2 d2 ws a3 d3) : Inherited parent a1 d1 (vs ++ ws) a3 d3 := by
  refine ⟨h.extend.trans k.extend, ?_, ?_, ?_⟩
  · intro v hv
    rcases List.mem_append.mp hv with hv | hv
    · exact h.present v hv
    · exact k.present v hv
  · intro v hv
    by_cases hvs : v ∈ vs
    · exact h.absent v hvs
    · have := k.absent v ((List.mem_append.mp hv).resolve_left hvs)
      rwa [h.entry, if_neg hvs] at this
  · intro v
    rw [k.entry, h.entry]
    by_cases h1 : v ∈ vs <;> by_cases h2 : v ∈ ws <;> simp [h1, h2]

theorem Pte.make_toFlags (e : Pte) (h : e.p = true) : Pte.make e.ppn e.toFlags = e := by
  obtain ⟨⟨p, w, u, cow⟩, ppn⟩ := e
  simp_all [make]

theorem copyRegion_spec {n a : Nat} {k k' : Kmem} {d' : PgDir} {b : Bool} (hal : a % 4096 = 0)
    (hfit : n = 0 ∨ a / 4096 + n ≤ 0x80000) (h : copyRegion parent n k d a = .ok (b, d', k')) :
    ∃ done, Inherited parent k d done k' d' ∧
      (∀ v ∈ done, v ∈ List.range' (a / 4096) n) ∧
      k'.failed = (k.failed || !b) ∧
      (b = true → ∀ v ∈ List.range' (a / 4096) n, (parent.entry v).p = true → v ∈ done) ∧
      (b = false → k'.freelist = []) := by
  induction n generalizing k d a with
  | zero =>
    cases h
    exact ⟨[], Inherited.refl _ _ _, by simp, by simp, by simp, by simp⟩
  | succ n ih =>
    have hnext : (a + 4096) % 0x100000000 = a + 4096 := by omega
    have hpage : (a + 4096) / 4096 = a / 4096 + 1 := by omega
    have skip : (parent.entry (a / 4096)).p = false →
        copyRegion parent n k d (a + 4096) = .ok (b, d', k') →
        ∃ done, Inherited parent k d done k' d' ∧
          (∀ v ∈ done, v ∈ List.range' (a / 4096) (n + 1)) ∧
          k'.failed = (k.failed || !b) ∧
          (b = true → ∀ v ∈ List.range' (a / 4096) (n + 1), (parent.entry v).p = true →
            v ∈ done) ∧
          (b = false → k'.freelist = []) := by
      intro hp h
      obtain ⟨done, hi, hsub, hf, hall, hshort⟩ := ih (by omega) (by omega) h
      rw [hpage] at hsub hall
      refine ⟨done, hi, ?_, hf, ?_, hshort⟩
      · intro v hv
        rw [List.range'_succ]
        exact List.mem_cons_of_mem _ (hsub v hv)
      intro hb v hv hpv
      rw [List.range'_succ, List.mem_cons] at hv
      rcases hv with rfl | hv
      · rw [hp] at hpv
        cases hpv
      · exact hall hb v hv hpv
    rw [copyRegion, hnext] at h
    split at h
    · rename_i hw
      refine skip ?_ h
      rw [PgDir.entry_of_walk_none (by omega) hw]
      rfl
    rename_i pte hw
    have he := PgDir.entry_of_walk (by omega) hw
    split at h
    · rename_i hp
      split at h
      · cases h
      obtain ⟨⟨ok, d1, k1⟩, hm, h⟩ := Lib.bind_eq_ok.mp h
      dsimp only at h
      split at h
      · rename_i hok
        subst hok
        obtain ⟨hx, hf, habs, hent⟩ := mappages_page_ok (by omega) hal hm
        have hone : Inherited parent k d [a / 4096] k1 d1 := by
          refine ⟨hx, by simpa [he] using hp, by simpa using habs, ?_⟩
          intro v
          rw [hent, Pte.make_toFlags pte hp]
          by_cases hv : v = a / 4096 <;> simp [hv, he]
        obtain ⟨done, hi, hsub, hf', hall, hshort⟩ := ih (by omega) (by omega) h
        rw [hpage] at hsub hall
        refine ⟨a / 4096 :: done, hone.trans hi, ?_, by rw [hf', hf], ?_, hshort⟩
        · intro v hv
          rw [List.range'_succ]
          rcases List.mem_cons.mp hv with rfl | hv
          · simp
          · exact List.mem_cons_of_mem _ (hsub v hv)
        · intro hb v hv hpv
          rw [List.range'_succ, List.mem_cons] at hv
          rcases hv with rfl | hv
          · simp
          · exact List.mem_cons_of_mem _ (hall hb v hv hpv)
      · rename_i hok
        rw [Bool.eq_false_iff.mpr hok] at hm
        obtain ⟨hshort, -, rfl, rfl⟩ := mappages_page_fail (by omega) hal hm
        cases h
        exact ⟨[], ⟨⟨rfl, rfl, fun _ h => h⟩, by simp, by simp, by simp⟩, by simp, by simp,
          by simp, fun _ => hshort⟩
    · rename_i hp
      refine skip ?_ h
      rw [he]
      simpa using hp

/-- A region that `sys_wmap` accepts: its range lies in the window, or it wraps around the
top of the address space and has no page that any code visits. -/
structure Region.Ok (r : Region) : Prop where
  aligned : r.addr % 4096 = 0
  above : 0x60000000 ≤ r.addr
  addr : r.addr < 0x100000000
  positive : 0 < r.length
  length : r.length < 0x80000000
  range : (r.addr : Int) + r.length ≤ 0x80000000 ∨ 0x100000000 ≤ (r.addr : Int) + r.length

def Region.pages (r : Region) : List Nat := pageRange r.addr (addInt r.addr r.length)

def Wmap.Ok (w : Wmap) : Prop := ∀ i ∈ w.active, (w.slot i).Ok

theorem Region.Ok.bound (h : r.Ok) : addInt r.addr r.length ≤ 0x80000000 := by
  obtain ⟨h1, h2, h3, h4, h5, h6⟩ := h
  unfold addInt
  omega

theorem Region.Ok.mem_pages (h : r.Ok) :
    v ∈ r.pages ↔ r.addr ≤ v * 4096 ∧ ((v * 4096 : Nat) : Int) < r.addr + r.length ∧
      (r.addr : Int) + r.length ≤ 0x80000000 := by
  obtain ⟨h1, h2, h3, h4, h5, h6⟩ := h
  rw [pages, mem_pageRange h1]
  unfold addInt
  omega

theorem Region.Ok.pages_window (h : r.Ok) (hv : v ∈ r.pages) : 0x60000 ≤ v ∧ v < 0x80000 := by
  have := h.mem_pages.mp hv
  have := h.above
  omega

/-- The range of `copyWmap`, with the length rounded up, has the same pages. -/
theorem Region.Ok.copyPages (h : r.Ok) :
    pagesTo r.addr ((r.addr + pgroundup (addInt 0 r.length)) % 0x100000000) =
      pagesTo r.addr (addInt r.addr r.length) := by
  obtain ⟨h1, h2, h3, h4, h5, h6⟩ := h
  unfold pagesTo pgroundup addInt
  omega

theorem Region.Ok.pages_fit (h : r.Ok) : pagesTo r.addr (addInt r.addr r.length) = 0 ∨
      r.addr / 4096 + pagesTo r.addr (addInt r.addr r.length) ≤ 0x80000 := by
  have := h.bound
  have := h.aligned
  unfold pagesTo
  omega

/-- The kernel after `copyWmap` went through the slots `is`; `b` says whether it got to
the end. -/
structure CopiedSlots (k : Kernel) (parent child : Fin NPROC) (is : List (Fin MAX_WMMAP_INFO))
    (b : Bool) (k' : Kernel) (done : List Nat) : Prop where
  eq : k' = { k with mach := { k.mach with kmem := k'.mach.kmem } }.setProc child
    { k.proc child with pgdir := (k'.proc child).pgdir, wmap := (k'.proc child).wmap }
  isChild : (k'.proc child).wmap.isChild = (k.proc child).wmap.isChild
  failed : k'.mach.kmem.failed = (k.mach.kmem.failed || !b)
  short : b = false → k'.mach.kmem.freelist = []
  inherited : Inherited (k.proc parent).pgdir k.mach.kmem (k.proc child).pgdir done k'.mach.kmem
    (k'.proc child).pgdir
  pages : ∀ v ∈ done, ∃ i ∈ (k.proc parent).wmap.active, v ∈ ((k.proc parent).wmap.slot i).pages
  all : b = true → ∀ i ∈ is, i ∈ (k.proc parent).wmap.active →
    ∀ v ∈ ((k.proc parent).wmap.slot i).pages, ((k.proc parent).pgdir.entry v).p = true → v ∈ done
  slot : b = true → ∀ i, (k'.proc child).wmap.slot i =
    if i ∈ is ∧ i ∈ (k.proc parent).wmap.active then (k.proc parent).wmap.slot i
    else (k.proc child).wmap.slot i
  total : b = true → (k'.proc child).wmap.total =
    if ∃ i ∈ is, i ∈ (k.proc parent).wmap.active then (k.proc parent).wmap.total
    else (k.proc child).wmap.total

section
variable {parent child : Fin NPROC} {is : List (Fin MAX_WMMAP_INFO)} {k k' : Kernel} {b : Bool}

theorem CopiedSlots.skip {done : List Nat} (hi : i ∉ (k.proc parent).wmap.active)
    (h : CopiedSlots k parent child is b k' done) :
    CopiedSlots k parent child (i :: is) b k' done := by
  refine { h with all := ?_, slot := ?_, total := ?_ }
  · intro hb j hj hact
    rcases List.mem_cons.mp hj with rfl | hj
    · exact (hi hact).elim
    · exact h.all hb j hj hact
  · intro hb j
    rw [h.slot hb]
    by_cases hji : j = i
    · subst hji
      simp [hi]
    · simp [hji]
  · intro hb
    rw [h.total hb]
    simp [hi]

theorem CopiedSlots.cons {km : Kmem} (hne : parent ≠ child) (hi : i ∈ (k.proc parent).wmap.active)
    (hinh : Inherited (k.proc parent).pgdir k.mach.kmem (k.proc child).pgdir vs km d)
    (hf : km.failed = k.mach.kmem.failed) (hvs : ∀ v ∈ vs, v ∈ ((k.proc parent).wmap.slot i).pages)
    (hall : ∀ v ∈ ((k.proc parent).wmap.slot i).pages,
      ((k.proc parent).pgdir.entry v).p = true → v ∈ vs)
    (h : CopiedSlots ({ k with mach := { k.mach with kmem := km } }.setProc child
      { k.proc child with
        pgdir := d
        wmap := (k.proc child).wmap.update i ((k.proc parent).wmap.slot i)
          (k.proc parent).wmap.total }) parent child is b k' ws) :
    CopiedSlots k parent child (i :: is) b k' (vs ++ ws) := by
  obtain ⟨heq, hc, hfail, hshort, hinh', hpages, hall', hslot, htotal⟩ := h
  simp only [Kernel.setProc, Function.update_self, Function.update_of_ne hne] at heq hc hfail hinh'
  simp only [Kernel.proc_setProc_self, Kernel.proc_setProc_ne hne] at hpages hall' hslot htotal
  refine ⟨?_, hc, by rw [hfail, hf], hshort, hinh.trans hinh', ?_, ?_, ?_, ?_⟩
  · conv_lhs => rw [heq]
    simp [Kernel.setProc]
  · intro v hv
    rcases List.mem_append.mp hv with hv | hv
    · exact ⟨i, hi, hvs v hv⟩
    · exact hpages v hv
  · intro hb j hj hact v hv hp
    rcases List.mem_cons.mp hj with rfl | hj
    · exact List.mem_append_left _ (hall v hv hp)
    · exact List.mem_append_right _ (hall' hb j hj hact v hv hp)
  · intro hb j
    rw [hslot hb]
    by_cases hji : j = i
    · subst hji
      simp [hi]
    · simp [hji, Wmap.slot_update_ne]
  · intro hb
    have hex : ∃ j ∈ i :: is, j ∈ (k.proc parent).wmap.active := ⟨i, List.mem_cons_self, hi⟩
    rw [htotal hb, if_pos hex]
    split <;> rfl

theorem copySlots_spec (hne : parent ≠ child) (hok : (k.proc parent).wmap.Ok)
    (h : copySlots parent child is k = .ok (b, k')) :
    ∃ done, CopiedSlots k parent child is b k' done := by
  induction is generalizing k with
  | nil =>
    cases h
    exact ⟨[], by simp [Kernel.setProc], rfl, by simp, by simp, Inherited.refl _ _ _, by simp,
      by simp, by simp, by simp⟩
  | cons i is ih =>
    rw [copySlots] at h
    dsimp only at h
    split at h
    · rename_i he
      obtain ⟨done, hd⟩ := ih hok h
      exact ⟨done, hd.skip (Wmap.notMem_active.mpr he)⟩
    rename_i he
    have hi : i ∈ (k.proc parent).wmap.active := Wmap.mem_active.mpr (by simpa using he)
    have hreg := hok i hi
    obtain ⟨⟨ok, d, km⟩, hcr, h⟩ := Lib.bind_eq_ok.mp h
    rw [hreg.copyPages] at hcr
    obtain ⟨vs, hinh, hsub, hf, hall, hshort⟩ :=
      copyRegion_spec hreg.aligned hreg.pages_fit hcr
    dsimp only at h
    split at h
    · rename_i hok'
      subst hok'
      have hok1 : (({ k with mach := { k.mach with kmem := km } }.setProc child
          { k.proc child with
            pgdir := d
            wmap := (k.proc child).wmap.update i ((k.proc parent).wmap.slot i)
              (k.proc parent).wmap.total }).proc parent).wmap.Ok := by
        simpa [Kernel.setProc, hne] using hok
      obtain ⟨ws, hd⟩ := ih hok1 h
      exact ⟨vs ++ ws, hd.cons hne hi hinh (by simpa using hf) hsub (hall rfl)⟩
    · rename_i hok'
      cases h
      rw [Bool.eq_false_iff.mpr hok'] at hf
      refine ⟨vs, by simp [Kernel.setProc], by simp [Kernel.setProc], hf,
        fun _ => hshort (Bool.eq_false_iff.mpr hok'), by simpa [Kernel.setProc] using hinh, ?_, by simp, by simp, by simp⟩
      intro v hv
      exact ⟨i, hi, hsub v hv⟩

end

end Xv6
