import Xv6.CowContract
import Xv6.Resize
import Xv6.Supply

/-!
What a failing growth leaves behind. The pages mapped before memory ran out have a count, so
their frames do not come back, and the roll-back clears every page up to the requested size,
whoever mapped it.
-/

namespace Xv6

open Lib Multiset

variable {m m' : Machine} {d d' : PgDir} {newsz oldsz : Nat}

/-- A failed growth of process `p` has changed nothing: its size, its entries and the free
frames are as before, up to frames that became page tables. -/
structure GrowUndone (k : Kernel) (p : Fin NPROC) (k' : Kernel) : Prop where
  size : (k'.proc p).sz = (k.proc p).sz
  entry : ∀ v, (k'.proc p).pgdir.entry v = (k.proc p).pgdir.entry v
  free : k.mach.kmem.free + (k.proc p).pgdir.frames = k'.mach.kmem.free + (k'.proc p).pgdir.frames

def NoPage (k : Kmem) (d : PgDir) (a : Nat) : Prop :=
  k.freelist = [] ∨ k.freelist.length = 1 ∧ d.walk a = none

theorem deallocuvm_absent (hold : oldsz ≤ 0x80000000)
    (h : ∀ v ∈ deallocRange oldsz newsz, (d.entry v).p = false) :
    ∃ sz, deallocuvm m d oldsz newsz = .ok (sz, d, m) := by
  unfold deallocuvm
  unfold deallocRange at h
  by_cases hle : oldsz ≤ newsz
  · rw [if_pos hle]
    exact ⟨oldsz, rfl⟩
  rw [if_neg hle] at h ⊢
  dsimp only
  rw [sweep_eq_visit (by omega) _ _ _ (pgroundup_aligned newsz) le_rfl]
  have hvisit := visit_absent Prod.snd deallocPage _ [] (m, d) h
  rw [List.append_nil] at hvisit
  rw [hvisit]
  exact ⟨newsz, rfl⟩

section
variable {oldsz newsz n a sz : Nat} {m m' : Machine} {d d' : PgDir}

theorem allocLoop_stuck (hnew : newsz ≤ 0x80000000) (ha : a < 0x100000000) (hal : a % 4096 = 0)
    (hno : NoPage m.kmem d a) (h : allocLoop oldsz newsz (n + 1) m d a = .ok (sz, d', m')) :
    Cleared d (· ∈ deallocRange newsz oldsz) d' ∧
      m'.kmem.free = m.kmem.free + d.released m.counts (deallocRange newsz oldsz) ∧
      ((∀ v ∈ deallocRange newsz oldsz, (d.entry v).p = false) → d' = d) := by
  rw [allocLoop] at h
  split at h
  · rename_i km hk
    obtain ⟨hfree, rfl⟩ := kalloc_none hk
    obtain ⟨⟨sz1, d1, m1⟩, hd, h⟩ := bind_eq_ok.mp h
    cases h
    obtain ⟨-, hf, hc⟩ := deallocuvm_spec hnew hd
    refine ⟨hc, hf.free, fun habs => ?_⟩
    obtain ⟨sz2, hsame⟩ := deallocuvm_absent
      (m := { m with kmem := { m.kmem with failed := true } }) hnew habs
    rw [hsame] at hd
    cases hd
    rfl
  rename_i x km hk
  have hlist := (kalloc_some hk).1
  obtain ⟨⟨ok, d1, k1⟩, hm, h⟩ := bind_eq_ok.mp h
  rcases hno with hnil | ⟨hone, hwalk⟩
  · rw [hlist] at hnil
    cases hnil
  have hempty : km.freelist = [] := by
    rw [hlist] at hone
    exact List.length_eq_zero_iff.mp (Nat.succ.inj hone)
  dsimp only at h
  split at h
  · rename_i hok
    rw [hok] at hm
    exact (mappages_page_taken ha hal hwalk hm hempty).elim
  rename_i hok
  rw [Bool.eq_false_iff.mpr hok] at hm
  obtain ⟨-, -, rfl, rfl⟩ := mappages_page_fail ha hal hm
  obtain ⟨⟨sz1, d2, m2⟩, hd, h⟩ := bind_eq_ok.mp h
  obtain ⟨m3, hkf, h⟩ := bind_eq_ok.mp h
  cases h
  obtain ⟨-, hf, hc⟩ := deallocuvm_spec hnew hd
  refine ⟨hc, ?_, fun habs => ?_⟩
  · have hfree := (kfree_spec hkf).free
    rw [hf.free] at hfree
    rw [hfree, free_kalloc hk, cons_add, ← singleton_add, add_comm]
    rfl
  · obtain ⟨sz2, hsame⟩ := deallocuvm_absent hnew habs
    rw [hsame] at hd
    cases hd
    rfl

theorem allocLoop_first (ha : a < 0x100000000) (hal : a % 4096 = 0) (hno : ¬ NoPage m.kmem d a)
    (h : allocLoop oldsz newsz (n + 1) m d a = .ok (sz, d', m')) :
    ∃ x m1 d1, Grown m d (a / 4096) [x] m1 d1 ∧
      allocLoop oldsz newsz n m1 d1 (a + 4096) = .ok (sz, d', m') := by
  rw [allocLoop] at h
  split at h
  · rename_i km hk
    exact (hno (Or.inl (kalloc_none hk).1)).elim
  rename_i x km hk
  obtain ⟨⟨ok, d1, k1⟩, hm, h⟩ := bind_eq_ok.mp h
  dsimp only at h
  split at h
  · rename_i hok
    rw [hok] at hm
    exact ⟨x, _, d1, grown_page ha hal hk hm, h⟩
  rename_i hok
  rw [Bool.eq_false_iff.mpr hok] at hm
  obtain ⟨hempty, hwalk, -, -⟩ := mappages_page_fail ha hal hm
  refine (hno (Or.inr ⟨?_, hwalk⟩)).elim
  rw [(kalloc_some hk).1, show km.freelist = [] from hempty]
  rfl

end

/-- The frames of the pages grown before memory ran out have a count and are lost. -/
theorem Abandoned.lost {m1 : Machine} {d1 : PgDir} {lo : Nat} {vs : List Nat} {x : Frame}
    {xs : List Frame} (h : Abandoned m d lo vs m' d' (x :: xs) m1 d1) :
    m.kmem.free + d.frames ≠ m'.kmem.free + d'.frames := by
  intro heq
  have hframes : d'.frames = d1.frames := by
    rw [PgDir.frames, PgDir.frames, h.cleared.frame, h.cleared.tables]
  rw [h.grown.balance, h.free, hframes, add_right_comm, add_left_inj, add_right_inj] at heq
  have hx : x ∈ d1.released m1.counts vs := by
    rw [← mem_coe, ← heq]
    exact mem_coe.mpr List.mem_cons_self
  obtain ⟨v, hv, hvx⟩ := List.mem_map.mp hx
  have hcount := (List.mem_filter.mp hv).2
  rw [hvx, h.grown.counts, if_pos List.mem_cons_self] at hcount
  simp at hcount

/-- A failing `allocuvm` has changed nothing exactly when it did not start, or found no memory
for its first page and no page to clear. -/
theorem allocuvm_failed_iff (hpos : 0 < newsz) (h : allocuvm m d oldsz newsz = .ok (0, d', m')) :
    ((∀ v, d'.entry v = d.entry v) ∧ m.kmem.free + d.frames = m'.kmem.free + d'.frames) ↔
      0x80000000 ≤ newsz ∨ NoPage m.kmem d (pgroundup oldsz) ∧
        ∀ v ∈ deallocRange newsz oldsz, (d.entry v).p = false := by
  unfold allocuvm at h
  split at h
  · rename_i hge
    cases h
    exact ⟨fun _ => Or.inl hge, fun _ => ⟨fun _ => rfl, rfl⟩⟩
  rename_i hlt
  split at h
  · rename_i hsmall
    have hzero : oldsz = 0 := congrArg Prod.fst (Except.ok.inj h)
    omega
  rename_i hle
  have hal := pgroundup_aligned oldsz
  have hlo : pgroundup oldsz < 0x100000000 := by
    unfold pgroundup
    omega
  have hfit : pgroundup oldsz / 4096 + pagesTo (pgroundup oldsz) newsz ≤ 0x80000 := by
    unfold pgroundup pagesTo
    omega
  dsimp only at h
  cases hturns : pagesTo (pgroundup oldsz) newsz with
  | zero =>
    rw [hturns] at h
    have hzero : newsz = 0 := congrArg Prod.fst (Except.ok.inj h)
    omega
  | succ turns =>
    rw [hturns] at h hfit
    by_cases hno : NoPage m.kmem d (pgroundup oldsz)
    · obtain ⟨hc, hfree, hsame⟩ := allocLoop_stuck (by omega) hlo hal hno h
      refine ⟨fun ⟨hentry, _⟩ => Or.inr ⟨hno, fun v hv => ?_⟩, ?_⟩
      · rw [← hentry]
        exact hc.cleared v hv
      rintro (hge | ⟨-, habs⟩)
      · exact (hlt hge).elim
      have hnone : d.released m.counts (deallocRange newsz oldsz) = [] :=
        released_eq_nil fun v hv hp => by
          rw [habs v hv] at hp
          cases hp
      rw [hsame habs, hfree, hnone]
      exact ⟨fun _ => rfl, by simp⟩
    · obtain ⟨x, m1, d1, hg, hrest⟩ := allocLoop_first hlo hal hno h
      refine ⟨fun ⟨_, hfree⟩ => ?_, ?_⟩
      · rcases allocLoop_spec (by omega) (by omega) (by omega) hrest with
          ⟨hzero, -⟩ | ⟨-, xs, m2, d2, -, hab⟩
        · omega
        · rw [show (pgroundup oldsz + 4096) / 4096 = pgroundup oldsz / 4096 + 1 by omega] at hab
          exact ((hab.cons hg).lost hfree).elim
      · rintro (hge | ⟨hno', -⟩)
        · exact (hlt hge).elim
        · exact (hno hno').elim

section
variable {k k' : Kernel} {p : Fin NPROC} {n : Int}

/-- `growproc` reports an error when the call that changes the address space returns 0. -/
theorem growproc_of_zero (hn : n ≠ 0)
    (h : resize k.mach (k.proc p).pgdir (k.proc p).sz n = .ok (0, d, m)) :
    growproc k p n = .ok (false, { k with mach := m }.setProc p { k.proc p with pgdir := d }) :=
  bind_eq_ok.mpr ⟨_, h, if_pos ⟨hn, rfl⟩⟩

theorem growproc_false (h : growproc k p n = .ok (false, k')) :
    ∃ d m, resize k.mach (k.proc p).pgdir (k.proc p).sz n = .ok (0, d, m) ∧
      k' = { k with mach := m }.setProc p { k.proc p with pgdir := d } := by
  obtain ⟨⟨sz, d, m⟩, hr, h⟩ := bind_eq_ok.mp h
  dsimp only at h
  split at h
  · rename_i hz
    cases h
    rw [hz.2] at hr
    exact ⟨d, m, hr, rfl⟩
  · cases h

/-- A failing growth changes nothing exactly when the new size is in the kernel half, or not
even the first page finds memory and no page up to the new size is present. -/
theorem growproc_failed_iff (hn : 0 < n) (hhi : n < 0x80000000)
    (h : growproc k p n = .ok (false, k')) :
    GrowUndone k p k' ↔ 0x80000000 ≤ addInt (k.proc p).sz n ∨
      NoPage k.mach.kmem (k.proc p).pgdir (pgroundup (k.proc p).sz) ∧
        ∀ v ∈ deallocRange (addInt (k.proc p).sz n) (k.proc p).sz,
          ((k.proc p).pgdir.entry v).p = false := by
  obtain ⟨d, m, hr, rfl⟩ := growproc_false h
  rw [resize, if_pos hn] at hr
  have hundone : GrowUndone k p ({ k with mach := m }.setProc p { k.proc p with pgdir := d }) ↔
      (∀ v, d.entry v = (k.proc p).pgdir.entry v) ∧
        k.mach.kmem.free + (k.proc p).pgdir.frames = m.kmem.free + d.frames := by
    constructor
    · rintro ⟨-, hentry, hfree⟩
      rw [Kernel.proc_setProc_self] at hentry hfree
      exact ⟨hentry, hfree⟩
    · rintro ⟨hentry, hfree⟩
      refine ⟨?_, ?_, ?_⟩ <;> rw [Kernel.proc_setProc_self]
      · exact hentry
      · exact hfree
  rw [hundone]
  by_cases hpos : 0 < addInt (k.proc p).sz n
  · exact allocuvm_failed_iff hpos hr
  -- a sum that wraps to 0 is below the old size, which is then returned
  have hzero : addInt (k.proc p).sz n = 0 := by omega
  have hsz : 0 < (k.proc p).sz := by
    unfold addInt at hzero
    omega
  rw [allocuvm, if_neg (by omega), if_pos (by omega)] at hr
  have hsame : (k.proc p).sz = 0 := congrArg Prod.fst (Except.ok.inj hr)
  omega

end

/-- The page of process 0, in frame 1026, and a loaded page at `0x60000000`, in frame 1025. -/
def PgDir.twoPages : PgDir :=
  ((PgDir.onePage 0 { p := true, w := true, u := true, ppn := 1026 }).addTable 0x60000000 302).setPte
    0x60000000 { p := true, w := true, u := true, ppn := 1025 }

theorem PgDir.entry_twoPages (v : Nat) : PgDir.twoPages.entry v =
    if v = 0x60000 then { p := true, w := true, u := true, ppn := 1025 }
    else if v = 0 then { p := true, w := true, u := true, ppn := 1026 } else Pte.zero := by
  rw [twoPages, entry_setPte (by decide) (walk_addTable ..), entry_addTable 302 rfl,
    entry_onePage (by decide)]

def Kernel.growing : Kernel :=
  { Kernel.fresh with
    mach := { Kernel.fresh.mach with counts := fun x => if x = 1026 then 1 else 0 } }.setProc 0
    { Proc.zero with
      state := .running
      sz := 4096
      pgdir := PgDir.twoPages
      wmap := Wmap.init.update 0 ⟨0x60000000, 4096, 1, false, -1⟩ 1 }

theorem Kernel.proc_growing : Kernel.growing.proc 0 = { Proc.zero with
    state := .running
    sz := 4096
    pgdir := PgDir.twoPages
    wmap := Wmap.init.update 0 ⟨0x60000000, 4096, 1, false, -1⟩ 1 } := Kernel.proc_setProc_self ..

theorem growproc_failed_first : ∃ k', growproc Kernel.growing 0 4096 = .ok (false, k') ∧
    GrowUndone Kernel.growing 0 k' := by
  obtain ⟨⟨b, k'⟩, hcall, rfl⟩ := Lib.exists_ok (x := growproc Kernel.growing 0 4096) (fun r => r.1 = false)
    (by decide +kernel)
  exact ⟨k', hcall, (growproc_failed_iff (by decide) (by decide) hcall).mpr
    (Or.inr ⟨Or.inl rfl, by decide +kernel⟩)⟩

/-- Growing over the window: the loaded page of the region is unmapped and its frame is freed,
although the region is still there. -/
theorem growth_clears_region : ∃ k', growproc Kernel.growing 0 0x60000000 = .ok (false, k') ∧
    ((Kernel.growing.proc 0).pgdir.entry 0x60000).p = true ∧ 1025 ∉ Kernel.growing.mach.kmem.freelist ∧
    ((k'.proc 0).pgdir.entry 0x60000).p = false ∧ 1025 ∈ k'.mach.kmem.freelist ∧
    (k'.proc 0).wmap.slot 0 = ⟨0x60000000, 4096, 1, false, -1⟩ := by
  obtain ⟨⟨b, k'⟩, hcall, rfl, hentry, hfree, hslot⟩ := Lib.exists_ok
    (x := growproc Kernel.growing 0 0x60000000) (fun r => r.1 = false ∧
      ((r.2.proc 0).pgdir.entry 0x60000).p = false ∧ 1025 ∈ r.2.mach.kmem.freelist ∧
      (r.2.proc 0).wmap.slot 0 = ⟨0x60000000, 4096, 1, false, -1⟩) (by decide +kernel)
  exact ⟨k', hcall, rfl, List.not_mem_nil, hentry, hfree, hslot⟩

end Xv6
