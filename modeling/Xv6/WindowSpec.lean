import Xv6.CowSpec
import Xv6.ExitSpec

/-!
`allocateAndMap` serves one page of a region. It gives up on the last page below the
kernel, on a page it cannot read from its file, and when memory runs out; in the last case
it unmaps from the next page up to the kernel.
-/

namespace Xv6

open Function Lib

variable {k k' k1 : Kernel} {p : Fin NPROC} {i : Fin MAX_WMMAP_INFO} {b : Bool} {a n va : Nat}
  {x : Frame}

def Files.AtEnd (fs : Files) (ip : Option Nat) (off n : Nat) : Prop :=
  ∃ i, ip = some i ∧
    if (fs.inode i).type = 3 then (fs.inode i).major = 1 ∧ fs.console fs.reads = some []
    else (fs.inode i).data.length = off ∧ off ≤ (off + n) % 0x100000000

/-- The page at `a` of region `i` is anonymous, or its file is open and does not end right
at this page. -/
def Kernel.Readable (k : Kernel) (p : Fin NPROC) (a : Nat) (i : Fin MAX_WMMAP_INFO) : Prop :=
  ((k.proc p).wmap.slot i).fileBacked = true →
    ∃ f, (k.proc p).fdget ((k.proc p).wmap.slot i).fd = .ok (some f) ∧
      ¬ k.fs.AtEnd (k.fs.file f).ip
        ((a + 0x100000000 - ((k.proc p).wmap.slot i).addr) % 0x100000000) 4096

theorem readi_empty_iff (fs : Files) (ip : Option Nat) (off : Nat) (hn : 0 < n) :
    (readi fs ip off n).1 = some [] ↔ fs.AtEnd ip off n := by
  cases ip with
  | none => simp [readi, Files.AtEnd]
  | some i =>
    simp only [readi, Files.AtEnd, Option.some.injEq, exists_eq_left']
    split
    · split
      · rename_i hm
        simp [hm, List.take_eq_nil_iff, Nat.ne_of_gt hn]
      · rename_i hm
        simp [hm]
    · split
      · rename_i hoff
        simp only [reduceCtorEq, false_iff]
        omega
      · rename_i hoff
        simp only [Option.some.injEq, List.take_eq_nil_iff, List.drop_eq_nil_iff]
        omega

theorem atEnd_ilock {fs fs' : Files} {ip ip' : Option Nat} {off : Nat} (h : ilock fs ip = .ok fs') :
    fs'.AtEnd ip' off n ↔ fs.AtEnd ip' off n := by
  unfold ilock at h
  split at h
  · cases h
  rename_i i
  split at h
  · cases h
  split at h
  · cases h
  cases h
  have hsame : ∀ j, ((fs.setInode i { fs.inode i with locked := true }).inode j).type =
      (fs.inode j).type ∧ ((fs.setInode i { fs.inode i with locked := true }).inode j).major =
      (fs.inode j).major ∧ ((fs.setInode i { fs.inode i with locked := true }).inode j).data =
      (fs.inode j).data := by
    intro j
    by_cases hj : j = i
    · subst hj
      simp [Files.setInode]
    · simp [Files.setInode, hj]
  simp only [Files.AtEnd, fun j => (hsame j).1, fun j => (hsame j).2.1,
    fun j => (hsame j).2.2]
  rfl

theorem loadPage_iff (h : loadPage k p a i x = .ok (b, k')) : b = true ↔ k.Readable p a i := by
  unfold loadPage at h
  dsimp only at h
  unfold Kernel.Readable
  split at h
  · rename_i hfb
    obtain ⟨r, hfd, h⟩ := bind_eq_ok.mp h
    cases r with
    | none =>
      cases h
      simp [hfb, hfd]
    | some f =>
      obtain ⟨fs, hl, h⟩ := bind_eq_ok.mp h
      have hend := readi_empty_iff fs (k.fs.file f).ip
        ((a + 0x100000000 - ((k.proc p).wmap.slot i).addr) % 0x100000000) (show 0 < 4096 by omega)
      rw [atEnd_ilock hl] at hend
      split at h
      · rename_i hempty
        cases h
        simp [hfb, hfd, hend.mp hempty]
      · rename_i hne
        obtain ⟨fs', -, h⟩ := bind_eq_ok.mp h
        cases h
        simp only [hfb, hfd, true_iff, forall_const]
        exact ⟨f, rfl, mt hend.mpr hne⟩
  · rename_i hfb
    cases h
    simp [hfb]

/-- `allocateAndMap` changes nothing but the new frame while it loads a page. -/
theorem loadPage_spec (h : loadPage k p a i x = .ok (b, k')) :
    k' = { k with mach := { k.mach with mem := k'.mach.mem }, fs := k'.fs } ∧
      ∀ y, y ≠ x → k'.mach.mem y = k.mach.mem y := by
  unfold loadPage at h
  dsimp only at h
  split at h
  · obtain ⟨f, -, h⟩ := bind_eq_ok.mp h
    cases f with
    | none =>
      cases h
      exact ⟨rfl, fun _ _ => rfl⟩
    | some f =>
      obtain ⟨fs, -, h⟩ := bind_eq_ok.mp h
      have hmem : ∀ bytes y, y ≠ x → (k.mach.write x 0 bytes).mem y = k.mach.mem y :=
        fun bytes y hy => update_of_ne hy ..
      split at h
      · cases h
        exact ⟨rfl, hmem _⟩
      · obtain ⟨fs', -, h⟩ := bind_eq_ok.mp h
        cases h
        exact ⟨rfl, hmem _⟩
  · cases h
    exact ⟨rfl, fun _ _ => rfl⟩

/-- The kernel in which `allocateAndMap` cleans up after running out of memory: the free
list is as before, and has a frame at most. -/
structure Starved (k k1 : Kernel) : Prop where
  eq : k1 = { k with mach := k1.mach, fs := k1.fs }
  image : k1.mach.image = k.mach.image
  counts : k1.mach.counts = k.mach.counts
  cr3 : k1.mach.cr3 = k.mach.cr3
  free : k1.mach.kmem.freelist = k.mach.kmem.freelist
  failed : k1.mach.kmem.failed = true
  mem : ∀ x, x ∉ k.mach.kmem.free → k1.mach.mem x = k.mach.mem x

/-- `kalloc` has returned 0 while `allocateAndMap` served the page at `a` of region `i`, for
the page itself or for its table, and `k1` is the kernel in which the clean-up begins. -/
inductive OutOfMemory (k : Kernel) (p : Fin NPROC) (a : Nat) (i : Fin MAX_WMMAP_INFO) : Kernel → Prop
  | page {km : Kmem} (hk : kalloc k.mach.kmem = (none, km)) :
      OutOfMemory k p a i { k with mach := { k.mach with kmem := km } }
  | table {x : Frame} {km km' : Kmem} {k1 : Kernel} {d : PgDir} {m : Machine}
      (hk : kalloc k.mach.kmem = (some x, km))
      (hload : loadPage { k with mach := { k.mach with kmem := km }.memset x 0 } p a i x = .ok (true, k1))
      (hmap : mappages k1.mach.kmem (k1.proc p).pgdir a 4096 x { w := true, u := true, p := true } =
        .ok (false, d, km'))
      (hfree : kfree { k1.mach with kmem := km' } x = .ok m) :
      OutOfMemory k p a i { { k1 with mach := { k1.mach with kmem := km' } }.setProc p
        { k1.proc p with pgdir := d } with mach := m }

/-- The clean-up of `allocateAndMap` for the page at `a` of region `i`. Its range ends in
the kernel half, so it comes to an end only when the region had no pages loaded or a
write-back fails. -/
structure Retracted (k : Kernel) (p : Fin NPROC) (a : Nat) (i : Fin MAX_WMMAP_INFO)
    (k' : Kernel) (k1 : Kernel) (done : List Nat) : Prop where
  starved : Starved k k1
  short : k.mach.kmem.freelist = [] ∨
    k.mach.kmem.freelist.length = 1 ∧ (k.proc p).pgdir.walk a = none
  unmapped : Unmapped k1 p done k'
  pages : ∀ v ∈ done, v ∈ pageRange (a + 4096) 0x80000000
  none : ((k.proc p).wmap.slot i).nLoaded ≤ 0 → done = []

/-- A page of region `i` could not be read from its file; the frame `x` is lost. -/
structure Unread (k : Kernel) (p : Fin NPROC) (a : Nat) (i : Fin MAX_WMMAP_INFO) (k' : Kernel)
    (x : Frame) (km : Kmem) : Prop where
  unreadable : ¬ k.Readable p a i
  alloc : kalloc k.mach.kmem = (some x, km)
  eq : k' = { k with
    mach := { k.mach with kmem := km, mem := k'.mach.mem }
    fs := k'.fs }
  mem : ∀ y, y ≠ x → k'.mach.mem y = k.mach.mem y

/-- The page at `a` of region `i` was mapped to the new frame `x`. -/
structure Loaded (k : Kernel) (p : Fin NPROC) (a : Nat) (i : Fin MAX_WMMAP_INFO) (k' : Kernel)
    (x : Frame) (km : Kmem) : Prop where
  readable : k.Readable p a i
  alloc : kalloc k.mach.kmem = (some x, km)
  table : (k.proc p).pgdir.walk a = none → km.freelist ≠ []
  eq : k' = { k with
      mach := { k.mach with kmem := k'.mach.kmem, mem := k'.mach.mem }
      fs := k'.fs }.setProc p
    { k.proc p with
      pgdir := (k'.proc p).pgdir
      wmap := (k.proc p).wmap.update i
        { (k.proc p).wmap.slot i with nLoaded := ((k.proc p).wmap.slot i).nLoaded + 1 }
        (k.proc p).wmap.total }
  mem : ∀ y, y ≠ x → k'.mach.mem y = k.mach.mem y
  extend : Extends km (k.proc p).pgdir k'.mach.kmem (k'.proc p).pgdir
  failed : k'.mach.kmem.failed = k.mach.kmem.failed
  absent : ((k.proc p).pgdir.entry (a / 4096)).p = false
  entry : ∀ v, (k'.proc p).pgdir.entry v = if v = a / 4096
    then Pte.make x { w := true, u := true, p := true } else (k.proc p).pgdir.entry v

section
variable {k k' k1 : Kernel} {p : Fin NPROC} {a : Nat} {i : Fin MAX_WMMAP_INFO} {x : Frame} {km : Kmem}

theorem Starved.proc (h : Starved k k1) : k1.proc = k.proc := (congrArg Kernel.proc h.eq).trans rfl

theorem Starved.kpgdir (h : Starved k k1) : k1.kpgdir = k.kpgdir :=
  (congrArg Kernel.kpgdir h.eq).trans rfl

theorem Starved.initproc (h : Starved k k1) : k1.initproc = k.initproc :=
  (congrArg Kernel.initproc h.eq).trans rfl

theorem Unread.proc (h : Unread k p a i k' x km) : k'.proc = k.proc :=
  (congrArg Kernel.proc h.eq).trans rfl

theorem Unread.kpgdir (h : Unread k p a i k' x km) : k'.kpgdir = k.kpgdir :=
  (congrArg Kernel.kpgdir h.eq).trans rfl

theorem Unread.initproc (h : Unread k p a i k' x km) : k'.initproc = k.initproc :=
  (congrArg Kernel.initproc h.eq).trans rfl

theorem Loaded.proc_self (h : Loaded k p a i k' x km) : k'.proc p =
    { k.proc p with
      pgdir := (k'.proc p).pgdir
      wmap := (k.proc p).wmap.update i
        { (k.proc p).wmap.slot i with nLoaded := ((k.proc p).wmap.slot i).nLoaded + 1 }
        (k.proc p).wmap.total } := by
  conv_lhs => rw [h.eq]
  simp

theorem Loaded.proc_ne (h : Loaded k p a i k' x km) {q : Fin NPROC} (hq : q ≠ p) :
    k'.proc q = k.proc q := by
  rw [h.eq, Kernel.proc_setProc_ne hq]

theorem Loaded.kpgdir (h : Loaded k p a i k' x km) : k'.kpgdir = k.kpgdir :=
  (congrArg Kernel.kpgdir h.eq).trans rfl

theorem Loaded.initproc (h : Loaded k p a i k' x km) : k'.initproc = k.initproc :=
  (congrArg Kernel.initproc h.eq).trans rfl

end

theorem cleanup_spec (hlo : 0x60000000 ≤ a) (hhi : a < 0x7FFFF000) (hal : a % 4096 = 0)
    (hbase : (k.proc p).pgdir.KernelBase) (hs : Starved k k1) (hshort : k.mach.kmem.freelist = [] ∨
      k.mach.kmem.freelist.length = 1 ∧ (k.proc p).pgdir.walk a = none)
    (h : dellocateAndUnmap k1 p (a + 4096) a i = .ok (b, k')) :
    ∃ done, Retracted k p a i k' k1 done := by
  have hproc : k1.proc p = k.proc p := congrArg (fun k => k.proc p) hs.eq
  have hbound : addInt (a + 4096) (a : Int) = a + 4096 + a := by
    unfold addInt
    omega
  obtain ⟨k2, hu, rfl⟩ := dellocateAndUnmap_cases h
  rw [hbound] at hu
  obtain ⟨done, hun, hpages, hnone, -⟩ := unmapPages_kernel (by omega) (by omega) (by omega)
    (by rw [hproc]; exact hbase) hu
  rw [hproc] at hnone
  refine ⟨done, hs, hshort, ?_, hpages, hnone⟩
  split
  · exact hun.drop i
  · exact hun

theorem OutOfMemory.starved (ha : a < 0x100000000) (hal : a % 4096 = 0) (h : OutOfMemory k p a i k1) :
    Starved k k1 ∧ (k.mach.kmem.freelist = [] ∨
      k.mach.kmem.freelist.length = 1 ∧ (k.proc p).pgdir.walk a = none) := by
  cases h with
  | page hk =>
    obtain ⟨hf, rfl⟩ := kalloc_none hk
    exact ⟨⟨rfl, rfl, rfl, rfl, rfl, rfl, fun _ _ => rfl⟩, Or.inl hf⟩
  | @table x km km' k1 d m hk hload hmap hfree =>
    obtain ⟨heq, hmem⟩ := loadPage_spec hload
    have hk1 : k1 = { k with
        mach := { k.mach with kmem := km, mem := k1.mach.mem }
        fs := k1.fs } := heq
    clear heq
    have hmem' : ∀ y, y ≠ x → k1.mach.mem y = k.mach.mem y := fun y hy =>
      (hmem y hy).trans (update_of_ne hy ..)
    have hproc : k1.proc p = k.proc p := congrArg (fun k => k.proc p) hk1
    have hkmem : k1.mach.kmem = km := congrArg (fun k => k.mach.kmem) hk1
    rw [hproc, hkmem] at hmap
    obtain ⟨hf, hw, rfl, rfl⟩ := mappages_page_fail ha hal hmap
    have hfs := kfree_spec hfree
    have hlist : k.mach.kmem.freelist = [x] := by rw [(kalloc_some hk).1, hf]
    refine ⟨⟨?_, ?_, ?_, ?_, ?_, hfs.failed, ?_⟩, Or.inr ⟨by rw [hlist]; rfl, hw⟩⟩
    · rw [hk1]
      simp [Kernel.setProc]
    · exact hfs.image.trans (by rw [hk1])
    · exact hfs.counts.trans (by rw [hk1])
    · exact hfs.cr3.trans (by rw [hk1])
    · have hfree' := hfs.free
      simp only [Kmem.free, hf] at hfree'
      rw [hlist]
      simpa using hfree'
    · intro y hy
      rw [Kmem.free, hlist] at hy
      have hyx : y ≠ x := by simpa using hy
      exact (hfs.mem y (by simpa using hyx)).trans (hmem' y hyx)

theorem allocateAndMap_last (hlast : 0x7FFFF000 ≤ va) (hhi : va < 0x80000000) :
    allocateAndMap k p va 4096 i = .ok (false, k) := by
  have hround : pgroundup 4096 = 4096 := by decide
  have hend : 0x80000000 ≤ (pgrounddown va + 4096) % 0x100000000 := by
    unfold pgrounddown
    omega
  unfold allocateAndMap
  rw [hround]
  exact if_pos hend

theorem allocateAndMap_page (hva : va < 0x7FFFF000) :
    allocateAndMap k p va 4096 i = mapRegion p i (pgrounddown va + 4096) 1 k (pgrounddown va) := by
  have hround : pgroundup 4096 = 4096 := by decide
  have hend : (pgrounddown va + 4096) % 0x100000000 = pgrounddown va + 4096 ∧
      pgrounddown va + 4096 < 0x80000000 := by
    unfold pgrounddown
    omega
  have hone : pagesTo (pgrounddown va) (pgrounddown va + 4096) = 1 := by
    unfold pagesTo
    omega
  unfold allocateAndMap
  dsimp only
  rw [hround, hend.1, if_neg (by omega), hone]

/-- How the turn of the loop ends: memory runs out, the file gives no byte, or the page is
mapped. -/
theorem allocateAndMap_outcome (hva : va < 0x7FFFF000)
    (h : allocateAndMap k p va 4096 i = .ok (b, k')) :
    (b = false ∧ ∃ k1 b1, OutOfMemory k p (pgrounddown va) i k1 ∧
      dellocateAndUnmap k1 p (pgrounddown va + 4096) (pgrounddown va) i = .ok (b1, k')) ∨
    (b = false ∧ ∃ x km, Unread k p (pgrounddown va) i k' x km) ∨
    (b = true ∧ ∃ x km, Loaded k p (pgrounddown va) i k' x km) := by
  rw [allocateAndMap_page hva] at h
  have ha : pgrounddown va < 0x7FFFF000 ∧ pgrounddown va % 4096 = 0 := by
    unfold pgrounddown
    omega
  obtain ⟨hahi, hal⟩ := ha
  generalize pgrounddown va = a at *
  rw [mapRegion] at h
  split at h
  · rename_i km hk
    obtain ⟨⟨b1, k1⟩, hd, h⟩ := bind_eq_ok.mp h
    cases h
    exact Or.inl ⟨rfl, _, b1, .page hk, hd⟩
  rename_i x km hk
  obtain ⟨⟨ok, k1⟩, hl, h⟩ := bind_eq_ok.mp h
  obtain ⟨heq, hmem⟩ := loadPage_spec hl
  have hk1 : k1 = { k with
      mach := { k.mach with kmem := km, mem := k1.mach.mem }
      fs := k1.fs } := heq
  clear heq
  have hmem' : ∀ y, y ≠ x → k1.mach.mem y = k.mach.mem y := fun y hy =>
    (hmem y hy).trans (update_of_ne hy ..)
  have hproc : k1.proc p = k.proc p := congrArg (fun k => k.proc p) hk1
  have hkmem : k1.mach.kmem = km := congrArg (fun k => k.mach.kmem) hk1
  dsimp only at h
  split at h
  · cases h
    rename_i hok
    refine Or.inr (Or.inl ⟨rfl, x, km, ?_, hk, hk1, hmem'⟩)
    intro hr
    rw [(loadPage_iff hl).mpr hr] at hok
    cases hok
  rename_i hok
  have hok' : ok = true := by simpa using hok
  subst hok'
  obtain ⟨⟨mapped, d, km'⟩, hm, h⟩ := bind_eq_ok.mp h
  dsimp only at h
  split at h
  · rename_i hmf
    have hmf' : mapped = false := by simpa using hmf
    subst hmf'
    obtain ⟨m, hfree, h⟩ := bind_eq_ok.mp h
    obtain ⟨⟨b1, k2⟩, hd, h⟩ := bind_eq_ok.mp h
    cases h
    exact Or.inl ⟨rfl, _, b1, .table hk hl hm hfree, hd⟩
  · rename_i hmf
    have hmf' : mapped = true := by simpa using hmf
    subst hmf'
    rw [hproc, hkmem] at hm
    obtain ⟨hx, hf, habs, hent⟩ := mappages_page_ok (by omega) hal hm
    cases h
    refine Or.inr (Or.inr ⟨rfl, x, km, (loadPage_iff hl).mp rfl, hk, ?_, ?_, hmem', ?_, ?_, habs, ?_⟩)
    · exact fun hw => mappages_page_taken (by omega) hal hw hm
    · rw [hk1]
      simp [Kernel.setProc]
    · simpa [Kernel.setProc] using hx
    · exact hf.trans (kalloc_some hk).2
    · simpa [Kernel.setProc] using hent

theorem allocateAndMap_spec (hlo : 0x60000000 ≤ va) (hhi : va < 0x80000000)
    (hbase : (k.proc p).pgdir.KernelBase) (h : allocateAndMap k p va 4096 i = .ok (b, k')) :
    (b = false ∧ 0x7FFFF000 ≤ va ∧ k' = k) ∨
    (b = false ∧ va < 0x7FFFF000 ∧ ∃ k1 done, Retracted k p (pgrounddown va) i k' k1 done) ∨
    (b = false ∧ va < 0x7FFFF000 ∧ ∃ x km, Unread k p (pgrounddown va) i k' x km) ∨
    (b = true ∧ va < 0x7FFFF000 ∧ ∃ x km, Loaded k p (pgrounddown va) i k' x km) := by
  by_cases hva : 0x7FFFF000 ≤ va
  · rw [allocateAndMap_last hva hhi] at h
    cases h
    exact Or.inl ⟨rfl, hva, rfl⟩
  have hva : va < 0x7FFFF000 := Nat.lt_of_not_le hva
  have ha : 0x60000000 ≤ pgrounddown va ∧ pgrounddown va < 0x7FFFF000 ∧
      pgrounddown va % 4096 = 0 := by
    unfold pgrounddown
    omega
  obtain ⟨halo, hahi, hal⟩ := ha
  rcases allocateAndMap_outcome hva h with ⟨hb, k1, b1, hout, hd⟩ | ⟨hb, hun⟩ | ⟨hb, hl⟩
  · obtain ⟨hst, hshort⟩ := hout.starved (by omega) hal
    exact Or.inr (Or.inl ⟨hb, hva, k1, cleanup_spec halo hahi hal hbase hst hshort hd⟩)
  · exact Or.inr (Or.inr (Or.inl ⟨hb, hva, hun⟩))
  · exact Or.inr (Or.inr (Or.inr ⟨hb, hva, hl⟩))

/-- The `T_PGFLT` branch: a copy-on-write fault, an address in the window without a region,
or a page of a region. -/
theorem pageFault_cases (h : pageFault k p va = .ok k') :
    ((va < 0x60000000 ∨ 0x80000000 ≤ va) ∧ ∃ b k1, handleCowFault k p va = .ok (b, k1) ∧
      k' = if b then k1 else setKilled k1 p) ∨
    (0x60000000 ≤ va ∧ va < 0x80000000 ∧ (k.proc p).wmap.covering va = none ∧ k' = k) ∨
    (0x60000000 ≤ va ∧ va < 0x80000000 ∧ ∃ i b k1, (k.proc p).wmap.covering va = some i ∧
      allocateAndMap k p va 4096 i = .ok (b, k1) ∧ k' = if b then k1 else setKilled k1 p) := by
  unfold pageFault at h
  split at h
  · rename_i hw
    obtain ⟨⟨b, k1⟩, hc, h⟩ := bind_eq_ok.mp h
    cases h
    exact Or.inl ⟨hw, b, k1, hc, rfl⟩
  rename_i hw
  rw [not_or, not_lt, not_le] at hw
  split at h
  · rename_i hcov
    cases h
    exact Or.inr (Or.inl ⟨hw.1, hw.2, hcov, rfl⟩)
  · rename_i i hcov
    obtain ⟨⟨b, k1⟩, hc, h⟩ := bind_eq_ok.mp h
    cases h
    exact Or.inr (Or.inr ⟨hw.1, hw.2, i, b, k1, hcov, hc, rfl⟩)

theorem leaveTrap_cases {user back : Bool} (h : leaveTrap k p user = .ok (back, k')) :
    (back = false ∧ (k.proc p).killed = true ∧ user = true ∧ exit k p = .ok k') ∨
    (back = true ∧ ¬ ((k.proc p).killed = true ∧ user = true) ∧ k' = k) := by
  unfold leaveTrap at h
  split at h
  · rename_i hc
    obtain ⟨k1, he, h⟩ := bind_eq_ok.mp h
    cases h
    obtain ⟨hk, hu⟩ := (Bool.and_eq_true _ _).mp hc
    exact Or.inl ⟨rfl, hk, hu, he⟩
  · rename_i hc
    cases h
    exact Or.inr ⟨rfl, fun hku => hc (by simp [hku.1, hku.2]), rfl⟩

end Xv6
