import Xv6.Launch
import Xv6.UnmapFailure

/-!
What `exec` does with the regions of its caller. It gives up the old address space with
`freevm`: no page is written back, and the region table stays as it is, with its counts of
loaded pages. `exit` goes through `wunmap`. The two agree exactly when no region counts a
loaded page.
-/

namespace Xv6

open Function Wmap Kernel Multiset

section
variable {own : Frame} {slept : Nat → Bool} {ip : Option Nat} {n : Nat} {l l' : Loading}

theorem loadPages_inode {addr offset sz j : Nat} {w b : Bool}
    (h : loadPages own slept ip addr offset sz w n l j = .ok (b, l')) : l'.fs.inode = l.fs.inode := by
  induction n generalizing l j with
  | zero =>
    cases h
    rfl
  | succ n ih =>
    rw [loadPages] at h
    split at h
    · cases h
    · dsimp only at h
      split at h
      · cases h
        exact inode_readi ..
      · exact (ih h).trans (inode_readi ..)

theorem loaduvm_inode {addr offset sz : Nat} {w b : Bool}
    (h : loaduvm own slept ip addr offset sz w l = .ok (b, l')) : l'.fs.inode = l.fs.inode := by
  unfold loaduvm at h
  split at h
  · cases h
  · exact loadPages_inode h

theorem loadSegments_inode {off : Nat} (h : loadSegments own slept ip n l off = .ok (true, l')) :
    l'.fs.inode = l.fs.inode := by
  induction n generalizing l off with
  | zero =>
    cases h
    rfl
  | succ n ih =>
    have hread : (l.read own slept ip off 32).2.fs.inode = l.fs.inode := inode_readi ..
    obtain ⟨ph, l1, hr, -, ⟨-, h⟩ | ⟨-, -, -, sz, d, m, l2, -, -, hl, h⟩⟩ := loadSegments_succ h
    · rw [hr] at hread
      exact (ih h).trans hread
    · rw [hr] at hread
      exact (ih h).trans ((loaduvm_inode hl).trans hread)

end

/-- `iunlockput` of an inode that is linked, or that somebody else holds, frees nothing. -/
theorem iunlockput_data {fs fs' : Files} {i : Nat} (h : iunlockput fs (some i) = .ok fs')
    (hheld : (fs.inode i).nlink ≠ 0 ∨ (fs.inode i).ref ≠ 1) (j : Nat) :
    (fs'.inode j).data = (fs.inode j).data := by
  obtain ⟨fs1, hu, h⟩ := Lib.bind_eq_ok.mp h
  obtain rfl := iunlock_eq hu
  simp only [iput, Files.setInode, update_self] at h
  rw [if_neg (by decide), if_neg (by omega)] at h
  cases h
  by_cases hj : j = i
  · subst hj
    simp
  · simp [update_of_ne hj]

theorem exec_data {k k' : Kernel} {p : Fin NPROC} {i : Nat} {path : List UInt8}
    {argv : List (List UInt8)} {slept : Nat → Bool}
    (hheld : (k.fs.inode i).nlink ≠ 0 ∨ (k.fs.inode i).ref ≠ 0)
    (h : exec k p (some i) path argv slept = .ok (true, k')) (j : Nat) :
    (k'.fs.inode j).data = (k.fs.inode j).data := by
  cases exec_replaced h with
  | @replaced fs fs' m m1 m' d d' l sz sp _ hl hput _ _ =>
    have hinode := hl.inode
    have hsame : l.fs.inode = fs.inode := loadSegments_inode hl.load
    have hkept : (l.fs.inode i).nlink ≠ 0 ∨ (l.fs.inode i).ref ≠ 1 := by
      rw [hsame, hinode, update_self]
      dsimp only
      omega
    change (fs'.inode j).data = _
    rw [iunlockput_data hput hkept j, hsame, hinode]
    by_cases hj : j = i
    · rw [hj, update_self]
    · rw [update_of_ne hj]

section
variable {k k' : Kernel} {p : Fin NPROC} {is : List (Fin MAX_WMMAP_INFO)}

theorem unmapAll_unloaded (hz : ∀ i ∈ (k.proc p).wmap.active, ((k.proc p).wmap.slot i).nLoaded = 0)
    (h : unmapAll p is k = .ok k') : k'.fs = k.fs := by
  induction is generalizing k with
  | nil =>
    cases h
    rfl
  | cons i is ih =>
    rw [unmapAll] at h
    dsimp only at h
    split at h
    · exact ih hz h
    obtain ⟨⟨b, k1⟩, hw, hrest⟩ := Lib.bind_eq_ok.mp h
    rcases wunmap_cases hw with ⟨-, -, rfl⟩ | ⟨-, -, -, rfl⟩ | ⟨-, j, k2, hs, hu, hk⟩
    · exact ih hz hrest
    · exact ih hz hrest
    have hj := hz j (startsAt_some hs).1
    rw [unmapPages, if_neg (by omega)] at hu
    cases hu
    rw [if_pos rfl] at hk
    subst hk
    refine ih (k := k.dropRegion p j) (fun j' hj' => ?_) hrest
    rw [Kernel.dropRegion, proc_setProc_self] at hj' ⊢
    rw [active_update_empty, Finset.mem_erase] at hj'
    rw [slot_update_ne hj'.1]
    exact hz j' hj'.2

/-- The loop of `exit` does nothing to a table without regions in the slots to come. -/
theorem unmapAll_empty (h : ∀ i ∈ is, ((k.proc p).wmap.slot i).isEmpty = true) :
    unmapAll p is k = .ok k := by
  induction is with
  | nil => rfl
  | cons i is ih =>
    rw [unmapAll, if_pos (h i (by simp))]
    exact ih fun j hj => h j (by simp [hj])

end

/-- What `exit` would have done to the mappings of `p`: the file behind every writable
region is as the loop of `exit` leaves it, and every region counts the pages that it has in
the page directory. -/
structure DropsMappings (k : Kernel) (p : Fin NPROC) (k' : Kernel) : Prop where
  written : ∀ k1, unmapAll p (List.finRange MAX_WMMAP_INFO) k = .ok k1 →
    ∀ i ∈ (k.proc p).wmap.active, ∀ f ino, WritesTo k p i f ino →
      (k'.fs.inode ino).data = (k1.fs.inode ino).data
  counted : ∀ i ∈ (k'.proc p).wmap.active, ((k'.proc p).wmap.slot i).nLoaded =
    ((k'.proc p).wmap.slot i).pages.countP fun v => ((k'.proc p).pgdir.entry v).p

section
variable {k k' : Kernel} {p : Fin NPROC} {i : Nat} {path : List UInt8} {argv : List (List UInt8)}
  {slept : Nat → Bool}

/-- There are not enough frames for an image that reaches the mapping window. -/
theorem Replaced.absent {m : Machine} {d : PgDir} {sz : Nat} {xs : List Frame}
    (h : Replaced k p k' m d sz xs) (hnodup : k.mach.kmem.freelist.Nodup)
    (hphys : ∀ x ∈ k.mach.kmem.freelist, x < 0xE000) {v : Nat} (hlo : 0x60000 ≤ v) (hhi : v < 0x80000) :
    (d.entry v).p = false := by
  have hfree := h.built.free
  rw [Kmem.free] at hfree
  have hle : (xs : Multiset Frame) ≤ k.mach.kmem.freelist := by
    rw [hfree]
    exact (le_add_left _ _).trans (le_add_right _ _)
  have hxs : xs.Nodup := coe_nodup.mp (nodup_of_le hle (coe_nodup.mpr hnodup))
  have hcard : xs.toFinset ⊆ Finset.range 0xE000 := by
    intro x hx
    rw [List.mem_toFinset] at hx
    exact Finset.mem_range.mpr (hphys x (mem_coe.mp (mem_of_le hle hx)))
  have hlen := Finset.card_le_card hcard
  rw [List.toFinset_card_of_nodup hxs, Finset.card_range] at hlen
  rw [← Bool.not_eq_true, h.built.present v hhi]
  omega

/-- A successful `exec` agrees with `exit` on the mappings exactly when no region counts a
loaded page. The file that is executed is linked or open, as one that `namei` finds is. -/
theorem exec_drops_iff (hok : (k.proc p).wmap.Ok) (hnodup : k.mach.kmem.freelist.Nodup)
    (hphys : ∀ x ∈ k.mach.kmem.freelist, x < 0xE000)
    (hheld : (k.fs.inode i).nlink ≠ 0 ∨ (k.fs.inode i).ref ≠ 0)
    (h : exec k p (some i) path argv slept = .ok (true, k')) :
    DropsMappings k p k' ↔ ∀ j ∈ (k.proc p).wmap.active, ((k.proc p).wmap.slot j).nLoaded = 0 := by
  rcases exec_spec h with ⟨hb, -⟩ | ⟨-, m, d, sz, xs, hr⟩
  · cases hb
  obtain ⟨name, tf, hk⟩ := hr.eq
  have hself : k'.proc p = { k.proc p with name := name, pgdir := d, sz := sz, tf := tf } := by
    rw [hk, Kernel.proc_setProc_self]
  -- the table is the old one, and none of its pages is in the new directory
  have hnone : ∀ j ∈ (k.proc p).wmap.active,
      (((k.proc p).wmap.slot j).pages.countP fun v => (d.entry v).p) = 0 := by
    intro j hj
    rw [List.countP_eq_zero]
    intro v hv
    obtain ⟨hlo, hhi⟩ := (hok j hj).pages_window hv
    rw [hr.absent hnodup hphys hlo hhi]
    decide
  constructor
  · intro hd j hj
    have hcount := hd.counted j (by rw [hself]; exact hj)
    rw [hself] at hcount
    rw [hcount, hnone j hj]
    rfl
  · intro hz
    refine ⟨fun k1 h1 j hj f ino hw => ?_, fun j hj => ?_⟩
    · rw [exec_data hheld h, unmapAll_unloaded hz h1]
    · rw [hself] at hj ⊢
      rw [hnone j hj, hz j hj]
      rfl

end

/-- The program, and as inode 3 a file of one byte that is open for reading and writing. -/
def mappedFiles : Files :=
  (programFiles.setInode 3 { type := 2, nlink := 1, ref := 1, data := [7] }).setFile 0
    { type := .inode, ref := 1, readable := true, writable := true, ip := some 3 }

/-- `initproc` runs with the file mapped by a region of one page, of which `n` are loaded. -/
def Kernel.mappingFile (k : Kernel) (km : Kmem) (d : PgDir) (n : Int) : Kernel :=
  { k with mach := { k.mach with kmem := km } }.setProc 0
    { k.proc 0 with
      state := .running
      ofile := update (fun _ => none) 1 (some 0)
      pgdir := d
      wmap := Wmap.init.update 0 ⟨0x60000000, 4096, n, true, 1⟩ 1 }

section
variable {k : Kernel} {x s : Frame} {km : Kmem} {d : PgDir} {n : Int}

theorem Kernel.proc_mappingFile : (k.mappingFile km d n).proc 0 = { k.proc 0 with
    state := .running
    ofile := update (fun _ => none) 1 (some 0)
    pgdir := d
    wmap := Wmap.init.update 0 ⟨0x60000000, 4096, n, true, 1⟩ 1 } := proc_setProc_self ..

theorem Kernel.slot_mappingFile : ((k.mappingFile km d n).proc 0).wmap.slot 0 =
    ⟨0x60000000, 4096, n, true, 1⟩ := by
  rw [proc_mappingFile]
  exact slot_update_self ..

theorem Kernel.slot_mappingFile_ne {i : Fin MAX_WMMAP_INFO} (hi : i ≠ 0) :
    ((k.mappingFile km d n).proc 0).wmap.slot i = Region.empty := by
  rw [proc_mappingFile]
  exact slot_update_ne hi

theorem Kernel.active_mappingFile {i : Fin MAX_WMMAP_INFO}
    (hi : i ∈ ((k.mappingFile km d n).proc 0).wmap.active) : i = 0 := by
  by_contra hne
  rw [mem_active, slot_mappingFile_ne hne] at hi
  cases hi

theorem Kernel.ok_mappingFile : ((k.mappingFile km d n).proc 0).wmap.Ok := by
  rw [proc_mappingFile]
  exact ok_single (by decide) (by decide)

section
variable (hb : Booted pcImage pcImage.frames mappedFiles 1 k x s)
include hb

theorem Booted.inode_mapped : k.fs.inode 2 = { type := 2, nlink := 1, data := program } ∧
      k.fs.inode 3 = { type := 2, nlink := 1, ref := 1, data := [7] } := by
  rw [hb.fs]
  exact ⟨rfl, rfl⟩

theorem Booted.writesTo_mapped : WritesTo (k.mappingFile km d n) 0 0 0 3 := by
  have hfile : k.fs.file 0 =
      { type := .inode, ref := 1, readable := true, writable := true, ip := some 3 } := by
    rw [hb.fs]
    rfl
  refine ⟨by rw [slot_mappingFile], ?_, ?_, ?_, ?_, ?_⟩
  · rw [slot_mappingFile, proc_mappingFile]
    rfl
  · exact congrArg File.writable hfile
  · exact congrArg File.type hfile
  · exact congrArg File.ip hfile
  · change (k.fs.inode 3).type ≠ 3
    rw [hb.inode_mapped.2]
    decide

theorem Booted.exec_mapped
    (hfree : 1030 ≤ km.free.card) (hold : Freeable { k.mach with kmem := km } d) (n : Int) :
    ∃ k', exec (k.mappingFile km d n) 0 (some 2) [] [] (fun _ => false) = .ok (true, k') := by
  have hinode := hb.inode_mapped.1
  refine exec_total (k := k.mappingFile km d n) [] _ (execSound_of_inode hinode hfree) ?_ ?_
  · change (k.fs.inode 2).locked = false
    rw [hinode]
  · rw [proc_mappingFile]
    exact hold

/-- What `exit` does with the region when its page is loaded: the file grows to a page. -/
theorem Booted.unmapAll_mapped (km : Kmem) {y : Frame}
    (hentry : d.entry 0x60000 = Pte.make y { w := true, u := true, p := true })
    (hy : pcImage.kend ≤ y ∧ y < 0xE000) :
    ∃ k1, unmapAll 0 (List.finRange MAX_WMMAP_INFO) (k.mappingFile km d 1) = .ok k1 ∧
      (k1.fs.inode 3).data[1]? ≠ none := by
  have hw : WritesTo (k.mappingFile km d 1) 0 0 0 3 := hb.writesTo_mapped
  have hslot : ((k.mappingFile km d 1).proc 0).wmap.slot 0 = ⟨0x60000000, 4096, 1, true, 1⟩ :=
    slot_mappingFile
  have hpages : (((k.mappingFile km d 1).proc 0).wmap.slot 0).pages = [0x60000] := by
    rw [hslot]
    decide
  have hdir : ((k.mappingFile km d 1).proc 0).pgdir = d := by rw [proc_mappingFile]
  have htotal : ((k.mappingFile km d 1).proc 0).wmap.total ≠ 0 := by
    rw [proc_mappingFile]
    exact Int.one_ne_zero
  have hstarts : ((k.mappingFile km d 1).proc 0).wmap.startsAt 0x60000000 = some 0 := by
    rw [proc_mappingFile]
    rfl
  have hinode : (k.mappingFile km d 1).fs.inode 3 = { type := 2, nlink := 1, ref := 1, data := [7] } :=
    hb.inode_mapped.2
  have hkfree : ∃ m, kfreeUnless ((k.mappingFile km d 1).proc 0).wmap.isChild (k.mappingFile km d 1).mach y =
      .ok m := by
    rw [proc_mappingFile]
    refine kfree_total (m := { k.mach with kmem := km }) ?_ hy.2
    rw [show ({ k.mach with kmem := km } : Machine).image = pcImage from hb.image]
    exact hy.1
  obtain ⟨k1, hcall⟩ := wunmap_loaded_page hslot htotal hstarts hw (by rw [hinode]) (by rw [hinode])
    (hdir ▸ hentry) rfl (Nat.ne_of_gt (pcImage.kend_pos.trans_le hy.1)) hkfree
  have hloaded : (k.mappingFile km d 1).RegionLoaded 0 0 := by
    refine ⟨ok_mappingFile 0 ?_, htotal, fun _ _ _ => by rw [hslot]; decide, fun _ u hu v hv _ _ _ => ?_⟩
    · rw [mem_active, hslot]
      rfl
    · rw [hpages, List.mem_singleton] at hu hv
      rw [hu, hv]
  have hdata := (wunmap_data hloaded hw hstarts hcall 1).1 ⟨by rw [hpages, hslot]; decide, by
    rw [hslot, hdir]
    change (d.entry 0x60000).p = true
    rw [hentry]
    rfl⟩
  -- the other slots are empty, before and after
  have hrest : ∀ i ∈ (List.finRange MAX_WMMAP_INFO).tail, ((k1.proc 0).wmap.slot i).isEmpty = true := by
    intro i hi
    have hne : i ≠ 0 := by
      rintro rfl
      exact absurd hi (by decide)
    obtain ⟨done, hu, -⟩ := wunmap_spec ok_mappingFile hcall
    rcases hu.slot i with h | h
    · rw [h, slot_mappingFile_ne hne]
      rfl
    · rw [h]
      rfl
  refine ⟨k1, ?_, by rw [hdata]; simp⟩
  change unmapAll 0 (0 :: (List.finRange MAX_WMMAP_INFO).tail) (k.mappingFile km d 1) = _
  rw [unmapAll]
  dsimp only
  rw [hslot, if_neg (by decide)]
  exact Lib.bind_eq_ok.mpr ⟨_, hcall, unmapAll_empty hrest⟩

/-- Frames that `initproc` has taken from the free list for its page tables. -/
theorem Booted.frames_of_le
    (hle : km.free + d.frames ≤ k.mach.kmem.free + (k.proc 0).pgdir.frames) :
    km.freelist.Nodup ∧ ∀ y ∈ km.free + d.frames, pcImage.kend ≤ y ∧ y < 0xE000 := by
  have hall : km.free + d.frames ≤
      k.mach.kmem.free + (k.proc 0).pgdir.frames + k.kpgdir.frames + {s} + {x} :=
    hle.trans (((le_add_right _ _).trans (le_add_right _ _)).trans
      (le_add_right _ _))
  refine ⟨coe_nodup.mp (nodup_of_le ?_ hb.nodup), fun y hy =>
    hb.range (mem_of_le hall hy)⟩
  exact (le_add_right _ _).trans hall

/-- The directory of `initproc` with the page of the region mapped in a frame `y`. -/
theorem Booted.exists_page :
    ∃ d km y, km.free + d.frames ≤ k.mach.kmem.free + (k.proc 0).pgdir.frames ∧
      1030 ≤ km.free.card ∧ d.entry 0x60000 = Pte.make y { w := true, u := true, p := true } ∧
      (pcImage.kend ≤ y ∧ y < 0xE000) ∧ Freeable { k.mach with kmem := km } d := by
  have hcard := hb.memory
  obtain ⟨y, km0, halloc⟩ := kalloc_total (by omega : 0 < k.mach.kmem.free.card)
  have hfree0 : k.mach.kmem.free = y ::ₘ km0.free := by
    rw [Kmem.free, (kalloc_some halloc).1]
    rfl
  have hy : pcImage.kend ≤ y ∧ y < 0xE000 := hb.range (by simp [hfree0])
  rw [hfree0, card_cons] at hcard
  have hne : km0.freelist ≠ [] := by
    rw [← List.length_pos_iff]
    have : km0.free.card = km0.freelist.length := coe_card _
    omega
  have habsent : ((k.proc 0).pgdir.entry (0x60000000 / 4096)).p = false := by
    rw [hb.space.entry _ (by decide), if_neg (by decide)]
    rfl
  obtain ⟨d, km, hmap⟩ := mappages_page_of_free y { w := true, u := true, p := true }
    (by decide : 0x60000000 < 0x100000000) (by decide) hne habsent
  obtain ⟨hext, -, -, hentry⟩ := mappages_page_ok (by decide) (by decide) hmap
  have hle : km.free + d.frames ≤ k.mach.kmem.free + (k.proc 0).pgdir.frames := by
    rw [← hext.balance, hfree0]
    exact add_le_add (le_cons_self _ _) le_rfl
  have hrange := (hb.frames_of_le hle).2
  have himage : ({ k.mach with kmem := km } : Machine).image = pcImage := hb.image
  refine ⟨d, km, y, hle, ?_, (hentry _).trans (if_pos rfl), hy, fun v hv hp => ?_, fun z hz _ => ?_, ?_⟩
  · have hsum := congrArg Multiset.card hext.balance
    have := d.card_frames_le
    simp only [card_add] at hsum
    omega
  · have hframe : pcImage.kend ≤ (d.entry v).ppn ∧ (d.entry v).ppn < 0xE000 := by
      rw [hentry v] at hp ⊢
      split_ifs at hp ⊢ with h1
      · exact hy
      · rw [(hb.maps ⟨hb.page.live, hv, hp, rfl⟩).2.2]
        exact hb.range (by simp)
    rw [himage]
    exact ⟨Nat.ne_of_gt (pcImage.kend_pos.trans_le hframe.1), fun _ => hframe⟩
  · rw [himage]
    exact hrange z (by simp [PgDir.frames, hz])
  · rw [himage]
    exact hrange _ (by simp [PgDir.frames])

end

end

/-- A process whose region has no page loaded runs the program. -/
theorem exec_drops_unloaded : ∃ k k', exec k 0 (some 2) [] [] (fun _ => false) = .ok (true, k') ∧
    WritesTo k 0 0 0 3 ∧ DropsMappings k 0 k' := by
  obtain ⟨k, x, s, -, hb⟩ := exists_booted mappedFiles 1
  have hmem := hb.memory
  obtain ⟨hnodup, hrange⟩ := hb.frames_of_le (le_refl (k.mach.kmem.free + (k.proc 0).pgdir.frames))
  obtain ⟨k', hexec⟩ := hb.exec_mapped (by omega : 1030 ≤ k.mach.kmem.free.card) hb.freeable 0
  have hlink : ((k.mappingFile k.mach.kmem (k.proc 0).pgdir 0).fs.inode 2).nlink ≠ 0 := by
    change (k.fs.inode 2).nlink ≠ 0
    rw [hb.inode_mapped.1]
    decide
  refine ⟨_, k', hexec, hb.writesTo_mapped, (exec_drops_iff Kernel.ok_mappingFile hnodup
    (fun y hy => (hrange y (Multiset.mem_add.mpr (Or.inl hy))).2) (Or.inl hlink) hexec).mpr
    fun j hj => ?_⟩
  rw [Kernel.active_mappingFile hj, Kernel.slot_mappingFile]

/-- A process whose region has its page loaded runs the program. `exit` would have written the
page to the file; `exec` leaves the file alone, and the region counts a page that is gone. -/
theorem exec_loses_page : ∃ k k1 k', exec k 0 (some 2) [] [] (fun _ => false) = .ok (true, k') ∧
    (k.proc 0).wmap.Ok ∧ k.mach.kmem.freelist.Nodup ∧ (∀ y ∈ k.mach.kmem.freelist, y < 0xE000) ∧
    (k.fs.inode 2).nlink ≠ 0 ∧ WritesTo k 0 0 0 3 ∧ ((k.proc 0).pgdir.entry 0x60000).p = true ∧
    unmapAll 0 (List.finRange MAX_WMMAP_INFO) k = .ok k1 ∧
    (k'.fs.inode 3).data ≠ (k1.fs.inode 3).data ∧ ((k'.proc 0).wmap.slot 0).nLoaded = 1 ∧
    ((k'.proc 0).pgdir.entry 0x60000).p = false ∧ ¬ DropsMappings k 0 k' := by
  obtain ⟨k, x, s, -, hb⟩ := exists_booted mappedFiles 1
  obtain ⟨d, km, y, hle, hfree, hentry, hy, hold⟩ := hb.exists_page
  obtain ⟨hnodup, hrange⟩ := hb.frames_of_le hle
  have hphys : ∀ z ∈ (k.mappingFile km d 1).mach.kmem.freelist, z < 0xE000 := fun z hz =>
    (hrange z (Multiset.mem_add.mpr (Or.inl hz))).2
  have hlink : ((k.mappingFile km d 1).fs.inode 2).nlink ≠ 0 := by
    change (k.fs.inode 2).nlink ≠ 0
    rw [hb.inode_mapped.1]
    decide
  obtain ⟨k', hexec⟩ := hb.exec_mapped hfree hold 1
  obtain ⟨k1, hexit, hgrown⟩ := hb.unmapAll_mapped km hentry hy
  have hw : WritesTo (k.mappingFile km d 1) 0 0 0 3 := hb.writesTo_mapped
  have hdata : (k'.fs.inode 3).data ≠ (k1.fs.inode 3).data := by
    rw [exec_data (Or.inl hlink) hexec]
    change (k.fs.inode 3).data ≠ _
    rw [hb.inode_mapped.2]
    intro h
    rw [← h] at hgrown
    exact hgrown rfl
  have hactive : 0 ∈ ((k.mappingFile km d 1).proc 0).wmap.active := by
    rw [Wmap.mem_active, Kernel.slot_mappingFile]
    rfl
  rcases exec_spec hexec with ⟨hf, -⟩ | ⟨-, m, d', sz, xs, hr⟩
  · cases hf
  obtain ⟨name, tf, hk⟩ := hr.eq
  have hself : (k'.proc 0).wmap = ((k.mappingFile km d 1).proc 0).wmap ∧ (k'.proc 0).pgdir = d' := by
    rw [hk, Kernel.proc_setProc_self]
    exact ⟨rfl, rfl⟩
  refine ⟨_, k1, k', hexec, Kernel.ok_mappingFile, hnodup, hphys, hlink, hw, ?_, hexit, hdata, ?_, ?_,
    fun hd => hdata (hd.written k1 hexit 0 hactive 0 3 hw)⟩
  · rw [Kernel.proc_mappingFile]
    change (d.entry 0x60000).p = true
    rw [hentry]
    rfl
  · rw [hself.1, Kernel.slot_mappingFile]
  · rw [hself.2]
    exact hr.absent hnodup hphys (by decide) (by decide)

end Xv6
