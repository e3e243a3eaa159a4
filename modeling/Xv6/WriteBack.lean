import Xv6.LazyLoad

/-!
What `wunmap` writes to the file behind a region. Every loaded page goes to the file as a
whole, so the file grows when it ends inside a loaded page, and bytes behind the end of the
region are written as well.
-/

namespace Xv6

open Lib Files Machine Kernel

variable {fs : Files} {a addr : Nat} {x : Frame} {pte : Pte}

/-- Region `i` of process `p` is backed by the open file `f`, which is writable and a
regular file with inode `ino`. -/
structure WritesTo (k : Kernel) (p : Fin NPROC) (i : Fin MAX_WMMAP_INFO) (f ino : Nat) : Prop where
  backed : ((k.proc p).wmap.slot i).fileBacked = true
  fd : (k.proc p).fdget ((k.proc p).wmap.slot i).fd = .ok (some f)
  writable : (k.fs.file f).writable = true
  type : (k.fs.file f).type = .inode
  ip : (k.fs.file f).ip = some ino
  regular : (k.fs.inode ino).type ≠ 3

def Files.seek (fs : Files) (f off : Nat) : Files := fs.setFile f { fs.file f with off := off }

theorem Files.file_seek (fs : Files) (f off : Nat) :
    (fs.seek f off).file f = { fs.file f with off := off } := Function.update_self ..

theorem Machine.length_page (m : Machine) (x : Frame) : (m.page x).length = 4096 := by
  rw [Machine.page, List.length_map, List.length_range]

theorem Machine.getElem?_page (m : Machine) (x : Frame) {j : Nat} (hj : j < 4096) :
    (m.page x)[j]? = some (m.mem x j) := by
  rw [Machine.page, List.getElem?_map, List.getElem?_range hj]
  rfl

def Kernel.mappedByte (k : Kernel) (p : Fin NPROC) (va : Nat) : UInt8 :=
  k.mach.mem ((k.proc p).pgdir.entry (va / 4096)).ppn (va % 4096)

section
variable {k k' : Kernel} {p : Fin NPROC} {i : Fin MAX_WMMAP_INFO} {f ino v : Nat}

theorem WritesTo.same (h : WritesTo k p i f ino) (hfs : k.fs.Same fs)
    (htype : (fs.inode ino).type = (k.fs.inode ino).type) (hk : k'.fs = fs)
    (hwmap : (k'.proc p).wmap = (k.proc p).wmap) (hofile : (k'.proc p).ofile = (k.proc p).ofile)
    (hkilled : (k'.proc p).killed = (k.proc p).killed) : WritesTo k' p i f ino := by
  obtain ⟨h1, h2, h3, h4, h5, h6⟩ := h
  have hfile := hfs.file f
  refine ⟨by rw [hwmap]; exact h1, ?_, ?_, ?_, ?_, ?_⟩
  · rw [hwmap]
    unfold Proc.fdget at h2 ⊢
    rw [hofile, hkilled]
    exact h2
  · rw [hk]
    exact (congrArg File.writable hfile).trans h3
  · rw [hk]
    exact (congrArg File.type hfile).trans h4
  · rw [hk]
    exact (congrArg File.ip hfile).trans h5
  · rw [hk, htype]
    exact h6

section
variable (hw : WritesTo k p i f ino) (haddr : ((k.proc p).wmap.slot i).addr ≤ a)
  (ha : a < 0x100000000)
include hw haddr ha

theorem writeBack_eq : writeBack p i k a x =
      writeChunks 3 (k.fs.seek f (a - ((k.proc p).wmap.slot i).addr)) f (k.mach.page x) := by
  have hoff : (a + 0x100000000 - ((k.proc p).wmap.slot i).addr) % 0x100000000 =
      a - ((k.proc p).wmap.slot i).addr := by omega
  unfold writeBack
  dsimp only
  rw [if_pos hw.backed, hw.fd, hoff]
  change filewrite (k.fs.seek f (a - ((k.proc p).wmap.slot i).addr)) f (k.mach.page x) = _
  unfold filewrite
  rw [file_seek, if_neg (by rw [hw.writable]; decide), hw.type, length_page]

theorem writeBack_overwrites (h : writeBack p i k a x = .ok (true, fs)) :
    (fs.inode ino).type = (k.fs.inode ino).type ∧ Overwritten (k.fs.inode ino).data
      (a - ((k.proc p).wmap.slot i).addr) (k.mach.page x) (fs.inode ino).data := by
  rw [writeBack_eq hw haddr ha] at h
  have hregular : ((k.fs.seek f (a - ((k.proc p).wmap.slot i).addr)).inode ino).type ≠ 3 := hw.regular
  have hchunks := writeChunks_overwrites (by rw [file_seek]; exact hw.ip) hregular h
  rw [file_seek] at hchunks
  exact hchunks

end

section
variable {a : Nat} (x : Frame) (hw : WritesTo k p i f ino) (href : 1 ≤ (k.fs.inode ino).ref)
  (hlock : (k.fs.inode ino).locked = false) (haddr : ((k.proc p).wmap.slot i).addr ≤ a)
  (ha : a < 0x100000000)
include hw href hlock haddr ha

theorem writeBack_total (hsize : a - ((k.proc p).wmap.slot i).addr ≤ (k.fs.inode ino).data.length)
    (hmax : a - ((k.proc p).wmap.slot i).addr + 4096 ≤ 71680) :
    ∃ fs, writeBack p i k a x = .ok (true, fs) ∧
      (fs.inode ino).ref = (k.fs.inode ino).ref ∧ (fs.inode ino).locked = false := by
  have hregular : ((k.fs.seek f (a - ((k.proc p).wmap.slot i).addr)).inode ino).type ≠ 3 := hw.regular
  rw [writeBack_eq hw haddr ha]
  exact writeChunks_total (by rw [file_seek]; exact hw.ip) hregular href hlock
    (by rw [file_seek]; exact hsize) (by rw [file_seek, length_page]; exact hmax)
    (by rw [length_page]; decide)

end

theorem unmapPage_ok {m : Machine} (hz : pte.ppn ≠ 0)
    (hwrite : writeBack p i k a pte.ppn = .ok (true, fs))
    (hfree : kfreeUnless (k.proc p).wmap.isChild k.mach pte.ppn = .ok m) :
    unmapPage p i k a pte = .ok ({ k with mach := m, fs := fs }.setProc p
      { k.proc p with pgdir := (k.proc p).pgdir.setPte a Pte.zero }, true) := by
  unfold unmapPage
  rw [if_neg hz]
  refine bind_eq_ok.mpr ⟨(true, fs), hwrite, ?_⟩
  dsimp only
  rw [if_pos rfl]
  exact bind_eq_ok.mpr ⟨m, hfree, rfl⟩

theorem wunmap_of_pages {k1 : Kernel} {b : Bool} (htotal : (k.proc p).wmap.total ≠ 0)
    (hs : (k.proc p).wmap.startsAt addr = some i)
    (h : unmapPages k p addr (addInt addr ((k.proc p).wmap.slot i).length) i = .ok (k1, b)) :
    wunmap k p addr = .ok (b, if b then k1.dropRegion p i else k1) := by
  unfold wunmap
  rw [if_neg htotal, hs]
  refine bind_eq_ok.mpr ⟨_, h, ?_⟩
  cases b with
  | true => rfl
  | false => rfl

theorem unmapPage_writes (hw : WritesTo k p i f ino) (hv : v < 0x100000)
    (haddr : ((k.proc p).wmap.slot i).addr ≤ v * 4096)
    (hp : ((k.proc p).pgdir.entry v).p = true)
    (h : unmapPage p i k (v * 4096) ((k.proc p).pgdir.entry v) = .ok (k', true)) :
    WritesTo k' p i f ino ∧ Overwritten (k.fs.inode ino).data
      (v * 4096 - ((k.proc p).wmap.slot i).addr) (k.mach.page ((k.proc p).pgdir.entry v).ppn)
      (k'.fs.inode ino).data := by
  have hun := unmapPage_spec hv hp h
  have hwmap := (wmap_unmapPage h).1
  unfold unmapPage at h
  split at h
  · cases h
  obtain ⟨⟨ok, fs⟩, hb, h⟩ := bind_eq_ok.mp h
  dsimp only at h
  split at h
  · rename_i hok
    subst hok
    obtain ⟨m, -, h⟩ := bind_eq_ok.mp h
    obtain ⟨htype, hdata⟩ := writeBack_overwrites hw haddr (by omega) hb
    have hself := hun.proc_self
    have hfs : k'.fs = fs := by
      cases h
      rfl
    refine ⟨hw.same (writeBack_same hb) htype hfs hwmap ?_ ?_, ?_⟩
    · rw [hself]
    · rw [hself]
    · rw [hfs]
      exact hdata
  · cases h

/-- The page loop writes every present page, with the bytes it had when the loop began. -/
theorem visit_writes {vs : List Nat} (hw : WritesTo k p i f ino)
    (haddr : ((k.proc p).wmap.slot i).addr = addr) (hal : addr % 4096 = 0)
    (hvs : ∀ v ∈ vs, addr ≤ v * 4096 ∧ v < 0x100000)
    (hdist : (k.proc p).wmap.isChild = false → ∀ u ∈ vs, ∀ v ∈ vs,
      ((k.proc p).pgdir.entry u).p = true → ((k.proc p).pgdir.entry v).p = true →
      ((k.proc p).pgdir.entry u).ppn = ((k.proc p).pgdir.entry v).ppn → u = v)
    (h : visit (fun k => (k.proc p).pgdir) (unmapPage p i) vs k = .ok (k', true)) (o : Nat) :
    (k'.fs.inode ino).data[o]? =
      if (addr + o) / 4096 ∈ vs ∧ ((k.proc p).pgdir.entry ((addr + o) / 4096)).p = true
      then some (k.mappedByte p (addr + o)) else (k.fs.inode ino).data[o]? := by
  induction vs generalizing k with
  | nil =>
    cases h
    rw [if_neg]
    simp
  | cons v vs ih =>
    obtain ⟨hge, hlt⟩ := hvs v List.mem_cons_self
    have hrest : ∀ u ∈ vs, addr ≤ u * 4096 ∧ u < 0x100000 := fun u hu => hvs u (List.mem_cons_of_mem v hu)
    rw [visit] at h
    split at h
    · rename_i hp
      obtain ⟨⟨k1, go⟩, hb, h⟩ := bind_eq_ok.mp h
      dsimp only at h
      split at h
      · rename_i hgo
        subst hgo
        have hun := unmapPage_spec hlt hp hb
        have hwmap := (wmap_unmapPage hb).1
        obtain ⟨hw1, hdata⟩ := unmapPage_writes hw hlt (by rw [haddr]; exact hge) hp hb
        have hgone : ((k1.proc p).pgdir.entry v).p = false := hun.cleared.cleared v List.mem_cons_self
        have hkept : ∀ u, u ≠ v → (k1.proc p).pgdir.entry u = (k.proc p).pgdir.entry u := fun u hu =>
          hun.cleared.kept u (by simpa using hu)
        have hdist1 : (k1.proc p).wmap.isChild = false → ∀ a ∈ vs, ∀ b ∈ vs,
            ((k1.proc p).pgdir.entry a).p = true → ((k1.proc p).pgdir.entry b).p = true →
            ((k1.proc p).pgdir.entry a).ppn = ((k1.proc p).pgdir.entry b).ppn → a = b := by
          intro hc a ha b hb pa pb he
          have hav : a ≠ v := fun e => by rw [e, hgone] at pa; cases pa
          have hbv : b ≠ v := fun e => by rw [e, hgone] at pb; cases pb
          rw [hkept a hav] at pa he
          rw [hkept b hbv] at pb he
          rw [hwmap] at hc
          exact hdist hc a (List.mem_cons_of_mem v ha) b (List.mem_cons_of_mem v hb) pa pb he
        rw [ih hw1 (by rw [hwmap]; exact haddr) hrest hdist1 h, hdata o, length_page, haddr]
        by_cases hu : (addr + o) / 4096 = v
        · rw [hu, if_neg (by rw [hgone]; simp), if_pos (by omega), Machine.getElem?_page _ _ (by omega),
            if_pos ⟨List.mem_cons_self, hp⟩, Kernel.mappedByte, hu,
            show o - (v * 4096 - addr) = (addr + o) % 4096 by omega]
        rw [hkept _ hu, if_neg (by omega : ¬ (v * 4096 - addr ≤ o ∧ o < v * 4096 - addr + 4096))]
        have hmem : (addr + o) / 4096 ∈ v :: vs ↔ (addr + o) / 4096 ∈ vs :=
          ⟨fun h => (List.mem_cons.mp h).resolve_left hu, List.mem_cons_of_mem v⟩
        simp only [hmem]
        refine if_ctx_congr Iff.rfl (fun hin => ?_) fun _ => rfl
        rw [Kernel.mappedByte, Kernel.mappedByte, hkept _ hu]
        -- the frames freed so far are those of other pages
        refine congrArg some (congrFun (hun.freed.mem _ fun hfreed => ?_) _)
        split at hfreed
        · exact Multiset.notMem_zero _ hfreed
        · rename_i hc
          have hppn : ((k.proc p).pgdir.entry ((addr + o) / 4096)).ppn = ((k.proc p).pgdir.entry v).ppn :=
            List.mem_singleton.mp (Multiset.mem_coe.mp hfreed)
          exact hu (hdist (Bool.not_eq_true _ ▸ hc) _ (List.mem_cons_of_mem v hin.1) v
            List.mem_cons_self hin.2 hp hppn)
      · cases h
    · rename_i hp
      rw [ih hw haddr hrest ?_ h]
      · have hmem : (addr + o) / 4096 ∈ v :: vs ∧ ((k.proc p).pgdir.entry ((addr + o) / 4096)).p = true ↔
            (addr + o) / 4096 ∈ vs ∧ ((k.proc p).pgdir.entry ((addr + o) / 4096)).p = true := by
          refine and_congr_left fun hpu => ⟨fun hin => (List.mem_cons.mp hin).resolve_left fun e => hp ?_,
            List.mem_cons_of_mem v⟩
          rw [← e]
          exact hpu
        simp only [hmem]
      · exact fun hc a ha b hb => hdist hc a (List.mem_cons_of_mem v ha) b (List.mem_cons_of_mem v hb)

/-- The page of offset `o` of region `i` is loaded. -/
def Kernel.LoadedAt (k : Kernel) (p : Fin NPROC) (i : Fin MAX_WMMAP_INFO) (o : Nat) : Prop :=
  (((k.proc p).wmap.slot i).addr + o) / 4096 ∈ ((k.proc p).wmap.slot i).pages ∧
    ((k.proc p).pgdir.entry ((((k.proc p).wmap.slot i).addr + o) / 4096)).p = true

/-- The loaded pages of the region are counted, and no two of them are one frame that
`kfree` would fill between their write-backs. -/
structure Kernel.RegionLoaded (k : Kernel) (p : Fin NPROC) (i : Fin MAX_WMMAP_INFO) : Prop where
  ok : ((k.proc p).wmap.slot i).Ok
  total : (k.proc p).wmap.total ≠ 0
  counted : ∀ v ∈ ((k.proc p).wmap.slot i).pages, ((k.proc p).pgdir.entry v).p = true →
    0 < ((k.proc p).wmap.slot i).nLoaded
  frames : (k.proc p).wmap.isChild = false → ∀ u ∈ ((k.proc p).wmap.slot i).pages,
    ∀ v ∈ ((k.proc p).wmap.slot i).pages, ((k.proc p).pgdir.entry u).p = true →
    ((k.proc p).pgdir.entry v).p = true →
    ((k.proc p).pgdir.entry u).ppn = ((k.proc p).pgdir.entry v).ppn → u = v

theorem wunmap_data (hloaded : k.RegionLoaded p i) (hw : WritesTo k p i f ino)
    (hs : (k.proc p).wmap.startsAt addr = some i) (h : wunmap k p addr = .ok (true, k')) (o : Nat) :
    (k.LoadedAt p i o → (k'.fs.inode ino).data[o]? = some (k.mappedByte p (addr + o))) ∧
    (¬ k.LoadedAt p i o → (k'.fs.inode ino).data[o]? = (k.fs.inode ino).data[o]?) := by
  obtain ⟨-, haddr⟩ := Wmap.startsAt_some hs
  subst haddr
  have hok := hloaded.ok
  rcases wunmap_cases h with ⟨h0, -⟩ | ⟨-, hnone, -⟩ | ⟨-, j, k1, hs', hu, hk⟩
  · exact (hloaded.total h0).elim
  · rw [hs] at hnone
    cases hnone
  rw [hs] at hs'
  cases hs'
  have hfs : k'.fs = k1.fs := by
    rw [hk]
    rfl
  rw [hfs]
  by_cases hn : 0 < ((k.proc p).wmap.slot i).nLoaded
  · unfold unmapPages at hu
    have hb := hok.bound
    rw [if_pos hn, sweep_eq_visit (by omega) _ _ _ hok.aligned (by omega)] at hu
    have hdata := visit_writes hw rfl hok.aligned (fun v hv => ?_) hloaded.frames hu o
    · refine ⟨fun hl => hdata.trans (if_pos hl), fun hl => hdata.trans (if_neg hl)⟩
    · have := hok.mem_pages.mp hv
      omega
  · have hnot : ¬ k.LoadedAt p i o := fun hl => hn (hloaded.counted _ hl.1 hl.2)
    unfold unmapPages at hu
    rw [if_neg hn] at hu
    cases hu
    exact ⟨fun hl => (hnot hl).elim, fun _ => rfl⟩

theorem wunmap_loaded_page {fd : Int} {e : Pte}
    (hslot : (k.proc p).wmap.slot i = ⟨0x60000000, 4096, 1, true, fd⟩)
    (htotal : (k.proc p).wmap.total ≠ 0) (hs : (k.proc p).wmap.startsAt 0x60000000 = some i)
    (hw : WritesTo k p i f ino) (href : 1 ≤ (k.fs.inode ino).ref)
    (hlock : (k.fs.inode ino).locked = false) (hentry : (k.proc p).pgdir.entry 0x60000 = e)
    (hp : e.p = true) (hz : e.ppn ≠ 0)
    (hfree : ∃ m, kfreeUnless (k.proc p).wmap.isChild k.mach e.ppn = .ok m) :
    ∃ k', wunmap k p 0x60000000 = .ok (true, k') := by
  have hfirst : ((k.proc p).wmap.slot i).addr = 0x60000000 := by rw [hslot]
  have hoff : 0x60000000 - ((k.proc p).wmap.slot i).addr = 0 := by omega
  obtain ⟨fs, hwrite, -⟩ := writeBack_total e.ppn hw href hlock hfirst.le (by decide)
    (by rw [hoff]; exact Nat.zero_le _) (by rw [hoff]; decide)
  obtain ⟨m, hfree⟩ := hfree
  have hpage : unmapPage p i k 0x60000000 e = _ := unmapPage_ok hz hwrite hfree
  generalize Kernel.setProc _ _ _ = k1 at hpage
  have hloop : unmapPages k p 0x60000000 0x60001000 i = .ok (k1, true) := by
    unfold unmapPages
    rw [hslot, if_pos Int.one_pos, sweep_eq_visit (by decide) _ _ _ (by decide) (by decide)]
    change visit _ _ [0x60000] _ = _
    rw [visit, hentry, if_pos hp]
    exact bind_eq_ok.mpr ⟨_, hpage, rfl⟩
  exact ⟨_, wunmap_of_pages htotal hs (by rw [hslot]; exact hloop)⟩

/-- The file has its size, the mapped bytes where pages of the region were loaded, and its
own bytes elsewhere. -/
structure WrittenBack (k : Kernel) (p : Fin NPROC) (i : Fin MAX_WMMAP_INFO) (data data' : List UInt8) :
    Prop where
  size : data'.length = data.length
  mapped : ∀ o, o < data.length → (o : Int) < ((k.proc p).wmap.slot i).length → k.LoadedAt p i o →
    data'[o]? = some (k.mappedByte p (((k.proc p).wmap.slot i).addr + o))
  others : ∀ o : Nat, ¬ ((o : Int) < ((k.proc p).wmap.slot i).length ∧ k.LoadedAt p i o) → data'[o]? = data[o]?

/-- The loaded pages lie inside the file, and show its bytes behind the end of the region. -/
def Kernel.FitsFile (k : Kernel) (p : Fin NPROC) (i : Fin MAX_WMMAP_INFO) (data : List UInt8) : Prop :=
  ∀ o, k.LoadedAt p i o → o < data.length ∧ (((k.proc p).wmap.slot i).length ≤ o →
    data[o]? = some (k.mappedByte p (((k.proc p).wmap.slot i).addr + o)))

theorem wunmap_exact_iff {addr : Nat} (hloaded : k.RegionLoaded p i) (hw : WritesTo k p i f ino)
    (hs : (k.proc p).wmap.startsAt addr = some i) (h : wunmap k p addr = .ok (true, k')) :
    WrittenBack k p i (k.fs.inode ino).data (k'.fs.inode ino).data ↔
      k.FitsFile p i (k.fs.inode ino).data := by
  have hdata := wunmap_data hloaded hw hs h
  obtain ⟨-, haddr⟩ := Wmap.startsAt_some hs
  subst haddr
  refine ⟨fun ⟨hsize, _, hothers⟩ o hl => ?_, fun hfits => ⟨?_, fun o _ _ hl => (hdata o).1 hl, ?_⟩⟩
  · have hbyte := (hdata o).1 hl
    refine ⟨?_, fun hend => ?_⟩
    · rw [← hsize]
      exact (List.getElem?_eq_some_iff.mp hbyte).1
    · rw [← hothers o fun hin => by omega]
      exact hbyte
  · refine Nat.le_antisymm (List.getElem?_eq_none_iff.mp ?_) (List.getElem?_eq_none_iff.mp ?_)
    · rw [(hdata _).2 fun hl => Nat.lt_irrefl _ (hfits _ hl).1]
      exact List.getElem?_eq_none le_rfl
    have hnone : (k'.fs.inode ino).data[(k'.fs.inode ino).data.length]? = none :=
      List.getElem?_eq_none le_rfl
    rw [← (hdata _).2 fun hl => ?_]
    · exact hnone
    · rw [(hdata _).1 hl] at hnone
      cases hnone
  · intro o hnot
    by_cases hl : k.LoadedAt p i o
    · rw [(hdata o).1 hl, (hfits o hl).2 (Int.not_lt.mp fun hlt => hnot ⟨hlt, hl⟩)]
    · exact (hdata o).2 hl

end

/-- Process 0 has descriptor 0 open on a file with the given bytes, and has loaded the page
of its only region, which the file backs. -/
def Kernel.filePage (data : List UInt8) : Kernel :=
  { Kernel.fresh with
    fs := { Kernel.fresh.fs with
      file := fun _ => { type := .inode, ref := 1, readable := true, writable := true, ip := some 1 }
      inode := fun _ => { ref := 1, type := 2, data := data } } }.setProc 0
    { Proc.zero with
      state := .running
      ofile := fun _ => some 0
      pgdir := PgDir.onePage 0x60000 { p := true, w := true, u := true, ppn := 1024 }
      wmap := Wmap.init.update 0 ⟨0x60000000, 4096, 1, true, 0⟩ 1 }

section
variable (data : List UInt8)

theorem Kernel.proc_filePage : (Kernel.filePage data).proc 0 = { Proc.zero with
    state := .running
    ofile := fun _ => some 0
    pgdir := PgDir.onePage 0x60000 { p := true, w := true, u := true, ppn := 1024 }
    wmap := Wmap.init.update 0 ⟨0x60000000, 4096, 1, true, 0⟩ 1 } := proc_setProc_self ..

theorem Kernel.slot_filePage : ((Kernel.filePage data).proc 0).wmap.slot 0 =
    ⟨0x60000000, 4096, 1, true, 0⟩ := by
  rw [proc_filePage]
  exact Wmap.slot_update_self ..

theorem Kernel.entry_filePage (v : Nat) : ((Kernel.filePage data).proc 0).pgdir.entry v =
    if v = 0x60000 then { p := true, w := true, u := true, ppn := 1024 } else Pte.zero := by
  rw [proc_filePage]
  exact PgDir.entry_onePage (v := 0x60000) (by decide) _ v

theorem Kernel.pages_filePage : (((Kernel.filePage data).proc 0).wmap.slot 0).pages = [0x60000] := by
  rw [slot_filePage]
  decide

theorem Kernel.startsAt_filePage :
    ((Kernel.filePage data).proc 0).wmap.startsAt 0x60000000 = some 0 := by
  rw [proc_filePage]
  rfl

theorem Kernel.writesTo_filePage : WritesTo (Kernel.filePage data) 0 0 0 1 := by
  refine ⟨?_, ?_, rfl, rfl, rfl, show 2 ≠ 3 by decide⟩
  · rw [slot_filePage]
  · rw [slot_filePage, proc_filePage]
    rfl

theorem Kernel.regionLoaded_filePage : (Kernel.filePage data).RegionLoaded 0 0 := by
  refine ⟨?_, ?_, fun v _ _ => ?_, fun _ u hu v hv _ _ _ => ?_⟩
  · rw [slot_filePage]
    exact ⟨by decide, by decide, by decide, by decide, by decide, Or.inl (by decide)⟩
  · rw [proc_filePage]
    exact Int.one_ne_zero
  · rw [slot_filePage]
    decide
  · rw [pages_filePage, List.mem_singleton] at hu hv
    rw [hu, hv]

theorem Kernel.loadedAt_filePage {o : Nat} : (Kernel.filePage data).LoadedAt 0 0 o ↔ o < 4096 := by
  unfold Kernel.LoadedAt
  rw [pages_filePage, slot_filePage, entry_filePage, List.mem_singleton]
  dsimp only
  refine ⟨fun h => by omega, fun h => ?_⟩
  have hpage : (0x60000000 + o) / 4096 = 0x60000 := by omega
  rw [hpage, if_pos rfl]
  exact ⟨rfl, rfl⟩

end

theorem wunmap_exact_whole_page :
    ∃ k', wunmap (Kernel.filePage (List.replicate 4096 0)) 0 0x60000000 = .ok (true, k') ∧
      WrittenBack (Kernel.filePage (List.replicate 4096 0)) 0 0 (List.replicate 4096 0)
        (k'.fs.inode 1).data := by
  obtain ⟨⟨b, k'⟩, hcall, rfl⟩ := Lib.exists_ok
    (x := wunmap (Kernel.filePage (List.replicate 4096 0)) 0 0x60000000) (fun r => r.1 = true) (by decide +kernel)
  refine ⟨k', hcall, (wunmap_exact_iff (Kernel.regionLoaded_filePage _) (Kernel.writesTo_filePage _)
    (Kernel.startsAt_filePage _) hcall).mpr fun o ho => ?_⟩
  rw [Kernel.loadedAt_filePage] at ho
  refine ⟨?_, fun hend => ?_⟩
  · change o < (List.replicate 4096 (0 : UInt8)).length
    rw [List.length_replicate]
    exact ho
  · rw [Kernel.slot_filePage] at hend
    change (4096 : Int) ≤ o at hend
    omega

/-- A file of one byte grows to a page. -/
theorem wunmap_grows_file : ∃ k', wunmap (Kernel.filePage [7]) 0 0x60000000 = .ok (true, k') ∧
    ((Kernel.filePage [7]).fs.inode 1).data.length = 1 ∧ (k'.fs.inode 1).data.length ≠ 1 ∧
    (Kernel.filePage [7]).RegionLoaded 0 0 ∧ WritesTo (Kernel.filePage [7]) 0 0 0 1 := by
  obtain ⟨⟨b, k'⟩, hcall, rfl, hlen⟩ := Lib.exists_ok (x := wunmap (Kernel.filePage [7]) 0 0x60000000)
    (fun r => r.1 = true ∧ (r.2.fs.inode 1).data.length ≠ 1) (by decide +kernel)
  exact ⟨k', hcall, rfl, hlen, Kernel.regionLoaded_filePage _, Kernel.writesTo_filePage _⟩

end Xv6
