import Xv6.FileWrite
import Xv6.UnmapFrame
import Xv6.WindowSpec

/-!
What a page fault in a region loads. The page gets a new frame with the bytes of the file,
zero behind its end, unless it is the last page below the kernel or the file ends exactly
where the page begins: then the process is killed.
-/

namespace Xv6

open Function Lib Wmap Kernel

/-- The bytes behind region `i`: those of its file, none for an anonymous region. -/
def Kernel.backing (k : Kernel) (p : Fin NPROC) (i : Fin MAX_WMMAP_INFO) : List UInt8 :=
  if ((k.proc p).wmap.slot i).fileBacked then
    match (k.proc p).fdget ((k.proc p).wmap.slot i).fd with
    | .ok (some f) =>
      match (k.fs.file f).ip with
      | some ino => (k.fs.inode ino).data
      | none => []
    | _ => []
  else []

/-- A file-backed region has an open file that is an inode other than a device, and nobody
has the inode locked. -/
def Kernel.Backed (k : Kernel) (p : Fin NPROC) (i : Fin MAX_WMMAP_INFO) : Prop :=
  ((k.proc p).wmap.slot i).fileBacked = true → ∃ f ino,
    (k.proc p).fdget ((k.proc p).wmap.slot i).fd = .ok (some f) ∧ (k.fs.file f).type = .inode ∧
      (k.fs.file f).ip = some ino ∧ 1 ≤ (k.fs.inode ino).ref ∧ (k.fs.inode ino).locked = false ∧
      (k.fs.inode ino).type ≠ 3

/-- A fault at `va` in region `i`, whose page is not present. -/
structure FaultsIn (k : Kernel) (p : Fin NPROC) (i : Fin MAX_WMMAP_INFO) (va : Nat) : Prop where
  active : i ∈ (k.proc p).wmap.active
  aligned : ((k.proc p).wmap.slot i).addr % 4096 = 0
  window : InWindow ((k.proc p).wmap.slot i).interval
  low : ((k.proc p).wmap.slot i).addr ≤ va
  high : (va : Int) < ((k.proc p).wmap.slot i).addr + ((k.proc p).wmap.slot i).length
  only : ∀ j ∈ (k.proc p).wmap.active, j ≠ i →
    vasIntersect va 1 ((k.proc p).wmap.slot j).addr ((k.proc p).wmap.slot j).length = false
  absent : ((k.proc p).pgdir.entry (va / 4096)).p = false

/-- Page `v` of region `i` is present, in a new frame with the given bytes; no other entry
and no other region has changed. -/
structure PageLoaded (k : Kernel) (p : Fin NPROC) (i : Fin MAX_WMMAP_INFO) (v : Nat)
    (bytes : Nat → UInt8) (k' : Kernel) : Prop where
  page : ∃ x, k.mach.kmem.freelist.head? = some x ∧
    (k'.proc p).pgdir.entry v = { p := true, w := true, u := true, ppn := x } ∧
    (∀ j < 4096, k'.mach.mem x j = bytes j) ∧ ∀ y, y ≠ x → k'.mach.mem y = k.mach.mem y
  entry : ∀ u, u ≠ v → (k'.proc p).pgdir.entry u = (k.proc p).pgdir.entry u
  slot : ∀ j, j ≠ i → (k'.proc p).wmap.slot j = (k.proc p).wmap.slot j
  region : (k'.proc p).wmap.slot i =
    { (k.proc p).wmap.slot i with nLoaded := ((k.proc p).wmap.slot i).nLoaded + 1 }
  others : ∀ q, q ≠ p → k'.proc q = k.proc q

section
variable {k : Kernel} {p : Fin NPROC} {i : Fin MAX_WMMAP_INFO} {va a : Nat}

theorem FaultsIn.range (h : FaultsIn k p i va) : 0x60000000 ≤ va ∧ va < 0x80000000 := by
  have hlow := h.low
  have hhigh := h.high
  have h1 : (0x60000000 : Int) ≤ ((k.proc p).wmap.slot i).addr := h.window.1
  have h2 : (((k.proc p).wmap.slot i).addr : Int) + ((k.proc p).wmap.slot i).length ≤ 0x80000000 :=
    h.window.2.2
  omega

theorem FaultsIn.covering (h : FaultsIn k p i va) : (k.proc p).wmap.covering va = some i := by
  have hlow := h.low
  have hhigh := h.high
  have h2 : (((k.proc p).wmap.slot i).addr : Int) + ((k.proc p).wmap.slot i).length ≤ 0x80000000 :=
    h.window.2.2
  have hself : vasIntersect va 1 ((k.proc p).wmap.slot i).addr ((k.proc p).wmap.slot i).length = true := by
    have hpos : 0 < ((k.proc p).wmap.slot i).length := h.window.2.1
    unfold vasIntersect addInt
    rw [if_neg (by omega), if_neg (by omega)]
  unfold Wmap.covering
  cases hfind : (List.finRange MAX_WMMAP_INFO).find? fun i => !((k.proc p).wmap.slot i).isEmpty &&
      vasIntersect va 1 ((k.proc p).wmap.slot i).addr ((k.proc p).wmap.slot i).length with
  | none =>
    have hnot := List.find?_eq_none.mp hfind i (List.mem_finRange i)
    rw [mem_active.mp h.active, hself] at hnot
    exact (hnot rfl).elim
  | some j =>
    have hj := List.find?_some hfind
    rw [Bool.and_eq_true] at hj
    by_contra hne
    have hij : j ≠ i := fun he => hne (congrArg some he)
    have hactive : j ∈ (k.proc p).wmap.active := mem_active.mpr (Bool.not_eq_true' _ ▸ hj.1)
    rw [h.only j hactive hij] at hj
    cases hj.2

def Kernel.pageOffset (k : Kernel) (p : Fin NPROC) (i : Fin MAX_WMMAP_INFO) (a : Nat) : Nat :=
  a - ((k.proc p).wmap.slot i).addr

def Kernel.Loadable (k : Kernel) (p : Fin NPROC) (i : Fin MAX_WMMAP_INFO) (a : Nat) : Prop :=
  ((k.proc p).wmap.slot i).fileBacked = true → (k.backing p i).length ≠ k.pageOffset p i a

instance (a : Nat) : Decidable (k.Loadable p i a) := inferInstanceAs (Decidable (_ → _))

def Kernel.pageByte (k : Kernel) (p : Fin NPROC) (i : Fin MAX_WMMAP_INFO) (a j : Nat) : UInt8 :=
  (k.backing p i).getD (k.pageOffset p i a + j) 0

/-- What `readi` leaves of a zeroed frame are the zeros behind the end of the file. -/
theorem Kernel.pageByte_of_zero (k : Kernel) (p : Fin NPROC) (i : Fin MAX_WMMAP_INFO) (a : Nat) {j : Nat}
    {c : UInt8} (hc : c = 0) :
    (if k.pageOffset p i a + j < (k.backing p i).length
      then (k.backing p i).getD (k.pageOffset p i a + j) 0 else c) = k.pageByte p i a j := by
  unfold Kernel.pageByte
  split
  · rfl
  · rename_i hge
    rw [hc, List.getD_eq_getElem?_getD, List.getElem?_eq_none (Nat.not_lt.mp hge)]
    rfl

theorem loadPage_backed {x : Frame} (hb : k.Backed p i) (hlow : ((k.proc p).wmap.slot i).addr ≤ a)
    (hhigh : a < 0x80000000) :
    ∃ k', loadPage k p a i x = .ok (decide (k.Loadable p i a), k') ∧
      k'.proc = k.proc ∧ k'.mach.kmem = k.mach.kmem ∧ (∀ y, y ≠ x → k'.mach.mem y = k.mach.mem y) ∧
      ∀ j < 4096, k'.mach.mem x j = if k.pageOffset p i a + j < (k.backing p i).length
        then (k.backing p i).getD (k.pageOffset p i a + j) 0 else k.mach.mem x j := by
  unfold loadPage
  by_cases hfb : ((k.proc p).wmap.slot i).fileBacked = true
  · obtain ⟨f, ino, hfd, -, hip, href, hlock, htype⟩ := hb hfb
    have hbacking : k.backing p i = (k.fs.inode ino).data := by
      unfold Kernel.backing
      rw [if_pos hfb, hfd]
      dsimp only
      rw [hip]
    have hoff : (a + 0x100000000 - ((k.proc p).wmap.slot i).addr) % 0x100000000 = k.pageOffset p i a := by
      unfold Kernel.pageOffset
      omega
    have hofflt : k.pageOffset p i a < 0x80000000 := by
      unfold Kernel.pageOffset
      omega
    let fs1 := k.fs.setInode ino { k.fs.inode ino with locked := true }
    have hino : fs1.inode ino = { k.fs.inode ino with locked := true } := update_self ..
    have hread := readi_page fs1 ino (by rw [hino]; exact htype) hofflt
    rw [hino] at hread
    dsimp only at hread
    have hloadable : k.Loadable p i a ↔ (k.fs.inode ino).data.length ≠ k.pageOffset p i a := by
      rw [← hbacking]
      exact ⟨fun h => h hfb, fun h _ => h⟩
    rw [if_pos hfb, Lib.bind_of_ok hfd, hoff, hbacking]
    have hbytes : ∀ j < 4096, (k.mach.write x 0 (((k.fs.inode ino).data.drop (k.pageOffset p i a)).take
        4096)).mem x j = if k.pageOffset p i a + j < (k.fs.inode ino).data.length
          then (k.fs.inode ino).data.getD (k.pageOffset p i a + j) 0 else k.mach.mem x j := by
      intro j hj
      refine (congrFun (update_self ..) j).trans ?_
      rw [List.length_take, List.length_drop]
      by_cases hlt : k.pageOffset p i a + j < (k.fs.inode ino).data.length
      · rw [if_pos (by omega), if_pos hlt, Nat.sub_zero, List.getD_eq_getElem?_getD,
          List.getElem?_take_of_lt hj, List.getElem?_drop, ← List.getD_eq_getElem?_getD]
      · rw [if_neg (by omega), if_neg hlt]
    have hothers : ∀ bytes y, y ≠ x → (k.mach.write x 0 bytes).mem y = k.mach.mem y := fun bytes y hy =>
      update_of_ne hy ..
    have hunlock := iunlock_ok fs1 ino (by rw [hino]; exact href) (by rw [hino])
    dsimp only
    rw [hip, show ilock k.fs (some ino) = .ok fs1 from ilock_ok _ _ href hlock, Lib.bind_of_ok rfl,
      hread]
    rcases Nat.lt_trichotomy (k.fs.inode ino).data.length (k.pageOffset p i a) with hlt | heq | hgt
    · -- the page lies behind the end of the file
      have hnil : ((k.fs.inode ino).data.drop (k.pageOffset p i a)).take 4096 = [] := by
        rw [List.drop_of_length_le hlt.le, List.take_nil]
      rw [hnil] at hbytes
      rw [if_pos hlt, decide_eq_true (hloadable.mpr (Nat.ne_of_lt hlt))]
      dsimp only
      rw [if_neg (by simp), hunlock]
      exact ⟨_, rfl, rfl, rfl, hothers _, hbytes⟩
    · have hnil : ((k.fs.inode ino).data.drop (k.pageOffset p i a)).take 4096 = [] := by
        rw [List.drop_of_length_le heq.le, List.take_nil]
      rw [hnil] at hbytes ⊢
      rw [if_neg (Nat.not_lt_of_le heq.ge), decide_eq_false fun h => hloadable.mp h heq]
      dsimp only
      rw [if_pos rfl]
      exact ⟨_, rfl, rfl, rfl, hothers _, hbytes⟩
    · have hne : some (((k.fs.inode ino).data.drop (k.pageOffset p i a)).take 4096) ≠ some [] := by
        intro he
        have hlen := congrArg List.length (Option.some.inj he)
        rw [List.length_take, List.length_drop, List.length_nil] at hlen
        omega
      rw [if_neg (Nat.not_lt_of_lt hgt), decide_eq_true (hloadable.mpr (Nat.ne_of_gt hgt))]
      dsimp only
      rw [if_neg hne, hunlock]
      exact ⟨_, rfl, rfl, rfl, hothers _, hbytes⟩
  · rw [if_neg hfb]
    have hbacking : k.backing p i = [] := if_neg hfb
    refine ⟨k, ?_, rfl, rfl, fun _ _ => rfl, fun j _ => ?_⟩
    · rw [decide_eq_true (show k.Loadable p i a from fun h => (hfb h).elim)]
      rfl
    · rw [hbacking]
      exact (if_neg (Nat.not_lt_zero _)).symm

theorem mapRegion_loaded {k1 : Kernel} {x : Frame} {km km' : Kmem} {d : PgDir} (endAddr : Nat)
    (hk : kalloc k.mach.kmem = (some x, km))
    (hload : loadPage { k with mach := { k.mach with kmem := km }.memset x 0 } p a i x = .ok (true, k1))
    (hmap : mappages k1.mach.kmem (k1.proc p).pgdir a 4096 x { w := true, u := true, p := true } =
      .ok (true, d, km')) :
    ∃ k', mapRegion p i endAddr 1 k a = .ok (true, k') ∧ k'.mach.mem = k1.mach.mem ∧
      (k'.proc p).pgdir = d ∧
      (k'.proc p).wmap = (k1.proc p).wmap.update i { (k1.proc p).wmap.slot i with
        nLoaded := ((k1.proc p).wmap.slot i).nLoaded + 1 } (k1.proc p).wmap.total ∧
      ∀ q, q ≠ p → k'.proc q = k1.proc q := by
  let k2 := { k1 with mach := { k1.mach with kmem := km' } }.setProc p { k1.proc p with pgdir := d }
  have hk2 : k2.proc p = { k1.proc p with pgdir := d } := proc_setProc_self ..
  let r := (k2.proc p).wmap.slot i
  let x2 := { k2.proc p with
    wmap := (k2.proc p).wmap.update i { r with nLoaded := r.nLoaded + 1 } (k2.proc p).wmap.total }
  refine ⟨k2.setProc p x2, ?_, rfl, ?_, ?_, fun q hq => ?_⟩
  · rw [mapRegion, hk]
    refine bind_eq_ok.mpr ⟨(true, k1), hload, ?_⟩
    dsimp only
    rw [if_neg (by decide)]
    refine bind_eq_ok.mpr ⟨(true, d, km'), hmap, ?_⟩
    dsimp only
    rw [if_neg (by decide), mapRegion]
    rfl
  · rw [proc_setProc_self]
    exact congrArg Proc.pgdir hk2
  · rw [proc_setProc_self]
    have hwmap : (k2.proc p).wmap = (k1.proc p).wmap := by rw [hk2]
    exact congrArg (fun w : Wmap => w.update i { w.slot i with nLoaded := (w.slot i).nLoaded + 1 } w.total)
      hwmap
  · rw [proc_setProc_ne hq]
    exact proc_setProc_ne hq

theorem mapRegion_fault {x : Frame} {rest : List Frame} (hal : a % 4096 = 0)
    (hlow : ((k.proc p).wmap.slot i).addr ≤ a) (hhigh : a < 0x80000000)
    (habs : ((k.proc p).pgdir.entry (a / 4096)).p = false) (hb : k.Backed p i)
    (hfree : k.mach.kmem.freelist = x :: rest) (hrest : rest ≠ []) (endAddr : Nat) :
    ∃ k', mapRegion p i endAddr 1 k a = .ok (decide (k.Loadable p i a), k') ∧
      (k.Loadable p i a → PageLoaded k p i (a / 4096) (k.pageByte p i a) k') ∧
      (¬ k.Loadable p i a → k'.proc = k.proc) := by
  have hk : kalloc k.mach.kmem = (some x, { k.mach.kmem with freelist := rest }) := by
    unfold kalloc
    rw [hfree]
  let k0 := { k with mach := { k.mach with kmem := { k.mach.kmem with freelist := rest } }.memset x 0 }
  obtain ⟨k1, hload, hproc, hkmem, hothers, hbytes⟩ :=
    loadPage_backed (k := k0) (x := x) hb hlow hhigh
  have hproc : k1.proc = k.proc := hproc
  by_cases hgood : k.Loadable p i a
  · obtain ⟨d, km, hm⟩ := mappages_page_of_free (a := k1.mach.kmem) (d := (k1.proc p).pgdir) x
      { w := true, u := true, p := true } (show a < 0x100000000 by omega) hal (by rw [hkmem]; exact hrest)
      (by rw [hproc]; exact habs)
    obtain ⟨-, -, -, hentry⟩ := mappages_page_ok (by omega) hal hm
    rw [decide_eq_true (show k0.Loadable p i a from hgood)] at hload
    obtain ⟨k', hcall, hmem, hdir, hwmap, hne⟩ := mapRegion_loaded endAddr hk hload hm
    rw [hproc] at hwmap hentry
    refine ⟨k', by rw [decide_eq_true hgood, hcall], fun _ => ?_, fun hbad => (hbad hgood).elim⟩
    refine ⟨⟨x, by rw [hfree]; rfl, ?_, fun j hj => ?_, fun y hy => ?_⟩, fun u hu => ?_,
      fun j hj => ?_, ?_, fun q hq => ?_⟩
    · rw [hdir, hentry, if_pos rfl]
      rfl
    · rw [hmem, hbytes j hj]
      have hzero : k0.mach.mem x = fun _ => 0 := update_self ..
      exact k.pageByte_of_zero p i a (congrFun hzero j)
    · rw [hmem, hothers y hy]
      exact update_of_ne hy ..
    · rw [hdir, hentry, if_neg hu]
    · rw [hwmap]
      exact slot_update_ne hj
    · rw [hwmap]
      exact slot_update_self ..
    · rw [hne q hq, hproc]
  · rw [decide_eq_false (show ¬ k0.Loadable p i a from hgood)] at hload
    rw [decide_eq_false hgood, mapRegion, hk]
    refine ⟨k1, bind_eq_ok.mpr ⟨_, hload, ?_⟩, fun hgood' => (hgood hgood').elim, fun _ => hproc⟩
    dsimp only
    rw [if_pos (by decide)]
    rfl

theorem pgrounddown_div (va : Nat) : pgrounddown va / 4096 = va / 4096 := by
  unfold pgrounddown
  omega

theorem pageFault_last (h : FaultsIn k p i va) (hlast : 0x7FFFF000 ≤ va) :
    pageFault k p va = .ok (setKilled k p) := by
  obtain ⟨hlo, hhi⟩ := h.range
  unfold pageFault
  rw [if_neg (by omega), h.covering]
  exact bind_eq_ok.mpr ⟨(false, k), allocateAndMap_last hlast hhi, rfl⟩

theorem pageFault_loads (h : FaultsIn k p i va) (hb : k.Backed p i)
    (hfree : 2 ≤ k.mach.kmem.freelist.length) (hva : va < 0x7FFFF000) :
    ∃ k', pageFault k p va = .ok k' ∧
      (k.Loadable p i (pgrounddown va) →
        PageLoaded k p i (va / 4096) (k.pageByte p i (pgrounddown va)) k') ∧
      (¬ k.Loadable p i (pgrounddown va) → (k'.proc p).pgdir = (k.proc p).pgdir) := by
  obtain ⟨hlo, hhi⟩ := h.range
  have hpage : pgrounddown va % 4096 = 0 ∧ pgrounddown va < 0x7FFFF000 ∧
      ((k.proc p).wmap.slot i).addr ≤ pgrounddown va := by
    have := h.low
    have := h.aligned
    unfold pgrounddown
    omega
  match hlist : k.mach.kmem.freelist with
  | x :: y :: rest =>
    obtain ⟨k', hcall, hgood, hbad⟩ := mapRegion_fault (k := k) (p := p) (i := i) hpage.1 hpage.2.2
      (by omega) (by rw [pgrounddown_div]; exact h.absent) hb hlist (List.cons_ne_nil _ _)
      (pgrounddown va + 4096)
    rw [pgrounddown_div] at hgood
    have halloc : allocateAndMap k p va 4096 i = .ok (decide (k.Loadable p i (pgrounddown va)), k') := by
      rw [allocateAndMap_page hva, hcall]
    unfold pageFault
    rw [if_neg (by omega), h.covering]
    refine ⟨_, bind_eq_ok.mpr ⟨_, halloc, rfl⟩, fun hl => ?_, fun hl => ?_⟩
    · rw [if_pos (decide_eq_true hl)]
      exact hgood hl
    · rw [if_neg (by rw [decide_eq_false hl]; decide), setKilled, proc_setProc_self, hbad hl]
  | [] | [_] =>
    rw [hlist] at hfree
    simp at hfree

theorem pageFault_lazy_iff (h : FaultsIn k p i va) (hb : k.Backed p i)
    (hfree : 2 ≤ k.mach.kmem.freelist.length) :
    (∃ k', pageFault k p va = .ok k' ∧
      PageLoaded k p i (va / 4096) (k.pageByte p i (pgrounddown va)) k') ↔
    va < 0x7FFFF000 ∧ k.Loadable p i (pgrounddown va) := by
  have habsent := h.absent
  refine ⟨fun ⟨k', hcall, hloaded⟩ => ?_, fun ⟨hva, hl⟩ => ?_⟩
  · obtain ⟨⟨x, -, hentry, -⟩, -⟩ := hloaded
    have hnot : (k'.proc p).pgdir ≠ (k.proc p).pgdir := by
      intro heq
      rw [heq] at hentry
      rw [hentry] at habsent
      cases habsent
    by_cases hva : va < 0x7FFFF000
    · obtain ⟨k'', hcall', -, hbad⟩ := pageFault_loads h hb hfree hva
      cases Except.ok.inj (hcall.symm.trans hcall')
      exact ⟨hva, by_contra fun hl => hnot (hbad hl)⟩
    · cases Except.ok.inj (hcall.symm.trans (pageFault_last h (Nat.not_lt.mp hva)))
      rw [setKilled, Kernel.proc_setProc_self] at hnot
      exact (hnot rfl).elim
  · obtain ⟨k', hcall, hgood, -⟩ := pageFault_loads h hb hfree hva
    exact ⟨k', hcall, hgood hl⟩

end

/-- Two free frames, and one anonymous page mapped at `addr` by process 0. -/
def Kernel.pageAt (addr : Nat) : Kernel :=
  { Kernel.fresh with mach := { Kernel.fresh.mach with kmem := ⟨[1024, 1025], false⟩ } }.setProc 0
    { Proc.zero with wmap := Wmap.init.update 0 ⟨addr, 4096, 0, false, -1⟩ 1 }

theorem Kernel.proc_pageAt (addr : Nat) : (Kernel.pageAt addr).proc 0 =
    { Proc.zero with wmap := Wmap.init.update 0 ⟨addr, 4096, 0, false, -1⟩ 1 } :=
  proc_setProc_self ..

theorem Kernel.backed_pageAt (addr : Nat) : (Kernel.pageAt addr).Backed 0 0 := by
  intro h
  rw [proc_pageAt, slot_update_self] at h
  cases h

theorem pageFault_lazy_first : ∃ k', pageFault (Kernel.pageAt 0x60000000) 0 0x60000010 = .ok k' ∧
    PageLoaded (Kernel.pageAt 0x60000000) 0 0 0x60000
      ((Kernel.pageAt 0x60000000).pageByte 0 0 0x60000000) k' := by
  have hfault : FaultsIn (Kernel.pageAt 0x60000000) 0 0 0x60000010 :=
    ⟨by decide +kernel, rfl, ⟨by decide +kernel, by decide +kernel, by decide +kernel⟩, by decide +kernel,
      by decide +kernel, by decide +kernel, rfl⟩
  refine (pageFault_lazy_iff hfault (Kernel.backed_pageAt _) le_rfl).mpr ⟨by decide, fun h => ?_⟩
  rw [Kernel.proc_pageAt, Wmap.slot_update_self] at h
  cases h

/-- The page that `sys_wmap` accepts at the end of the window is never mapped. -/
theorem pageFault_window_end : ∃ k',
    sysWmap { Kernel.fresh with mach := { Kernel.fresh.mach with kmem := ⟨[1024, 1025], false⟩ } } 0
      0x7FFFF000 4096 14 (-1) = .ok (some 0x7FFFF000, Kernel.pageAt 0x7FFFF000) ∧
    FaultsIn (Kernel.pageAt 0x7FFFF000) 0 0 0x7FFFF000 ∧ (Kernel.pageAt 0x7FFFF000).Backed 0 0 ∧
    2 ≤ (Kernel.pageAt 0x7FFFF000).mach.kmem.freelist.length ∧
    pageFault (Kernel.pageAt 0x7FFFF000) 0 0x7FFFF000 = .ok k' ∧
    (k'.proc 0).killed = true ∧ ((k'.proc 0).pgdir.entry 0x7FFFF).p = false := by
  have hfault : FaultsIn (Kernel.pageAt 0x7FFFF000) 0 0 0x7FFFF000 :=
    ⟨by decide +kernel, rfl, ⟨by decide +kernel, by decide +kernel, by decide +kernel⟩, by decide +kernel,
      by decide +kernel, by decide +kernel, rfl⟩
  refine ⟨setKilled (Kernel.pageAt 0x7FFFF000) 0, ?_, hfault, Kernel.backed_pageAt _, le_rfl,
    pageFault_last hfault le_rfl, rfl, ?_⟩
  · rfl
  · exact hfault.absent

end Xv6
