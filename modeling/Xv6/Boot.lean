import Xv6.Sane
import Xv6.Supply
import Xv6.Trades

/-!
The state `main` hands to the scheduler: one process, `initproc`, with one page and a
kernel stack; everything else is on the free list. With enough memory `kvmalloc` and
`userinit` get there.
-/

namespace Xv6

open Function Lib Multiset

variable {k : Kernel} {image : Image} {freelist : List Frame} {fs : Files} {root : Nat}
  {initcode : List UInt8}

structure InitSpace (i : Image) (d : PgDir) (x : Frame) : Prop where
  entry : ∀ v, v < 0x80000 → d.entry v =
    if v = 0 then Pte.make x { w := true, u := true } else Pte.zero
  kernel : d.MapsKernel i

/-- What `boot` leaves; `s` is the kernel stack of `initproc`. -/
structure Booted (image : Image) (freelist : List Frame) (fs : Files) (root : Nat) (k : Kernel)
    (x s : Frame) : Prop where
  image : k.mach.image = image
  failed : k.mach.kmem.failed = false
  counts : k.mach.counts = update (fun _ => 0) x 1
  fs : k.fs = fs.setInode root { fs.inode root with ref := (fs.inode root).ref + 1 }
  initproc : k.initproc = 0
  loaded : k.loaded = fun _ => 0
  others : ∀ q, q ≠ 0 → k.proc q = Proc.zero
  self : k.proc 0 = { Proc.zero with
    sz := 4096, pgdir := (k.proc 0).pgdir, kstack := some s, state := .runnable, pid := 1,
    tf := { esp := 4096 }, cwd := some root, wmap := Wmap.init }
  space : InitSpace k.mach.image (k.proc 0).pgdir x
  balance : (freelist : Multiset Frame) =
    k.mach.kmem.free + (k.proc 0).pgdir.frames + k.kpgdir.frames + {s} + {x}

theorem inituvm_spec {m m' : Machine} {d d' : PgDir} {init : List UInt8}
    (huser : ∀ v, v < 0x80000 → d.entry v = Pte.zero) (hkernel : d.MapsKernel m.image)
    (hs : 1026 < supply m.kmem d) (h : inituvm m d init = .ok (d', m')) :
    ∃ x, InitSpace m.image d' x ∧ m'.image = m.image ∧ m'.kmem.failed = m.kmem.failed ∧
      m'.counts = update m.counts x 1 ∧
      m.kmem.free + d.frames = m'.kmem.free + d'.frames + {x} := by
  unfold inituvm at h
  split at h
  · cases h
  split at h
  · cases h
  rename_i x a hk
  obtain ⟨⟨b, d1, a1⟩, hm, h⟩ := bind_eq_ok.mp h
  cases h
  cases b with
  | false =>
    obtain ⟨hempty, -⟩ := mappages_page_fail (by decide) (by decide) hm
    have hs' := supply_kalloc (d := d) hk
    exact (freelist_ne_nil_of_supply (show 1025 < supply a d by omega) hempty).elim
  | true =>
    obtain ⟨hx, hf, -, hent⟩ := mappages_page_ok (by decide) (by decide) hm
    refine ⟨x, ⟨?_, ?_⟩, rfl, hf.trans (kalloc_some hk).2, rfl, ?_⟩
    · intro v hv
      rw [hent, huser v hv]
    · refine hkernel.congr fun v hv => ?_
      rw [hent, if_neg (by omega)]
    · change _ = a1.free + d'.frames + {x}
      rw [free_kalloc hk, cons_add, ← singleton_add, add_comm]
      exact congrArg (· + {x}) hx.balance

theorem allocproc_eq {np : Fin NPROC} {s : Frame} {a : Kmem} (hun : (k.proc np).state = .unused)
    (hfirst : ∀ q < np, (k.proc q).state ≠ .unused) (hk : kalloc k.mach.kmem = (some s, a)) :
    allocproc k = (some np, { k with
      mach := { k.mach with kmem := a }, nextpid := k.nextpid + 1 }.setProc np
        { k.proc np with
          state := .embryo, pid := k.nextpid, kstack := some s, wmap := Wmap.init }) := by
  have hfind : (List.finRange NPROC).find? (fun p => decide ((k.proc p).state = .unused)) =
      some np := by
    rw [List.find?_eq_some_iff_getElem]
    refine ⟨by simpa using hun, np, by simp, by simp, fun j hj => ?_⟩
    have hlt : j < NPROC := hj.trans np.isLt
    have := hfirst ⟨j, hlt⟩ hj
    simpa using this
  unfold allocproc
  rw [hfind]
  dsimp only
  rw [hk]

/-- The state in which a machine with at least 2054 free frames starts. -/
def Kernel.Start (k : Kernel) : Prop :=
  ∃ image freelist fs root initcode, freelist.Nodup ∧
    (∀ x ∈ freelist, image.kend ≤ x ∧ x < 0xE000) ∧ 2054 ≤ freelist.length ∧
    boot image freelist fs root initcode = .ok k

theorem boot_spec (hlen : 2054 ≤ freelist.length) (h : boot image freelist fs root initcode = .ok k) :
    ∃ x s, Booted image freelist fs root k x s := by
  obtain ⟨⟨r, m1⟩, hkvm, h⟩ := bind_eq_ok.mp h
  rcases setupkvm_spec hkvm with ⟨kd, rfl, hm1, hfree1, hf1, -⟩ | ⟨rfl, -⟩
  · have hcard1 := congrArg Multiset.card hfree1
    have hkd := kd.card_frames_le
    rw [card_add] at hcard1
    change freelist.length = _ at hcard1
    obtain ⟨s, a, hs⟩ := kalloc_total (a := m1.kmem) (by omega)
    have hzero : ∀ q : Fin NPROC, q < 0 → ((fun _ => Proc.zero) q).state ≠ .unused :=
      fun q hq => (Nat.not_lt_zero _ hq).elim
    dsimp only at h
    rw [allocproc_eq rfl hzero hs] at h
    obtain ⟨⟨r2, m2⟩, hkvm2, h⟩ := bind_eq_ok.mp h
    rcases setupkvm_spec hkvm2 with ⟨d0, rfl, hm2, hfree2, hf2, huser, hkernel, -⟩ | ⟨rfl, -⟩
    · obtain ⟨⟨d, m3⟩, hinit, h⟩ := bind_eq_ok.mp h
      obtain ⟨fs', hdup, h⟩ := bind_eq_ok.mp h
      cases h
      have hcard2 := congrArg Multiset.card hfree2
      rw [card_add] at hcard2
      change a.free.card = _ at hcard2
      have hcs := congrArg Multiset.card (free_kalloc hs)
      rw [card_cons] at hcs
      have himage1 : m1.image = image := congrArg Machine.image hm1
      have himage2 : m2.image = m1.image := (congrArg Machine.image hm2).trans rfl
      obtain ⟨x, hspace, himage, hfail, hcounts, hbal⟩ := inituvm_spec huser
        (by rw [himage2]; exact hkernel) (by unfold supply; omega) hinit
      rw [← himage] at hspace
      cases hdup
      refine ⟨x, s, ?_, ?_, ?_, rfl, rfl, rfl, ?_, ?_, ?_, ?_⟩
      · exact himage.trans (himage2.trans himage1)
      · change m3.kmem.failed = false
        rw [hfail, hf2]
        change a.failed = false
        rw [(kalloc_some hs).2]
        rw [hf1]
      · change m3.counts = _
        rw [hcounts, hm2]
        change update m1.counts x 1 = _
        rw [hm1]
      · intro q hq
        simp [Kernel.setProc, hq]
      · simp [Kernel.setProc, Proc.zero]
      · simpa [Kernel.setProc] using hspace
      · simp only [Kernel.setProc, update_self]
        calc (freelist : Multiset Frame) = s ::ₘ a.free + kd.frames := by
              rw [← free_kalloc hs]
              exact hfree1
          _ = (m2.kmem.free + d0.frames) + kd.frames + {s} := by
              rw [← singleton_add]
              rw [show a.free = m2.kmem.free + d0.frames from hfree2]
              abel
          _ = _ := by
              rw [hbal]
              abel
    · cases h
  · cases h

theorem boot_total (hlen : 2054 ≤ freelist.length) (hinit : initcode.length < 4096) :
    ∃ k, boot image freelist fs root initcode = .ok k := by
  obtain ⟨kd, m1, hkvm⟩ := setupkvm_total
    (m := ⟨image, ⟨freelist, false⟩, fun _ => 0, fun _ _ => 1, 0⟩)
    (show 1026 ≤ freelist.length by omega)
  rcases setupkvm_spec hkvm with ⟨_, hkd, -, hfree1, -⟩ | ⟨hnone, -⟩
  · cases hkd
    have hcard1 := congrArg Multiset.card hfree1
    have hkd := kd.card_frames_le
    rw [card_add] at hcard1
    change freelist.length = _ at hcard1
    obtain ⟨s, a, hs⟩ := kalloc_total (a := m1.kmem) (by omega)
    have hcs := congrArg Multiset.card (free_kalloc hs)
    rw [card_cons] at hcs
    have hzero : ∀ q : Fin NPROC, q < 0 → ((fun _ => Proc.zero) q).state ≠ .unused :=
      fun q hq => (Nat.not_lt_zero _ hq).elim
    obtain ⟨d0, m2, hkvm2⟩ := setupkvm_total (m := { m1.lcr3 kd.frame with kmem := a })
      (show 1026 ≤ a.free.card by omega)
    rcases setupkvm_spec hkvm2 with ⟨_, hd0, -, hfree2, -, huser, -⟩ | ⟨hnone, -⟩
    · cases hd0
      have hcard2 := congrArg Multiset.card hfree2
      rw [card_add] at hcard2
      change a.free.card = _ at hcard2
      have hd := d0.card_frames_le
      obtain ⟨x, b, hk⟩ := kalloc_of_supply (a := m2.kmem) (d := d0) (by unfold supply; omega)
      have hs' := supply_kalloc (d := d0) hk
      obtain ⟨d, c, hm⟩ := mappages_page_total (a := b) (d := d0) x { w := true, u := true }
        (show 0 < 0x100000000 by decide) (by decide) (by unfold supply at hs' ⊢; omega)
        (by rw [huser _ (by decide)]; rfl)
      have huvm : ∃ m3, inituvm m2 d0 initcode = .ok (d, m3) := by
        unfold inituvm
        rw [if_neg (by omega), hk]
        dsimp only
        exact ⟨_, bind_eq_ok.mpr ⟨_, hm, rfl⟩⟩
      obtain ⟨m3, huvm⟩ := huvm
      refine exists_bind_ok hkvm ?_
      dsimp only
      rw [allocproc_eq rfl hzero hs]
      exact exists_bind_ok hkvm2 (exists_bind_ok huvm ⟨_, rfl⟩)
    · cases hnone
  · cases hnone

section
variable {image : Image} {freelist : List Frame} {fs : Files} {root : Nat} {k : Kernel}
  {x s : Frame}

section
variable (h : Booted image freelist fs root k x s)
include h

theorem Booted.total : k.total + {x} = (freelist : Multiset Frame) := by
  have hlive : (k.proc 0).live := by
    rw [h.self]
    simp [Proc.live]
  have hrest : ∑ q ∈ Finset.univ.erase (0 : Fin NPROC), (k.proc q).owned = 0 := by
    refine Finset.sum_eq_zero fun q hq => ?_
    rw [h.others q (Finset.ne_of_mem_erase hq)]
    exact Proc.owned_of_unused fun hl => hl rfl
  have hstack : (k.proc 0).kstack = some s := by rw [h.self]
  rw [h.balance, Kernel.total, sum_split _ 0, hrest, Proc.owned_of_live hlive, hstack]
  simp only [Option.toList_some, coe_singleton]
  abel

theorem Booted.maps {p : Fin NPROC} {v : Nat}
    {y : Frame} (hm : k.Maps p v y) : p = 0 ∧ v = 0 ∧ y = x := by
  have hp : p = 0 := by
    by_contra hp
    have := hm.live
    rw [h.others p hp] at this
    exact this rfl
  subst hp
  have hpres := hm.present
  have hppn := hm.ppn
  rw [h.space.entry v hm.user] at hpres hppn
  split at hpres
  · rename_i hv
    rw [if_pos hv] at hppn
    exact ⟨rfl, hv, hppn.symm⟩
  · cases hpres

theorem Booted.page : k.Maps 0 0 x := by
  refine ⟨?_, by decide, ?_, ?_⟩
  · rw [h.self]
    simp [Proc.live]
  · rw [h.space.entry 0 (by decide)]
    rfl
  · rw [h.space.entry 0 (by decide)]
    rfl

theorem Booted.safe (hn : freelist.Nodup) : k.holding.Safe := by
  have hnodup : (k.total + {x}).Nodup := by
    rw [h.total]
    exact hn
  rw [nodup_add] at hnodup
  refine ⟨hnodup.1, fun r y hm hmem => ?_⟩
  obtain ⟨-, -, rfl⟩ := h.maps hm
  exact disjoint_left.mp hnodup.2.2 hmem (mem_singleton_self y)

theorem Booted.sane : k.Sane := by
  intro p
  rw [h.initproc]
  by_cases hp : p = 0
  · subst hp
    refine ⟨fun _ => ?_, fun _ => ?_, fun _ => h.space.kernel.base, fun _ hi => (hi rfl).elim,
      fun va pa rc hf => ?_⟩
    · rw [h.self]
      exact (by decide : 4096 < 0x80000000)
    · rw [h.self]
      intro i hi
      simp [Wmap.mem_active, Wmap.init, Region.empty, Region.isEmpty] at hi
    · rw [h.self] at hf
      cases hf
  · rw [h.others p hp]
    exact ⟨fun hl => (hl rfl).elim, fun hl => (hl rfl).elim, fun hl => (hl rfl).elim,
      fun hl => (hl rfl).elim, fun _ _ _ hf => by cases hf⟩

end

end

theorem Kernel.Start.safe (h : k.Start) : k.holding.Safe := by
  obtain ⟨image, freelist, fs, root, initcode, hn, -, hlen, hb⟩ := h
  obtain ⟨x, s, hb⟩ := boot_spec hlen hb
  exact hb.safe hn

theorem Kernel.Start.sane (h : k.Start) : k.Sane := by
  obtain ⟨image, freelist, fs, root, initcode, -, -, hlen, hb⟩ := h
  obtain ⟨x, s, hb⟩ := boot_spec hlen hb
  exact hb.sane

/-- The frames `kinit1` and `kinit2` put on the free list, the last one first. -/
def Image.frames (i : Image) : List Frame := (List.range' i.kend (0xE000 - i.kend)).reverse

theorem Image.nodup_frames (i : Image) : i.frames.Nodup :=
  List.nodup_reverse.mpr (List.nodup_range' ..)

theorem Image.mem_frames {i : Image} {x : Frame} : x ∈ i.frames ↔ i.kend ≤ x ∧ x < 0xE000 := by
  have := i.phys
  rw [frames, List.mem_reverse, List.mem_range'_1]
  constructor
  · rintro ⟨h1, h2⟩
    exact ⟨h1, Nat.lt_of_lt_of_le h2 (by omega)⟩
  · rintro ⟨h1, h2⟩
    exact ⟨h1, Nat.lt_of_lt_of_le h2 (by omega)⟩

def pcImage : Image where
  data := 0x108
  kend := 0x200
  text := by decide
  order := by decide
  phys := by decide

theorem length_frames_pcImage : pcImage.frames.length = 0xDE00 := by
  rw [Image.frames, List.length_reverse, List.length_range']
  rfl

def rootFiles : Files where
  file := fun _ => {}
  inode := update (fun _ => {}) 1 { type := 1, nlink := 1 }
  console := fun _ => none
  pipe := fun _ => none

theorem exists_booted (fs : Files) (root : Nat) :
    ∃ k x s, k.Start ∧ Booted pcImage pcImage.frames fs root k x s := by
  have hlen : 2054 ≤ pcImage.frames.length := by
    rw [Image.frames, List.length_reverse, List.length_range']
    decide
  obtain ⟨k, hk⟩ := @boot_total pcImage pcImage.frames fs root [] hlen (by decide)
  obtain ⟨x, s, hb⟩ := boot_spec hlen hk
  exact ⟨k, x, s, ⟨_, _, _, _, _, pcImage.nodup_frames, fun _ => Image.mem_frames.mp, hlen, hk⟩, hb⟩

end Xv6
