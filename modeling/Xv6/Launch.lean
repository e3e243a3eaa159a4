import Xv6.ExecInput
import Xv6.ForkTotal
import Xv6.Boot
import Xv6.Steps

/-!
The pages `exec` loads from a segment get the write permission of its program header. In
particular `initproc` can replace itself by a program of one segment that is not
writable, and can then fork.
-/

namespace Xv6

open Multiset Kernel

variable {k k' : Kernel} {fs : Files} {s x : Frame} {root : Nat} {image : Image} {p : Fin NPROC}

section
variable {own : Frame} {slept : Nat → Bool} {ip : Option Nat} {l l' : Loading}

theorem loadPages_entry {addr offset sz n j : Nat} {w : Bool} (hal : (addr + j) % 4096 = 0)
    (hfit : addr + j + n * 4096 ≤ 0x80000000)
    (h : loadPages own slept ip addr offset sz w n l j = .ok (true, l')) (v : Nat) :
    l'.d.entry v = if (addr + j) / 4096 ≤ v ∧ v < (addr + j) / 4096 + n
      then { l.d.entry v with w := w } else l.d.entry v := by
  induction n generalizing l j with
  | zero =>
    cases h
    rw [if_neg (by omega)]
  | succ n ih =>
    have hlt : addr + j < 0x100000000 := by omega
    obtain ⟨pte, bytes, l1, hw, hr, -, h⟩ := loadPages_succ hlt h
    have hd : l1.d = l.d := (congrArg (fun r => r.2.d) hr).symm
    have hset : (l1.paged (addr + j) pte w bytes).d.entry v =
        if v = (addr + j) / 4096 then { pte with w := w } else l.d.entry v := by
      rw [← hd] at hw ⊢
      exact PgDir.entry_setPte hlt hw
    rw [ih (by omega) (by omega) h, hset]
    by_cases hv : v = (addr + j) / 4096
    · subst hv
      rw [if_neg (by omega), if_pos rfl, if_pos (by omega), PgDir.entry_of_walk hlt hw]
    · rw [if_neg hv]
      by_cases hin : (addr + j) / 4096 ≤ v ∧ v < (addr + j) / 4096 + (n + 1)
      · rw [if_pos (by omega), if_pos hin]
      · rw [if_neg (by omega), if_neg hin]

theorem loadSegments_entry {off v : Nat} {ph : List UInt8} {l1 : Loading} (hsz : l.sz = 0)
    (hr : l.read own slept ip off 32 = (some ph, l1)) (htype : field ph 0 4 = 1)
    (h : loadSegments own slept ip 1 l off = .ok (true, l'))
    (hlo : field ph 8 4 / 4096 ≤ v) (hhi : v < field ph 8 4 / 4096 + pagesTo 0 (field ph 16 4)) :
    ∃ x, l'.d.entry v = Pte.make x { w := decide (field ph 24 4 &&& 2 ≠ 0), u := true } := by
  have hsz1 : l1.sz = 0 := (congrArg (fun r => r.2.sz) hr).symm.trans hsz
  obtain ⟨ph', l1', hr', -, hcase⟩ := loadSegments_succ h
  rw [hr] at hr'
  cases hr'
  rcases hcase with ⟨hne, -⟩ | ⟨-, hmem, hal, sz, d, m, l2, ha, hne, hl, h⟩
  · exact (hne htype).elim
  cases h
  rw [hsz1] at ha
  have hpages : pagesTo 0 (field ph 16 4) * 4096 < field ph 16 4 + 4096 := by
    unfold pagesTo
    omega
  rcases allocuvm_spec (by omega) ha with
    ⟨-, -, h1 | h1⟩ | ⟨-, hlt, rfl, ys, hys, hg⟩ | ⟨-, -, h1, -⟩
  · exact (hne h1.2).elim
  · omega
  · unfold loaduvm at hl
    rw [if_neg (by omega)] at hl
    have hent := loadPages_entry (by omega) (by omega) hl v
    have hlen : v < ys.length := by
      rw [hys]
      unfold allocPages pagesTo pgroundup at *
      omega
    have hmap := hg.mapped v hlen
    rw [show pgroundup 0 / 4096 + v = v by unfold pgroundup; omega] at hmap
    rw [if_pos (by omega)] at hent
    refine ⟨ys.get ⟨v, hlen⟩, hent.trans ?_⟩
    dsimp only
    rw [hmap]
    rfl
  · exact (hne h1).elim

end

theorem step_forked (hr : k.ready p) (h : Forkable k p) :
    ∃ np k1 s a m d done, Step k (.fork p) (k1.leave p) ∧
      Forked (k.enter p) p np k1 s a m d done := by
  obtain ⟨r, k1, hf⟩ := fork_total (k := k.enter p) hr.live (h.congr rfl rfl rfl)
  rcases fork_spec (k := k.enter p) hr.live h.size h.regions hf with
    ⟨hnone, -⟩ | ⟨hnone, -⟩ | ⟨hnone, -⟩ | ⟨-, np, s, a, m, d, done, hforked⟩
  · cases hnone
  · cases hnone
  · cases hnone
  · exact ⟨np, k1, s, a, m, d, done, step_fork hr hf, hforked⟩

/-- A program of one segment: one byte at address 0, readable and executable. -/
def program : List UInt8 :=
  [0x7F, 0x45, 0x4C, 0x46] ++ List.replicate 24 0 ++ [52, 0, 0, 0] ++ List.replicate 12 0 ++
    [1, 0] ++ List.replicate 6 0 ++
    [1, 0, 0, 0, 84, 0, 0, 0] ++ List.replicate 8 0 ++ [1, 0, 0, 0, 1, 0, 0, 0, 5, 0, 0, 0] ++
    List.replicate 4 0 ++ [0xC3]

def programFiles : Files := rootFiles.setInode 2 { type := 2, nlink := 1, data := program }

theorem Booted.card_free {freelist : List Frame} (h : Booted image freelist fs root k x s) :
    freelist.length ≤ k.mach.kmem.free.card + 2052 := by
  have hcard := congrArg Multiset.card h.balance
  have h1 := (k.proc 0).pgdir.card_frames_le
  have h2 := k.kpgdir.card_frames_le
  simp only [card_add, coe_card, card_singleton] at hcard
  omega

theorem Booted.ready {freelist : List Frame} (h : Booted image freelist fs root k x s) :
    (k.dispatched 0).ready 0 := by
  constructor <;> rw [proc_dispatched_self]
  rw [h.self]
  rfl

theorem Booted.dispatch {freelist : List Frame} (h : Booted image freelist fs root k x s) :
    Step k (.dispatch 0) (k.dispatched 0) :=
  step_dispatch (by rw [h.self])

theorem Booted.memory (h : Booted pcImage pcImage.frames fs root k x s) :
    54780 ≤ k.mach.kmem.free.card := by
  have hcard := h.card_free
  have hlen := length_frames_pcImage
  omega

section
variable (h : Booted image image.frames fs root k x s)
include h

theorem Booted.range {y : Frame}
    (hy : y ∈ k.mach.kmem.free + (k.proc 0).pgdir.frames + k.kpgdir.frames + {s} + {x}) :
    image.kend ≤ y ∧ y < 0xE000 := by
  rw [← h.balance] at hy
  exact Image.mem_frames.mp (mem_coe.mp hy)

theorem Booted.nodup :
    (k.mach.kmem.free + (k.proc 0).pgdir.frames + k.kpgdir.frames + {s} + {x}).Nodup := by
  rw [← h.balance]
  exact coe_nodup.mpr image.nodup_frames

theorem Booted.freeable : Freeable k.mach (k.proc 0).pgdir := by
  refine ⟨fun v hv hp => ?_, fun y hy _ => ?_, ?_⟩
  · have hm := h.maps ⟨h.page.live, hv, hp, rfl⟩
    have hx := h.range (y := x) (by simp)
    rw [hm.2.2, h.image]
    exact ⟨Nat.ne_of_gt (Nat.lt_of_lt_of_le image.kend_pos hx.1), fun _ => hx⟩
  · rw [h.image]
    exact h.range (by simp [PgDir.frames, hy])
  · rw [h.image]
    exact h.range (by simp [PgDir.frames])

end

/-- `initproc` can fork as soon as it runs, with any regions that have no pages yet. -/
theorem Booted.forkable_of_wmap {w : Wmap} (h : Booted pcImage pcImage.frames fs root k x s)
    (hself : k'.proc 0 = { k.proc 0 with state := .running, wmap := w })
    (hfree : k'.proc 1 = k.proc 1) (hkmem : k'.mach.kmem = k.mach.kmem) (hok : w.Ok)
    (hapart : w.PagesApart) : Forkable k' 0 := by
  have hsz : (k'.proc 0).sz = 4096 := by rw [hself, h.self]
  refine ⟨⟨1, ?_⟩, ?_, by rw [hsz]; decide, fun v hv => ?_, fun i f hi => ?_, ?_, by rw [hself]; exact hok,
    by rw [hself]; exact hapart, fun i hi v hv hp => ?_⟩
  · rw [hfree, h.others 1 (by decide)]
    rfl
  · rw [hkmem]
    exact le_trans (by decide) h.memory
  · rw [hsz, show sizePages 4096 = 1 from rfl] at hv
    obtain rfl : v = 0 := by omega
    rw [hself]
    exact h.page.present
  · rw [hself, h.self] at hi
    cases hi
  · rw [hself, h.self]
    simp
  · rw [hself] at hi hv hp
    obtain ⟨hlo, hhi⟩ := (hok i hi).pages_window hv
    dsimp only at hp
    rw [h.space.entry v hhi, if_neg (by omega)] at hp
    cases hp

theorem Booted.forkable (h : Booted pcImage pcImage.frames fs root k x s) :
    Forkable (k.dispatched 0) 0 := by
  refine h.forkable_of_wmap (w := Wmap.init) ?_ (proc_dispatched_ne k (by decide)) rfl ?_ ?_
  · rw [proc_dispatched_self, h.self]
  · intro i hi
    simp at hi
  · intro i hi
    simp at hi

/-- The table with one page at the start of the window. -/
def Wmap.onePage : Wmap := Wmap.init.update 0 ⟨0x60000000, 4096, 0, false, -1⟩ 1

def Kernel.mapped (k : Kernel) (p : Fin NPROC) : Kernel :=
  ((k.enter p).setProc p { k.proc p with wmap := Wmap.onePage }).leave p

theorem Kernel.proc_mapped_self (k : Kernel) (p : Fin NPROC) :
    (k.mapped p).proc p = { k.proc p with wmap := Wmap.onePage } :=
  proc_setProc_self (k.enter p) p { k.proc p with wmap := Wmap.onePage }

theorem Kernel.proc_mapped_ne (k : Kernel) {q : Fin NPROC} (h : q ≠ p) :
    (k.mapped p).proc q = k.proc q :=
  proc_setProc_ne h

theorem Wmap.active_onePage : Wmap.onePage.active = {0} := by decide

theorem Wmap.ok_onePage : Wmap.onePage.Ok := by
  intro i hi
  rw [Wmap.active_onePage, Finset.mem_singleton] at hi
  subst hi
  exact ⟨by decide, by decide, by decide, by decide, by decide, by decide⟩

theorem Wmap.pagesApart_onePage : Wmap.onePage.PagesApart := by
  intro i hi j hj hij
  rw [Wmap.active_onePage, Finset.mem_singleton] at hi hj
  exact (hij (hi.trans hj.symm)).elim

theorem step_wmap_onePage (hr : k.ready p) (hw : (k.proc p).wmap = Wmap.init) :
    Step k (.wmap p 0x60000000 4096 14 (-1)) (k.mapped p) := by
  refine ⟨⟨hr, by decide, by decide, by decide⟩, ?_⟩
  have hadd : ((k.enter p).proc p).wmap.add 0x60000000 4096 (decide (14 &&& 4 = 0)) (-1) =
      some Wmap.onePage := by
    change (k.proc p).wmap.add 0x60000000 4096 false (-1) = _
    rw [hw]
    rfl
  have hcall : sysWmap (k.enter p) p 0x60000000 4096 14 (-1) = .ok (some 0x60000000,
      (k.enter p).setProc p { k.proc p with wmap := Wmap.onePage }) := by
    change (storedFd (k.enter p) p (-1) >>= _) = _
    rw [Lib.bind_of_ok (rfl : storedFd (k.enter p) p (-1) = .ok (-1, k.enter p))]
    dsimp only
    rw [hadd]
    rfl
  simp only [Act.perform, Kernel.onCpu, hcall]
  rfl

/-- Process `p` has just replaced its image by the program. -/
structure Launched (k : Kernel) (p : Fin NPROC) : Prop where
  state : (k.proc p).state = .running
  ready : (k.proc p).cowFault = none
  size : (k.proc p).sz = 12288
  first : ∃ x, (k.proc p).pgdir.entry 0 = Pte.make x { u := true }
  guard : Guarded (k.proc p).pgdir 12288
  others : ∀ q, q ≠ p → k.proc q = Proc.zero
  forkable : Forkable k p

theorem execSound_of_inode {a : Kmem}
    (hinode : fs.inode 2 = { type := 2, nlink := 1, data := program }) (hfree : 1030 ≤ a.free.card) :
    ExecSound fs a 2 [] := by
  have hheader : fs.header 2 = program.take 52 := by
    rw [Files.header, readi_file (by rw [hinode]; decide) (by rw [hinode]; decide)
      (by rw [hinode]; decide), hinode]
    rfl
  refine ⟨by rw [hinode]; decide, by rw [hinode]; decide, ?_, ⟨1, ?_, by decide, ?_⟩, by decide⟩
  · rw [hheader]
    exact ⟨by decide, by decide⟩
  · rw [hinode, hheader]
    decide
  · have : sizePages 1 = 1 := by decide
    omega

theorem execSound_program (h : Booted pcImage pcImage.frames programFiles 1 k x s) :
    ExecSound k.fs k.mach.kmem 2 [] := by
  refine execSound_of_inode ?_ (le_trans (by decide) h.memory)
  rw [h.fs]
  rfl

theorem read_program (own : Frame) (slept : Nat → Bool) {l : Loading}
    (hdata : (l.fs.inode 2).data = program) (htype : (l.fs.inode 2).type = 2) :
    (l.read own slept (some 2) 52 32).1 = some ((program.drop 52).take 32) := by
  rw [read_file (by rw [htype]; decide) (by rw [hdata]; decide) (by rw [hdata]; decide), hdata]

theorem launched_of_exec {x : Proc} {path : List UInt8} {slept : Nat → Bool}
    (hdata : (k.fs.inode 2).data = program) (htype : (k.fs.inode 2).type = 2)
    (hsound : ExecSound k.fs k.mach.kmem 2 []) (hmem : 3000 ≤ k.mach.kmem.free.card)
    (hself : k.proc 0 = { Proc.zero with
      sz := x.sz, pgdir := x.pgdir, kstack := x.kstack, state := .running, pid := x.pid, tf := x.tf,
      cwd := some 1, wmap := Wmap.init }) (hothers : ∀ q, q ≠ 0 → k.proc q = Proc.zero)
    (h : exec k 0 (some 2) path [] slept = .ok (true, k')) : Launched k' 0 := by
  have hheader : k.fs.header 2 = program.take 52 := by
    rw [Files.header, readi_file (by rw [htype]; decide) (by rw [hdata]; decide)
      (by rw [hdata]; decide), hdata]
    rfl
  cases exec_replaced h with
  | @replaced fs fs' m m1 m' d d' l sz sp _ hloads _ hst hm =>
    have hl := hloads.load
    obtain ⟨hd, ht⟩ := hloads.data
    have hplan : segmentsSize (k.fs.inode 2).data (field (k.fs.header 2) 44 2)
        (field (k.fs.header 2) 28 4) 0 = some 1 := by
      rw [hdata, hheader]
      decide
    have hlsz := (hsound.load hplan hloads).2
    obtain ⟨sp', hr⟩ := hsound.stack hplan hloads hlsz hst
    cases hr
    obtain ⟨xs, hb, hxs, hlt⟩ := hloads.built
    obtain ⟨xs', lost, hb', hres⟩ := buildStack_spec hb hxs hlt hst
    obtain ⟨rfl, hxs', -, hguard, hkept⟩ := hres _ _ rfl
    have hfirst : ∃ y, l.d.entry 0 = Pte.make y { u := true } := by
      have hread := read_program (k.proc 0).pgdir.frame slept
        (l := ⟨m, fs, d, 0, 1⟩) (hd.trans hdata) (ht.trans htype)
      rw [hheader] at hl
      cases hr : Loading.read (k.proc 0).pgdir.frame slept (some 2) ⟨m, fs, d, 0, 1⟩ 52 32 with
      | mk bytes l1 =>
        rw [hr] at hread
        cases hread
        exact loadSegments_entry rfl hr (by decide) hl (by decide) (by decide)
    generalize hk' : ({ k with mach := m', fs := fs' }.setProc 0 _ : Kernel) = k1
    obtain ⟨name, tf, hp⟩ : ∃ name tf, k1.proc 0 = { k.proc 0 with
        name := name, pgdir := d', sz := pgroundup 1 + 8192, tf := tf } :=
      ⟨_, _, by rw [← hk', proc_setProc_self]⟩
    have hq : ∀ q, q ≠ 0 → k1.proc q = Proc.zero := by
      intro q hq
      rw [← hk', proc_setProc_ne hq]
      exact hothers q hq
    have hfree : 1027 ≤ k1.mach.kmem.free.card := by
      have h1 := congrArg Multiset.card hb'.free
      have h2 := congrArg Multiset.card (freevm_spec hm).free
      have h3 := d'.card_frames_le
      have h4 : xs'.length = 3 := hxs'
      simp only [card_add, coe_card, List.length_nil] at h1 h2
      change m'.kmem.free.card = m1.kmem.free.card + _ at h2
      rw [← hk']
      change 1027 ≤ m'.kmem.free.card
      omega
    have hactive : ∀ i, i ∉ (k1.proc 0).wmap.active := by
      intro i hi
      rw [hp, hself] at hi
      simp [Wmap.mem_active, Wmap.init, Region.empty, Region.isEmpty] at hi
    have hent : ∃ y, (k1.proc 0).pgdir.entry 0 = Pte.make y { u := true } := by
      obtain ⟨y, hy⟩ := hfirst
      rw [hp]
      exact ⟨y, (hkept 0 (by rw [hlsz]; decide)).trans hy⟩
    refine ⟨by rw [hp, hself], by rw [hp, hself]; rfl, by rw [hp]; rfl, hent, by rw [hp]; exact hguard,
      hq, ⟨⟨1, by rw [hq 1 (by decide)]; rfl⟩, hfree, ?_, ?_, ?_, ?_, ?_, ?_, ?_⟩⟩
    · rw [hp]
      exact (by decide : pgroundup 1 + 8192 ≤ 0x80000000)
    · intro v hv
      rw [hp] at hv ⊢
      have hlen : v < xs'.length := by
        rw [hxs']
        exact hv
      exact (hb'.present v (Nat.lt_of_lt_of_le hlen hb'.length)).mpr hlen
    · intro i f hf
      rw [hp, hself] at hf
      cases hf
    · rw [hp, hself]
      simp
    · exact fun i hi => (hactive i hi).elim
    · exact fun i hi => (hactive i hi).elim
    · exact fun i hi => (hactive i hi).elim

structure Launch (k0 k : Kernel) : Prop where
  start : k0.Start
  memory : k0.mach.kmem.free.card ≤ 0xE000
  runnable : (k0.proc 0).state = .runnable
  ready : (k0.dispatched 0).ready 0
  exec : exec ((k0.dispatched 0).enter 0) 0 (some 2) [] [] (fun _ => false) = .ok (true, k)
  launched : Launched (k.leave 0) 0

theorem Launch.run {k0 : Kernel} (h : Launch k0 k) :
    Lib.Run Step k0 [.dispatch 0, .exec 0 (some 2) [] [] fun _ => false] (k.leave 0) :=
  (Lib.Run.single (step_dispatch h.runnable)).snoc (step_exec h.ready h.exec)

theorem exists_launch : ∃ k0 k, Launch k0 k := by
  obtain ⟨k0, x, s, hstart, hb⟩ := exists_booted programFiles 1
  have hinode : k0.fs.inode 2 = { type := 2, nlink := 1, data := program } := by
    rw [hb.fs]
    rfl
  have hself : (k0.dispatched 0).proc 0 = { k0.proc 0 with state := .running } :=
    proc_dispatched_self k0 0
  have hothers : ∀ q, q ≠ 0 → (k0.dispatched 0).proc q = Proc.zero := fun q hq =>
    (proc_dispatched_ne k0 hq).trans (hb.others q hq)
  have hsound : ExecSound k0.fs k0.mach.kmem 2 [] := execSound_program hb
  have hold : Freeable ((k0.dispatched 0).enter 0).mach ((k0.dispatched 0).proc 0).pgdir := by
    rw [hself]
    exact ⟨hb.freeable.pages, hb.freeable.tables, hb.freeable.frame⟩
  obtain ⟨k, hexec⟩ := exec_total (k := (k0.dispatched 0).enter 0) [] (fun _ => false) hsound
    (show (k0.fs.inode 2).locked = false by rw [hinode]) hold
  have hmem : k0.mach.kmem.free.card ≤ 0xE000 := by
    have hcard := congrArg Multiset.card hb.balance
    have hlen := length_frames_pcImage
    simp only [card_add, coe_card] at hcard
    omega
  have hlaunched := launched_of_exec (k := (k0.dispatched 0).enter 0) (x := k0.proc 0)
    (show (k0.fs.inode 2).data = _ by rw [hinode]) (show (k0.fs.inode 2).type = _ by rw [hinode])
    hsound (le_trans (by decide) hb.memory) (hself.trans (by rw [hb.self])) hothers hexec
  refine ⟨k0, k, hstart, hmem, by rw [hb.self], hb.ready, hexec, ?_⟩
  exact ⟨hlaunched.state, hlaunched.ready, hlaunched.size, hlaunched.first, hlaunched.guard,
    hlaunched.others, hlaunched.forkable.congr rfl rfl rfl⟩

end Xv6
