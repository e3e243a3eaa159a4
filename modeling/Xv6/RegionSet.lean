import Xv6.RegionCalls

/-!
The region table as a set of byte ranges. The abstract calls add a range to a set of at
most 16 disjoint ones and remove a range by its start; the calls on anonymous regions
inside the window do the same, whatever page faults and other processes do in between.
-/

namespace Xv6

open Lib Finset

variable {k : Kernel} {p : Fin NPROC} {w : Wmap} {i : Fin MAX_WMMAP_INFO} {a : Nat} {c : RegionCall}

/-- The call on a region table, without the tests of the system call. -/
def RegionCall.inner (k : Kernel) (p : Fin NPROC) : RegionCall → Except Halt (Bool × Kernel)
  | wmap addr length flags fd => do
      let (r, k) ← Xv6.wmap k p addr length flags fd
      pure (r.isSome, k)
  | wunmap addr => Xv6.wunmap k p addr

def RegionCall.abstract (S : Finset Lib.Interval) : RegionCall → Bool × Finset Lib.Interval
  | wmap addr length _ _ => addInterval MAX_WMMAP_INFO S ⟨addr, length⟩
  | wunmap addr => removeAt S addr

/-- An anonymous mapping of a range of the window, or any removal. -/
def RegionCall.Anonymous : RegionCall → Prop
  | wmap addr length flags _ => InWindow ⟨addr, length⟩ ∧ flags &&& 4 ≠ 0
  | wunmap _ => True

def Wmap.unloaded (w : Wmap) : Wmap :=
  { w with slot := fun i => { w.slot i with nLoaded := 0 } }

def PgDir.Usable (i : Image) (d : PgDir) : Prop :=
  ∀ v, v < 0x80000 → (d.entry v).p = true → i.kend ≤ (d.entry v).ppn ∧ (d.entry v).ppn < 0xE000

/-- The state the call relies on: open descriptors have files, mapped pages have frames. -/
def RegionCall.Ready (k : Kernel) (p : Fin NPROC) : RegionCall → Prop
  | wmap _ _ _ _ => ∀ i f, (k.proc p).ofile i = some f → 1 ≤ (k.fs.file f).ref
  | wunmap _ => (k.proc p).pgdir.Usable k.mach.image

/-- A call of process `p`, or anything else that changes at most the numbers of loaded
pages in its table. -/
def InnerStep (p : Fin NPROC) (k : Kernel) : Option RegionCall → Kernel → Prop
  | some c, k' => c.Anonymous ∧ ∃ b, c.inner k p = .ok (b, k')
  | none, k' => (k'.proc p).wmap.unloaded = (k.proc p).wmap.unloaded

structure Wmap.Plain (w : Wmap) : Prop where
  apart : w.Apart
  anonymous : ∀ i ∈ w.active, (w.slot i).fileBacked = false

theorem Wmap.active_unloaded (w : Wmap) : w.unloaded.active = w.active := rfl

theorem Wmap.plain_unloaded : w.unloaded.Plain ↔ w.Plain :=
  ⟨fun h => ⟨⟨h.apart.total, h.apart.window, h.apart.apart⟩, h.anonymous⟩,
    fun h => ⟨⟨h.apart.total, h.apart.window, h.apart.apart⟩, h.anonymous⟩⟩

theorem Wmap.Plain.drop (h : w.Plain) (hi : i ∈ w.active) :
    (w.update i Region.empty (w.total - 1)).Plain := by
  refine ⟨(h.apart.drop hi).1, ?_⟩
  intro j hj
  rw [active_update_empty] at hj
  rw [slot_update_ne (ne_of_mem_erase hj)]
  exact h.anonymous j (mem_of_mem_erase hj)

theorem Wmap.Plain.add {w' : Wmap} (h : w.Plain) {l : Int} {fd : Int} (hr : InWindow ⟨a, l⟩)
    (hadd : w.add a l false fd = some w') : w'.Plain := by
  refine ⟨(h.apart.add hr hadd).1, ?_⟩
  obtain ⟨-, -, i, -, rfl⟩ := add_some hadd
  rw [active_update_region (isEmpty_of_window (r := ⟨a, l, 0, false, fd⟩) hr)]
  intro j hj
  by_cases hji : j = i
  · subst hji
    rw [slot_update_self]
  · rw [slot_update_ne hji]
    exact h.anonymous j ((mem_insert.mp hj).resolve_left hji)

/-- One call does to the set of ranges what the abstract call does, and a failing call
leaves the table as it was. -/
theorem inner_spec {k' : Kernel} {b : Bool} (hw : (k.proc p).wmap.Plain) (hc : c.Anonymous)
    (h : c.inner k p = .ok (b, k')) : (k'.proc p).wmap.Plain ∧
      (b, (k'.proc p).wmap.intervals) = c.abstract (k.proc p).wmap.intervals ∧
      (b = false → (k'.proc p).wmap = (k.proc p).wmap) := by
  cases c with
  | wmap addr length flags fd =>
    obtain ⟨hin, hflags⟩ := hc
    obtain ⟨⟨r, k1⟩, h, hk⟩ := bind_eq_ok.mp h
    cases hk
    obtain ⟨-, n, hcase⟩ := wmap_spec h
    rw [decide_eq_false hflags] at hcase
    have hiff := hw.apart.add_isSome hin false n
    rcases hcase with ⟨rfl, hadd, hsame⟩ | ⟨rfl, hadd⟩
    · rw [hadd] at hiff
      rw [hsame]
      refine ⟨hw, ?_, fun _ => rfl⟩
      rw [RegionCall.abstract, addInterval, if_neg (by rw [← hiff]; simp)]
      rfl
    · rw [hadd] at hiff
      refine ⟨hw.add hin hadd, ?_, by simp⟩
      rw [RegionCall.abstract, addInterval, if_pos (hiff.mp rfl),
        (hw.apart.add hin hadd).2]
      rfl
  | wunmap addr =>
    have hempty : (k.proc p).wmap.total = 0 ↔ (k.proc p).wmap.intervals = ∅ := by
      rw [hw.apart.total, ← hw.apart.card_intervals, ← card_eq_zero]
      exact Int.ofNat_eq_zero
    rcases wunmap_cases h with ⟨ht, rfl, rfl⟩ | ⟨ht, hs, rfl, rfl⟩ | ⟨ht, i, k1, hs, hu, rfl⟩
    · refine ⟨hw, ?_, by simp⟩
      rw [RegionCall.abstract, removeAt, if_pos (hempty.mp ht)]
    · refine ⟨hw, ?_, fun _ => rfl⟩
      rw [RegionCall.abstract, removeAt, if_neg (mt hempty.mpr ht), if_neg]
      rintro ⟨r, hr, hstart⟩
      obtain ⟨j, hj, rfl⟩ := mem_image.mp hr
      exact Wmap.startsAt_none hs hj (Int.ofNat.inj hstart)
    · obtain ⟨hi, haddr⟩ := Wmap.startsAt_some hs
      obtain ⟨hsame, hanon⟩ := wmap_unmapPages hu
      obtain rfl := hanon (hw.anonymous i hi)
      simp only [if_true, Kernel.dropRegion, Kernel.setProc, Function.update_self, hsame]
      refine ⟨hw.drop hi, ?_, by simp⟩
      rw [RegionCall.abstract, removeAt, if_neg (mt hempty.mpr ht), if_pos,
        (hw.apart.drop hi).2, haddr]
      exact ⟨_, mem_image_of_mem _ hi, by rw [← haddr]; rfl⟩

theorem unmapPage_total {pte : Pte} (hfb : ((k.proc p).wmap.slot i).fileBacked = false)
    (hlo : k.mach.image.kend ≤ pte.ppn) (hhi : pte.ppn < 0xE000) :
    ∃ m, m.image = k.mach.image ∧ unmapPage p i k a pte = .ok
      ({ k with mach := m }.setProc p
        { k.proc p with pgdir := (k.proc p).pgdir.setPte a Pte.zero }, true) := by
  have hpos := k.mach.image.kend_pos
  have hne : pte.ppn ≠ 0 := Nat.ne_of_gt (lt_of_lt_of_le hpos hlo)
  have hm : ∃ m, kfreeUnless (k.proc p).wmap.isChild k.mach pte.ppn = .ok m := by
    unfold kfreeUnless
    split
    · exact ⟨_, rfl⟩
    · exact kfree_total hlo hhi
  obtain ⟨m, hm⟩ := hm
  refine ⟨m, (kfreeUnless_spec hm).image, ?_⟩
  simp only [unmapPage, if_neg hne, writeBack, hfb, hm, bind, Except.bind, pure, Except.pure,
    Bool.false_eq_true, if_false, if_true]

theorem unmapPages_total (addr : Nat) {bound : Nat} (hbound : bound ≤ 0x80000000)
    (hfb : ((k.proc p).wmap.slot i).fileBacked = false) (hu : (k.proc p).pgdir.Usable k.mach.image) :
    ∃ r, unmapPages k p addr bound i = .ok r := by
  unfold unmapPages
  split
  · refine sweep_total (P := fun s : Kernel => s.mach.image = k.mach.image ∧
      ((s.proc p).wmap.slot i).fileBacked = false ∧ (s.proc p).pgdir.Usable k.mach.image)
      (by omega) ?_ (Or.inl (Nat.lt_succ_self _)) ⟨rfl, hfb, hu⟩
    rintro s a pte ⟨himage, hfb, hu⟩ ha hw hp
    have he := PgDir.entry_of_walk (by omega) hw
    have hframe := hu (a / 4096) (by omega) (by rw [he]; exact hp)
    rw [he] at hframe
    obtain ⟨m, hm, hpage⟩ := unmapPage_total (a := a) hfb (by rw [himage]; exact hframe.1) hframe.2
    refine ⟨_, _, hpage, hm.trans himage, by simpa [Kernel.setProc] using hfb, ?_⟩
    intro v hv hpv
    simp only [Kernel.setProc, Function.update_self, PgDir.entry_setPte (by omega) hw] at hpv ⊢
    split at hpv
    · cases hpv
    · rename_i hne
      rw [if_neg hne]
      exact hu v hv hpv
  · exact ⟨_, rfl⟩

theorem inner_total (hw : (k.proc p).wmap.Plain) (hready : c.Ready k p) :
    ∃ b k', c.inner k p = .ok (b, k') := by
  cases c with
  | wmap addr length flags fd =>
    have hfd : ∃ r, storedFd k p fd = .ok r := by
      unfold storedFd duplicateFd
      split
      · split
        · split
          · exact ⟨_, rfl⟩
          rename_i f hf
          split
          · exact ⟨_, rfl⟩
          · have href := hready _ f hf
            simp only [filedup, if_neg (Nat.not_lt.mpr href)]
            exact ⟨_, rfl⟩
        · exact ⟨_, rfl⟩
      · exact ⟨_, rfl⟩
    obtain ⟨⟨n, k1⟩, hfd⟩ := hfd
    simp only [RegionCall.inner, Xv6.wmap, hfd, bind, Except.bind]
    cases (k1.proc p).wmap.add addr length (flags &&& 4 = 0) n with
    | none => exact ⟨_, _, rfl⟩
    | some w => exact ⟨_, _, rfl⟩
  | wunmap addr =>
    simp only [RegionCall.inner, Xv6.wunmap]
    split
    · exact ⟨_, _, rfl⟩
    split
    · exact ⟨_, _, rfl⟩
    rename_i i hs
    obtain ⟨hi, haddr⟩ := Wmap.startsAt_some hs
    obtain ⟨h1, h2, h3⟩ := inWindow_mk.mp (hw.apart.window i hi)
    have hsum := addInt_of_lt (a := addr) (n := ((k.proc p).wmap.slot i).length)
      (by omega) (by omega)
    have hbound : addInt addr ((k.proc p).wmap.slot i).length ≤ 0x80000000 := by omega
    obtain ⟨⟨k1, go⟩, hu⟩ := unmapPages_total addr hbound (hw.anonymous i hi) hready
    simp only [dellocateAndUnmap, hu, bind, Except.bind]
    split
    · exact ⟨_, _, rfl⟩
    · exact ⟨_, _, rfl⟩

/-- In every state that calls on anonymous regions of the window reach, the counter is the
number of regions, and each further call does to the set of byte ranges what the abstract
call does; a failing call leaves the table as it was. -/
theorem regionTable_refines_intervals {p : Fin NPROC} {k k' : Kernel}
    {calls : List (Option RegionCall)} (hinit : (k.proc p).wmap = Wmap.init)
    (h : Lib.Run (InnerStep p) k calls k') :
    (k'.proc p).wmap.total = (k'.proc p).wmap.active.card ∧
    (k'.proc p).wmap.intervals.card = (k'.proc p).wmap.active.card ∧
    ∀ c : RegionCall, c.Anonymous →
      (c.Ready k' p → ∃ b k'', c.inner k' p = .ok (b, k'')) ∧
      ∀ b k'', c.inner k' p = .ok (b, k'') →
        (b, (k''.proc p).wmap.intervals) = c.abstract (k'.proc p).wmap.intervals ∧
        (b = false → (k''.proc p).wmap = (k'.proc p).wmap) := by
  have hplain : (k'.proc p).wmap.Plain := by
    refine h.invariant (fun k => (k.proc p).wmap.Plain) ?_ ?_
    · rw [hinit]
      exact ⟨Wmap.apart_init, by simp⟩
    rintro s (_ | c) t hs hstep
    · rw [← Wmap.plain_unloaded, show (t.proc p).wmap.unloaded = _ from hstep,
        Wmap.plain_unloaded]
      exact hs
    · obtain ⟨hc, b, hstep⟩ := hstep
      exact (inner_spec hs hc hstep).1
  refine ⟨hplain.apart.total, hplain.apart.card_intervals, ?_⟩
  intro c hc
  refine ⟨inner_total hplain, ?_⟩
  intro b k'' hstep
  exact (inner_spec hplain hc hstep).2

theorem regionTable_refines_one_region : ∃ k' : Kernel,
    (k'.proc 0).wmap.active = {0} ∧
    (k'.proc 0).wmap.total = (k'.proc 0).wmap.active.card ∧
    ∃ b k'', (RegionCall.wunmap 0x60000000).inner k' 0 = .ok (b, k'') ∧
      (b, (k''.proc 0).wmap.intervals) =
        (RegionCall.wunmap 0x60000000).abstract (k'.proc 0).wmap.intervals := by
  obtain ⟨htotal, -, hcalls⟩ := @regionTable_refines_intervals 0 Kernel.fresh _
    [some (.wmap 0x60000000 0x1800 6 (-1))] rfl
    (Lib.Run.single ⟨⟨inWindow_mk.mpr (by omega), by decide⟩, true, rfl⟩)
  obtain ⟨hready, hcall⟩ := hcalls (.wunmap 0x60000000) trivial
  obtain ⟨b, k'', hb⟩ := hready (by intro v _ hp; cases hp)
  exact ⟨_, by decide, htotal, b, k'', hb, (hcall b k'' hb).1⟩

end Xv6
