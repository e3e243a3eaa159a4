import Xv6.Wmap
import Xv6.Lib.Interval
import Mathlib.Data.Fintype.Card

/-!
The region table of a process as a finite set of byte ranges. The slots in use are
those that do not hold the pair (0, -1); `wmap` fills the first free slot and `wunmap`
empties the first slot that starts at the address.
-/

namespace Xv6

open Finset

variable {i j : Fin MAX_WMMAP_INFO} {fd l t : Int} {w : Wmap} {a : Nat} {r : Region} {fb : Bool}

def Region.interval (r : Region) : Lib.Interval := ⟨r.addr, r.length⟩

def Wmap.active (w : Wmap) : Finset (Fin MAX_WMMAP_INFO) :=
  Finset.univ.filter fun i => (w.slot i).isEmpty = false

def Wmap.intervals (w : Wmap) : Finset Lib.Interval := w.active.image fun i => (w.slot i).interval

def InWindow (r : Lib.Interval) : Prop :=
  0x60000000 ≤ r.start ∧ 0 < r.length ∧ r.start + r.length ≤ 0x80000000

theorem inWindow_mk {a : Int} : InWindow ⟨a, l⟩ ↔ 0x60000000 ≤ a ∧ 0 < l ∧ a + l ≤ 0x80000000 := Iff.rfl

/-- The counter is right and the regions are ranges of the window that do not meet. -/
structure Wmap.Apart (w : Wmap) : Prop where
  total : w.total = w.active.card
  window : ∀ i ∈ w.active, InWindow (w.slot i).interval
  apart : ∀ i ∈ w.active, ∀ j ∈ w.active, i ≠ j → ¬ (w.slot i).interval.Meets (w.slot j).interval

theorem Wmap.mem_active : i ∈ w.active ↔ (w.slot i).isEmpty = false := by
  simp [active]

theorem Wmap.notMem_active : i ∉ w.active ↔ (w.slot i).isEmpty = true := by
  simp [active]

theorem isEmpty_of_window (h : InWindow r.interval) : r.isEmpty = false := by
  have hlen : 0 < r.length := h.2.1
  simp only [Region.isEmpty, Bool.and_eq_false_iff, decide_eq_false_iff_not]
  omega

@[simp] theorem Region.isEmpty_empty : Region.empty.isEmpty = true := rfl

@[simp] theorem Wmap.active_init : Wmap.init.active = ∅ := by
  simp [active, init]

theorem Wmap.apart_init : Wmap.init.Apart := ⟨rfl, by simp, by simp⟩

theorem addInt_of_lt {n : Int} (h0 : 0 ≤ (a : Int) + n) (h : (a : Int) + n < 0x100000000) :
    (addInt a n : Int) = a + n := by
  unfold addInt
  omega

theorem vasIntersect_iff {b : Nat} {m : Int} (h1 : InWindow ⟨a, l⟩) (h2 : InWindow ⟨b, m⟩) :
    vasIntersect a l b m = true ↔ Lib.Interval.Meets ⟨a, l⟩ ⟨b, m⟩ := by
  obtain ⟨ha, hl, hal⟩ := h1
  obtain ⟨hb, hm, hbm⟩ := h2
  simp only at ha hl hal hb hm hbm
  have h3 := addInt_of_lt (a := a) (n := l) (by omega) (by omega)
  have h4 := addInt_of_lt (a := b) (n := m) (by omega) (by omega)
  rw [Lib.Interval.meets_iff_of_pos hl hm]
  unfold vasIntersect
  rw [if_neg (by omega)]
  split
  · simp only [Bool.false_eq_true, false_iff]
    omega
  · simp only [true_iff]
    omega

/-- The scan of `wmap` stops at a region the new range meets; otherwise it finds the
first free slot. -/
theorem findSpot_eq (w : Wmap) (a : Nat) (l : Int) (is : List (Fin MAX_WMMAP_INFO))
    (spot : Option (Fin MAX_WMMAP_INFO)) :
    findSpot w a l is spot =
      if ∃ i ∈ is, i ∈ w.active ∧ vasIntersect a l (w.slot i).addr (w.slot i).length = true
      then none else some (spot <|> is.find? fun i => (w.slot i).isEmpty) := by
  induction is generalizing spot with
  | nil => simp [findSpot]
  | cons i is ih =>
    rw [findSpot]
    by_cases he : (w.slot i).isEmpty = true
    · have hi : i ∉ w.active := Wmap.notMem_active.mpr he
      rw [if_pos he, ih]
      simp only [List.mem_cons, exists_eq_or_imp, hi, false_and, false_or, List.find?_cons, he]
      cases spot <;> rfl
    · have hi : i ∈ w.active := Wmap.mem_active.mpr (by simpa using he)
      rw [if_neg he]
      by_cases hv : vasIntersect a l (w.slot i).addr (w.slot i).length = true
      · rw [if_pos hv, if_pos ⟨i, by simp, hi, hv⟩]
      · rw [if_neg hv, ih]
        simp only [List.mem_cons, exists_eq_or_imp, hv, Bool.false_eq_true, and_false, false_or,
          List.find?_cons, he]

theorem Wmap.add_some {w' : Wmap} (h : w.add a l fb fd = some w') : w.total ≠ MAX_WMMAP_INFO ∧
      (∀ j ∈ w.active, vasIntersect a l (w.slot j).addr (w.slot j).length = false) ∧
      ∃ i, i ∉ w.active ∧ w' = w.update i ⟨a, l, 0, fb, fd⟩ (w.total + 1) := by
  unfold add at h
  split at h
  · cases h
  rename_i htotal
  rw [findSpot_eq] at h
  split at h
  · rename_i i hs
    split at hs
    · cases hs
    rename_i hmeets
    replace hs := Option.some.inj hs
    refine ⟨htotal, ?_, i, notMem_active.mpr ?_, (Option.some.inj h).symm⟩
    · intro j hj
      by_contra hv
      exact hmeets ⟨j, List.mem_finRange j, hj, by simpa using hv⟩
    · simpa using List.find?_some hs
  · cases h

theorem Wmap.add_none (hw : w.total = w.active.card) (h : w.add a l fb fd = none) :
    w.active.card = MAX_WMMAP_INFO ∨
      ∃ j ∈ w.active, vasIntersect a l (w.slot j).addr (w.slot j).length = true := by
  unfold add at h
  split at h
  · rename_i htotal
    left
    exact_mod_cast hw.symm.trans htotal
  rw [findSpot_eq] at h
  by_cases hm : ∃ i ∈ List.finRange MAX_WMMAP_INFO, i ∈ w.active ∧
      vasIntersect a l (w.slot i).addr (w.slot i).length = true
  · obtain ⟨j, -, hj, hv⟩ := hm
    exact Or.inr ⟨j, hj, hv⟩
  rw [if_neg hm] at h
  cases hf : (List.finRange MAX_WMMAP_INFO).find? fun i => (w.slot i).isEmpty with
  | some i => simp [hf] at h
  | none =>
    left
    have hall : w.active = Finset.univ := by
      ext i
      have := List.find?_eq_none.mp hf i (List.mem_finRange i)
      simpa [mem_active] using this
    rw [hall]
    rfl

theorem Wmap.active_update_region (h : r.isEmpty = false) :
    (w.update i r t).active = insert i w.active := by
  ext j
  by_cases hj : j = i
  · subst hj
    simp [mem_active, update, h]
  · simp [mem_active, update, hj]

theorem Wmap.active_update_empty (w : Wmap) (i : Fin MAX_WMMAP_INFO) (t : Int) :
    (w.update i Region.empty t).active = w.active.erase i := by
  ext j
  by_cases hj : j = i
  · subst hj
    simp [mem_active, update]
  · simp [mem_active, update, hj]

@[simp] theorem Wmap.slot_update_self (w : Wmap) (i : Fin MAX_WMMAP_INFO) (r : Region) (t : Int) :
    (w.update i r t).slot i = r := by
  simp [update]

theorem Wmap.slot_update_ne {w : Wmap} {r : Region} {t : Int} (h : j ≠ i) :
    (w.update i r t).slot j = w.slot j := by
  simp [update, h]

theorem Wmap.image_slot_update {s : Finset (Fin MAX_WMMAP_INFO)} (h : i ∉ s) :
    s.image (fun j => ((w.update i r t).slot j).interval) =
      s.image fun j => (w.slot j).interval := by
  apply image_congr
  intro j hj
  have hne : j ≠ i := fun e => h (e ▸ hj)
  simp only [slot_update_ne hne]

section
variable {w w' : Wmap}

theorem Wmap.Apart.injOn (h : w.Apart) (hi : i ∈ w.active) (hj : j ∈ w.active)
    (he : (w.slot i).interval = (w.slot j).interval) : i = j := by
  by_contra hne
  apply h.apart i hi j hj hne
  rw [← he]
  exact Lib.Interval.meets_self (h.window i hi).2.1

theorem Wmap.Apart.card_intervals (h : w.Apart) : w.intervals.card = w.active.card :=
  card_image_of_injOn fun _ hi _ hj he => h.injOn hi hj he

theorem Wmap.Apart.start_inj (h : w.Apart) (hi : i ∈ w.active) (hj : j ∈ w.active)
    (he : (w.slot i).addr = (w.slot j).addr) : i = j := by
  by_contra hne
  apply h.apart i hi j hj hne
  have h1 : 0 < (w.slot i).length := (h.window i hi).2.1
  have h2 : 0 < (w.slot j).length := (h.window j hj).2.1
  rw [Lib.Interval.meets_iff_of_pos h1 h2]
  simp only [Region.interval, he]
  omega

theorem Wmap.Apart.add_isSome (h : w.Apart) (hr : InWindow ⟨a, l⟩) (fb : Bool) (fd : Int) :
    (w.add a l fb fd).isSome = true ↔
      w.intervals.card < MAX_WMMAP_INFO ∧ ∀ s ∈ w.intervals, ¬ Lib.Interval.Meets ⟨a, l⟩ s := by
  have hmeets : ∀ j ∈ w.active, vasIntersect a l (w.slot j).addr (w.slot j).length = true ↔
      Lib.Interval.Meets ⟨a, l⟩ (w.slot j).interval :=
    fun j hj => vasIntersect_iff hr (h.window j hj)
  have hcard : w.active.card ≤ MAX_WMMAP_INFO := by
    simpa using card_le_univ w.active
  rw [h.card_intervals]
  simp only [intervals, forall_mem_image]
  constructor
  · intro hs
    obtain ⟨w', hw'⟩ := Option.isSome_iff_exists.mp hs
    obtain ⟨ht, hno, -⟩ := add_some hw'
    rw [h.total] at ht
    refine ⟨?_, ?_⟩
    · omega
    · intro j hj hm
      rw [← hmeets j hj, hno j hj] at hm
      exact Bool.false_ne_true hm
  · rintro ⟨hlt, hno⟩
    cases ha : w.add a l fb fd with
    | some _ => rfl
    | none =>
      rcases add_none h.total ha with hfull | ⟨j, hj, hv⟩
      · omega
      · exact (hno hj ((hmeets j hj).mp hv)).elim

theorem Wmap.Apart.add (h : w.Apart) (hr : InWindow ⟨a, l⟩) (hadd : w.add a l fb fd = some w') :
    w'.Apart ∧ w'.intervals = insert ⟨a, l⟩ w.intervals := by
  obtain ⟨-, hno⟩ := (h.add_isSome hr fb fd).mp (by simp [hadd])
  obtain ⟨-, -, i, hi, rfl⟩ := add_some hadd
  have hact := active_update_region (w := w) (i := i) (t := w.total + 1)
    (isEmpty_of_window (r := ⟨a, l, 0, fb, fd⟩) hr)
  have hne : ∀ j ∈ w.active, j ≠ i := fun j hj e => hi (e ▸ hj)
  refine ⟨⟨?_, ?_, ?_⟩, ?_⟩
  · rw [hact, card_insert_of_notMem hi]
    push_cast
    rw [← h.total]
    rfl
  · intro j hj
    rw [hact, mem_insert] at hj
    rcases hj with rfl | hj
    · rw [slot_update_self]
      exact hr
    · rw [slot_update_ne (hne j hj)]
      exact h.window j hj
  · have hnew : ∀ j ∈ w.active, ¬ Lib.Interval.Meets ⟨a, l⟩ (w.slot j).interval :=
      fun j hj => hno _ (mem_image_of_mem _ hj)
    intro j hj j' hj' hjj'
    rw [hact, mem_insert] at hj hj'
    rcases hj with rfl | hj <;> rcases hj' with rfl | hj'
    · exact (hjj' rfl).elim
    · rw [slot_update_self, slot_update_ne (hne j' hj')]
      exact hnew j' hj'
    · rw [slot_update_self, slot_update_ne (hne j hj), Lib.Interval.meets_comm]
      exact hnew j hj
    · rw [slot_update_ne (hne j hj), slot_update_ne (hne j' hj')]
      exact h.apart j hj j' hj' hjj'
  · rw [intervals, hact, image_insert, slot_update_self, image_slot_update hi]
    rfl

theorem Wmap.Apart.drop (h : w.Apart) (hi : i ∈ w.active) :
    (w.update i Region.empty (w.total - 1)).Apart ∧
      (w.update i Region.empty (w.total - 1)).intervals =
        w.intervals.filter fun r => r.start ≠ ((w.slot i).addr : Int) := by
  have hact := active_update_empty w i (w.total - 1)
  have hne : ∀ j ∈ w.active.erase i, j ≠ i := fun j hj => ne_of_mem_erase hj
  refine ⟨⟨?_, ?_, ?_⟩, ?_⟩
  · have hpos : 0 < w.active.card := card_pos.mpr ⟨i, hi⟩
    rw [hact, card_erase_of_mem hi]
    push_cast [hpos]
    rw [← h.total]
    rfl
  · intro j hj
    rw [hact] at hj
    rw [slot_update_ne (hne j hj)]
    exact h.window j (mem_of_mem_erase hj)
  · intro j hj j' hj' hjj'
    rw [hact] at hj hj'
    rw [slot_update_ne (hne j hj), slot_update_ne (hne j' hj')]
    exact h.apart j (mem_of_mem_erase hj) j' (mem_of_mem_erase hj') hjj'
  · rw [intervals, hact, image_slot_update (notMem_erase i _)]
    ext r
    simp only [mem_image, mem_erase, mem_filter, intervals]
    constructor
    · rintro ⟨j, ⟨hji, hj⟩, rfl⟩
      refine ⟨⟨j, hj, rfl⟩, fun he => hji (h.start_inj hj hi ?_)⟩
      exact Int.ofNat.inj he
    · rintro ⟨⟨j, hj, rfl⟩, hs⟩
      refine ⟨j, ⟨?_, hj⟩, rfl⟩
      rintro rfl
      exact hs rfl

end

end Xv6
