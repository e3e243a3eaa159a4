import Mathlib.Logic.Function.Basic

/-!
Slots that hold distinct numbers. A slot that holds 0 is empty; the slots fill a set when the
numbers they hold are exactly those of the set, each in one slot.
-/

namespace Lib

open Function

section
variable {ι : Type}

structure Fills (r : ι → Nat) (used : Nat → Prop) : Prop where
  iff : ∀ n, n ≠ 0 → (used n ↔ ∃ i, r i = n)
  apart : ∀ i j, r i ≠ 0 → r i = r j → i = j

variable {r : ι → Nat} {used used' : Nat → Prop} {i j : ι} {v : Nat}

theorem Fills.inUse (h : Fills r used) (hi : r i ≠ 0) : used (r i) := (h.iff _ hi).mpr ⟨i, rfl⟩

theorem Fills.ne (h : Fills r used) (hi : r i ≠ 0) (hij : i ≠ j) : r j ≠ r i := fun he =>
  hij (h.apart i j hi he.symm)

theorem Fills.congr (h : Fills r used) (hused : ∀ n, n ≠ 0 → (used' n ↔ used n)) :
    Fills r used' := ⟨fun n hn => (hused n hn).trans (h.iff n hn), h.apart⟩

variable [DecidableEq ι]

theorem Fills.assign (h : Fills r used) (hi : r i = 0) (hv : v ≠ 0) (hnot : ¬ used v)
    (hused : ∀ n, n ≠ 0 → (used' n ↔ used n ∨ n = v)) : Fills (update r i v) used' := by
  have hfresh : ∀ j, r j ≠ v := fun j he => hnot ((h.iff v hv).mpr ⟨j, he⟩)
  refine ⟨fun n hn => ?_, fun j k hj hjk => ?_⟩
  · rw [hused n hn, h.iff n hn]
    constructor
    · rintro (⟨j, hj⟩ | rfl)
      · refine ⟨j, ?_⟩
        rw [update_of_ne]
        · exact hj
        · rintro rfl
          exact hn (hj.symm.trans hi)
      · exact ⟨i, update_self ..⟩
    · rintro ⟨j, hj⟩
      by_cases hji : j = i
      · subst hji
        rw [update_self] at hj
        exact Or.inr hj.symm
      · rw [update_of_ne hji] at hj
        exact Or.inl ⟨j, hj⟩
  · by_cases hji : j = i
    · subst hji
      by_contra hne
      rw [update_self, update_of_ne (Ne.symm hne)] at hjk
      exact hfresh k hjk.symm
    · rw [update_of_ne hji] at hj hjk
      by_cases hki : k = i
      · subst hki
        rw [update_self] at hjk
        exact (hfresh j hjk).elim
      · rw [update_of_ne hki] at hjk
        exact h.apart j k hj hjk

theorem Fills.clear (h : Fills r used) (hi : r i ≠ 0)
    (hused : ∀ n, n ≠ 0 → (used' n ↔ used n ∧ n ≠ r i)) : Fills (update r i 0) used' := by
  refine ⟨fun n hn => ?_, fun j k hj hjk => ?_⟩
  · rw [hused n hn, h.iff n hn]
    constructor
    · rintro ⟨⟨j, hj⟩, hne⟩
      refine ⟨j, ?_⟩
      rw [update_of_ne]
      · exact hj
      · rintro rfl
        exact hne hj.symm
    · rintro ⟨j, hj⟩
      have hji : j ≠ i := by
        rintro rfl
        rw [update_self] at hj
        exact hn hj.symm
      rw [update_of_ne hji] at hj
      refine ⟨⟨j, hj⟩, fun he => hji ?_⟩
      exact h.apart j i (by rw [hj]; exact hn) (hj.trans he)
  · have hji : j ≠ i := by
      rintro rfl
      rw [update_self] at hj
      exact hj rfl
    rw [update_of_ne hji] at hj hjk
    have hki : k ≠ i := by
      rintro rfl
      rw [update_self] at hjk
      exact hj hjk
    rw [update_of_ne hki] at hjk
    exact h.apart j k hj hjk

end

end Lib
