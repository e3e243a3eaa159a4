import Mathlib.Data.Fintype.Card
import Mathlib.Data.Fintype.Prod
import Mathlib.Data.Finset.Card

/-!
Handles to shared objects with reference counts. A table assigns objects to handles; it is
sound when no object has more handles than its count says. Taking a handle raises the number
of handles by one and clearing one lowers it.
-/

namespace Lib

open Function Finset

section
variable {ι φ : Type} [Fintype ι] [DecidableEq φ]

def handles (t : ι → Option φ) (f : φ) : Nat := (Finset.univ.filter fun i => t i = some f).card

/-- No object has more handles than its count says. -/
def Counted (t : ι → Option φ) (ref : φ → Nat) : Prop := ∀ f, handles t f ≤ ref f

variable {t : ι → Option φ} {ref ref' : φ → Nat} {i : ι} {f : φ}

theorem handles_pos_iff : 0 < handles t f ↔ ∃ i, t i = some f := by
  simp [handles, card_pos, filter_nonempty_iff]

theorem Counted.pos (h : Counted t ref) (hi : t i = some f) : 1 ≤ ref f :=
  (handles_pos_iff.mpr ⟨i, hi⟩).trans_le (h f)

variable [DecidableEq ι]

theorem handles_update_le (t : ι → Option φ) (i : ι) (f g : φ) :
    handles (update t i (some f)) g ≤ handles t g + if g = f then 1 else 0 := by
  unfold handles
  by_cases hgf : g = f
  · subst hgf
    rw [if_pos rfl]
    refine (card_le_card fun j hj => ?_).trans (card_insert_le i _)
    rw [mem_insert]
    by_cases hji : j = i
    · exact Or.inl hji
    · simpa [hji] using hj
  · rw [if_neg hgf, Nat.add_zero]
    refine card_le_card fun j hj => ?_
    by_cases hji : j = i
    · subst hji
      simp [Ne.symm hgf] at hj
    · simpa [hji] using hj

theorem handles_take (t : ι → Option φ) {i : ι} (h : t i = none) (f g : φ) :
    handles (update t i (some f)) g = handles t g + if g = f then 1 else 0 := by
  unfold handles
  by_cases hgf : g = f
  · subst hgf
    have hinsert : (Finset.univ.filter fun j => update t i (some g) j = some g) =
        insert i (Finset.univ.filter fun j => t j = some g) := by
      ext j
      by_cases hji : j = i
      · subst hji
        simp
      · simp [hji]
    rw [if_pos rfl, hinsert, card_insert_of_notMem (by simp [h])]
  · rw [if_neg hgf, Nat.add_zero]
    congr 1
    ext j
    by_cases hji : j = i
    · subst hji
      simp [h, Ne.symm hgf]
    · simp [hji]

theorem handles_clear (t : ι → Option φ) {i : ι} {f : φ} (h : t i = some f) (g : φ) :
    handles (update t i none) g + (if g = f then 1 else 0) = handles t g := by
  unfold handles
  by_cases hgf : g = f
  · subst hgf
    have herase : (Finset.univ.filter fun j => update t i none j = some g) =
        (Finset.univ.filter fun j => t j = some g).erase i := by
      ext j
      by_cases hji : j = i
      · subst hji
        simp
      · simp [hji]
    rw [if_pos rfl, herase, card_erase_add_one (by simp [h])]
  · rw [if_neg hgf, Nat.add_zero]
    congr 1
    ext j
    by_cases hji : j = i
    · subst hji
      simp [h, Ne.symm hgf]
    · simp [hji]

theorem Counted.take (h : Counted t ref) (i : ι)
    (hle : ∀ g, (ref g + if g = f then 1 else 0) ≤ ref' g) :
    Counted (update t i (some f)) ref' := fun g =>
  (handles_update_le t i f g).trans ((Nat.add_le_add_right (h g) _).trans (hle g))

end

end Lib
