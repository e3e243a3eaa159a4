import Mathlib.Data.Finset.Card
import Mathlib.Data.Finset.Image
import Mathlib.Data.Int.Order.Basic
import Mathlib.Order.Lattice

/-!
Half-open intervals of integers and finite sets of them with a bound on their number:
an interval can be added when there is room and it meets no other, and removed by its
start.
-/

namespace Lib

@[ext] structure Interval where
  start : Int
  length : Int
deriving DecidableEq, Repr

def Interval.Meets (r s : Interval) : Prop :=
  ∃ x, (r.start ≤ x ∧ x < r.start + r.length) ∧ s.start ≤ x ∧ x < s.start + s.length

theorem Interval.meets_iff (r s : Interval) :
    r.Meets s ↔ max r.start s.start < min (r.start + r.length) (s.start + s.length) := by
  constructor
  · rintro ⟨x, ⟨h1, h2⟩, h3, h4⟩
    omega
  · intro h
    exact ⟨max r.start s.start, by omega, by omega⟩

instance (r s : Interval) : Decidable (r.Meets s) := decidable_of_iff' _ (r.meets_iff s)

theorem Interval.meets_comm {r s : Interval} : r.Meets s ↔ s.Meets r := by
  rw [meets_iff, meets_iff, max_comm, min_comm]

theorem Interval.meets_iff_of_pos {r s : Interval} (hr : 0 < r.length) (hs : 0 < s.length) :
    r.Meets s ↔ s.start < r.start + r.length ∧ r.start < s.start + s.length := by
  rw [meets_iff]
  omega

theorem Interval.meets_self {r : Interval} (h : 0 < r.length) : r.Meets r :=
  ⟨r.start, by omega, by omega⟩

/-- The least interval of whole blocks of size `g` around `r`. -/
def Interval.roundOut (g : Int) (r : Interval) : Interval :=
  ⟨r.start / g * g, (r.start + r.length + g - 1) / g * g - r.start / g * g⟩

def addInterval (cap : Nat) (S : Finset Interval) (r : Interval) : Bool × Finset Interval :=
  if S.card < cap ∧ ∀ s ∈ S, ¬ r.Meets s then (true, insert r S) else (false, S)

/-- Remove the interval that starts at `a`. Nothing is to be removed from the empty set. -/
def removeAt (S : Finset Interval) (a : Int) : Bool × Finset Interval :=
  if S = ∅ then (true, S)
  else if ∃ r ∈ S, r.start = a then (true, S.filter fun r => r.start ≠ a)
  else (false, S)

end Lib
