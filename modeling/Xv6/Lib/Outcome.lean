import Mathlib.Data.Multiset.AddSub
import Mathlib.Data.Multiset.Range
import Mathlib.Algebra.BigOperators.Group.Finset.Basic
import Mathlib.Algebra.Order.Group.Multiset

/-!
General tools: inversion and comparison of computations that may fail, lists indexed by
a partial function that is changed at one index, and sums of multisets over a finite
type that change at one or two summands.
-/

namespace Lib

open Function

theorem bind_eq_ok {ε α β : Type} {x : Except ε α} {f : α → Except ε β} {b : β} :
    (x >>= f) = .ok b ↔ ∃ a, x = .ok a ∧ f a = .ok b := by
  cases x with
  | error e => simp [bind, Except.bind]
  | ok a => simp [bind, Except.bind]

theorem bind_eq_error {ε α β : Type} {x : Except ε α} {f : α → Except ε β} {e : ε} :
    (x >>= f) = .error e ↔ x = .error e ∨ ∃ a, x = .ok a ∧ f a = .error e := by
  cases x with
  | error e' => simp [bind, Except.bind]
  | ok a => simp [bind, Except.bind]

theorem bind_of_ok {ε α β : Type} {x : Except ε α} {f : α → Except ε β} {a : α} (h : x = .ok a) :
    (x >>= f) = f a := by
  subst h
  rfl

theorem bind_congr_ok {ε α β : Type} {x : Except ε α} {f g : α → Except ε β}
    (h : ∀ a, x = .ok a → f a = g a) : (x >>= f) = (x >>= g) := by
  cases x with
  | error e => rfl
  | ok a => exact h a rfl

/-- A computation returns when its first part does and the rest does from there. -/
theorem exists_bind_ok {ε α β : Type} {x : Except ε α} {f : α → Except ε β} {a : α}
    (hx : x = .ok a) (hf : ∃ b, f a = .ok b) : ∃ b, (x >>= f) = .ok b := by
  subst hx
  exact hf

theorem exists_bind_ok_of {ε α β : Type} {x : Except ε α} {f : α → Except ε β} {a : α}
    {P : β → Prop} (hx : x = .ok a) (hf : ∃ b, f a = .ok b ∧ P b) :
    ∃ b, (x >>= f) = .ok b ∧ P b := by
  subst hx
  exact hf

/-- The value of a computation that can be evaluated. -/
theorem exists_ok {ε α : Type} {x : Except ε α} (P : α → Prop) [DecidablePred P]
    (h : x.toOption.any (fun a => decide (P a)) = true) : ∃ a, x = .ok a ∧ P a := by
  cases x with
  | error e => cases h
  | ok a => exact ⟨a, rfl, of_decide_eq_true h⟩

/-- Two computations that fail in the same way or return related values. -/
inductive Agree {ε α β : Type} (R : α → β → Prop) : Except ε α → Except ε β → Prop where
  | ok {a : α} {b : β} (h : R a b) : Agree R (.ok a) (.ok b)
  | error (e : ε) : Agree R (.error e) (.error e)

theorem Agree.bind {ε α β γ δ : Type} {R : α → β → Prop} {S : γ → δ → Prop} {x : Except ε α}
    {y : Except ε β} {f : α → Except ε γ} {g : β → Except ε δ} (h : Agree R x y)
    (hf : ∀ a b, R a b → Agree S (f a) (g b)) : Agree S (x >>= f) (y >>= g) := by
  cases h with
  | ok h => exact hf _ _ h
  | error e => exact .error e

theorem filterMap_update_none {β : Type} (f : Nat → Option β) (i : Nat) (x : β) (n : Nat)
    (hi : i < n) (hf : f i = none) :
    (((List.range n).filterMap (update f i (some x)) : List β) : Multiset β) =
      x ::ₘ (((List.range n).filterMap f : List β) : Multiset β) := by
  induction n with
  | zero => omega
  | succ n ih =>
    rw [List.range_succ, List.filterMap_append, List.filterMap_append]
    by_cases h : i = n
    · subst h
      have same : (List.range i).filterMap (update f i (some x)) =
          (List.range i).filterMap f := by
        apply List.filterMap_congr
        intro j hj
        rw [update_of_ne]
        have := List.mem_range.mp hj
        omega
      simp [same, hf]
    · have last : [n].filterMap (update f i (some x)) = [n].filterMap f := by
        apply List.filterMap_congr
        intro j hj
        rw [update_of_ne]
        have := List.mem_singleton.mp hj
        omega
      rw [last, ← Multiset.coe_add, ← Multiset.coe_add, ih (by omega), Multiset.cons_add]

section
variable {ι M : Type} [Fintype ι] [DecidableEq ι] [AddCommMonoid M]

theorem sum_split (f : ι → M) (i : ι) :
    ∑ j, f j = f i + ∑ j ∈ Finset.univ.erase i, f j :=
  (Finset.add_sum_erase _ f (Finset.mem_univ i)).symm

theorem sum_erase_congr {f g : ι → M} {i : ι} (h : ∀ j, j ≠ i → f j = g j) :
    ∑ j ∈ Finset.univ.erase i, f j = ∑ j ∈ Finset.univ.erase i, g j :=
  Finset.sum_congr rfl fun j hj => h j (Finset.ne_of_mem_erase hj)

end

end Lib
