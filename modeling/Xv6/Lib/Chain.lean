import Mathlib.Data.List.Nodup
import Mathlib.Logic.Function.Basic

/-!
Lists linked through a pointer in each element. `Chain next h l` says that the pointers from
`h` on run through the elements of `l` and end in the null pointer.
-/

namespace Lib

open Function

variable {α : Type}

def Chain (next : α → Option α) : Option α → List α → Prop
  | h, [] => h = none
  | h, a :: l => h = some a ∧ Chain next (next a) l

/-- The last element behind `a`, after at most `n` steps. -/
def chainEnd (next : α → Option α) : Nat → α → Option α
  | 0, _ => none
  | n + 1, a =>
    match next a with
    | none => some a
    | some b => chainEnd next n b

variable {next next' : α → Option α} {h : Option α} {l : List α} {a b : α}

theorem Chain.congr (hc : Chain next h l) (heq : ∀ a ∈ l, next' a = next a) : Chain next' h l := by
  induction l generalizing h with
  | nil => exact hc
  | cons a l ih =>
    refine ⟨hc.1, ?_⟩
    rw [heq a List.mem_cons_self]
    exact ih hc.2 fun b hb => heq b (List.mem_cons_of_mem a hb)

theorem Chain.head (hc : Chain next h l) : h = l.head? := by
  cases l with
  | nil => exact hc
  | cons a l => exact hc.1

theorem Chain.tail (hc : Chain next h (a :: l)) : Chain next (next a) l := hc.2

theorem Chain.chainEnd {n : Nat} (hc : Chain next (some a) l) (hn : l.length ≤ n) :
    chainEnd next n a = l.getLast? := by
  induction n generalizing a l with
  | zero =>
    rw [List.length_eq_zero_iff.mp (Nat.le_zero.mp hn)] at hc
    cases hc
  | succ n ih =>
    cases l with
    | nil => cases hc
    | cons b l =>
      obtain ⟨hb, hc⟩ := hc
      cases hb
      rw [Lib.chainEnd]
      cases hnext : next a with
      | none =>
        rw [hnext] at hc
        have hnil : l = [] := List.head?_eq_none_iff.mp hc.head.symm
        rw [hnil]
        rfl
      | some c =>
        rw [hnext] at hc
        have hcons : l ≠ [] := by
          rintro rfl
          cases hc
        rw [List.getLast?_cons_of_ne_nil hcons]
        exact ih hc (Nat.le_of_succ_le_succ hn)

theorem Chain.push [DecidableEq α] {z : α} (hc : Chain next h l) (hl : l.Nodup) (hb : b ∉ l)
    (hend : next b = none) (hlast : l.getLast? = some z) :
    Chain (update next z (some b)) h (l ++ [b]) := by
  induction l generalizing h with
  | nil => cases hlast
  | cons a l ih =>
    refine ⟨hc.1, ?_⟩
    cases l with
    | nil =>
      have haz : a = z := by simpa using hlast
      subst haz
      rw [update_self]
      refine ⟨rfl, ?_⟩
      rw [update_of_ne (by simpa using hb)]
      exact hend
    | cons a' l =>
      rw [List.getLast?_cons_of_ne_nil (List.cons_ne_nil _ _)] at hlast
      have hne : a ≠ z := by
        rintro rfl
        exact (List.nodup_cons.mp hl).1 (List.mem_of_getLast? hlast)
      rw [update_of_ne hne]
      exact ih hc.2 (List.nodup_cons.mp hl).2 (fun h => hb (List.mem_cons_of_mem a h)) hlast

end Lib
