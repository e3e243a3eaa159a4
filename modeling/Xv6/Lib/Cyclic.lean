import Mathlib.Data.Nat.ModEq
import Mathlib.Logic.Function.Basic

/-!
Cyclic buffers with free-running indices. Both indices count modulo `m`, and a slot is an
index modulo the capacity, which divides `m`. The elements between the two indices form a
queue: storing appends to it, taking removes its first element, and the indices tell an
empty and a full buffer apart even after they have wrapped. An index between the two splits
the queue into two.
-/

namespace Lib

open Function

structure Cyclic (α : Type) where
  data : Nat → α
  head : Nat
  tail : Nat

namespace Cyclic

variable {α : Type} (cap m : Nat)

def empty (q : Cyclic α) : Bool := q.head = q.tail

def full (q : Cyclic α) : Bool := q.tail = (q.head + cap) % m

def store (q : Cyclic α) (x : α) : Cyclic α :=
  { q with data := update q.data (q.tail % cap) x, tail := (q.tail + 1) % m }

def first (q : Cyclic α) : α := q.data (q.head % cap)

def advance (q : Cyclic α) : Cyclic α := { q with head := (q.head + 1) % m }

/-- The elements from the first index to the second one. -/
def toList (q : Cyclic α) : List α :=
  (List.range ((q.tail + m - q.head) % m)).map fun j => q.data ((q.head + j) % m % cap)

def retreat (q : Cyclic α) : Cyclic α := { q with tail := (q.tail + m - 1) % m }

def last (q : Cyclic α) : α := q.data ((q.tail + m - 1) % m % cap)

/-- The buffer holds the elements of `l`, the first one first. -/
structure Holds (q : Cyclic α) (l : List α) : Prop where
  length : l.length ≤ cap
  head : q.head < m
  tail : q.tail = (q.head + l.length) % m
  get : ∀ j x, l[j]? = some x → q.data ((q.head + j) % m % cap) = x

variable {cap m} {q : Cyclic α} {l : List α} {x : α}

theorem Holds.nil (h : q.head < m) (ht : q.tail = q.head) : Holds cap m q [] :=
  ⟨Nat.zero_le _, h, by simp [ht, Nat.mod_eq_of_lt h], by simp⟩

/-- Two distances below `m` from one index are equal when they lead to the same index. -/
theorem add_mod_cancel {a i j : Nat} (hi : i < m) (hj : j < m)
    (h : (a + i) % m = (a + j) % m) : i = j := by
  have hij : i % m = j % m := Nat.ModEq.add_left_cancel' a h
  rwa [Nat.mod_eq_of_lt hi, Nat.mod_eq_of_lt hj] at hij

theorem Holds.empty_iff (h : Holds cap m q l) (hlt : cap < m) : q.empty = true ↔ l = [] := by
  unfold Cyclic.empty
  rw [decide_eq_true_iff, h.tail]
  constructor
  · intro he
    have hlen : (q.head + 0) % m = (q.head + l.length) % m := by
      rw [Nat.add_zero, Nat.mod_eq_of_lt h.head]
      exact he
    have := add_mod_cancel (by omega) (Nat.lt_of_le_of_lt h.length hlt) hlen
    exact List.length_eq_zero_iff.mp this.symm
  · rintro rfl
    simp [Nat.mod_eq_of_lt h.head]

theorem Holds.full_iff (h : Holds cap m q l) (hlt : cap < m) :
    q.full cap m = true ↔ l.length = cap := by
  unfold full
  rw [decide_eq_true_iff, h.tail]
  constructor
  · exact add_mod_cancel (Nat.lt_of_le_of_lt h.length hlt) hlt
  · intro he
    rw [he]

theorem Holds.store (h : Holds cap m q l) (hdvd : cap ∣ m) (hroom : l.length < cap) :
    Holds cap m (q.store cap m x) (l ++ [x]) := by
  refine ⟨by simp; omega, h.head, ?_, fun j y hy => ?_⟩
  · simp only [Cyclic.store, List.length_append, List.length_cons, List.length_nil]
    rw [h.tail, Nat.mod_add_mod]
    rfl
  simp only [Cyclic.store]
  rw [h.tail, Nat.mod_mod_of_dvd _ hdvd, Nat.mod_mod_of_dvd _ hdvd]
  by_cases hj : j = l.length
  · subst hj
    rw [update_self]
    simpa using hy
  have hlt : j < l.length := by
    have := (List.getElem?_eq_some_iff.mp hy).1
    simp at this
    omega
  rw [List.getElem?_append_left hlt] at hy
  have hne : (q.head + j) % cap ≠ (q.head + l.length) % cap := fun he =>
    hj (add_mod_cancel (Nat.lt_trans hlt hroom) hroom he)
  rw [update_of_ne hne, ← Nat.mod_mod_of_dvd _ hdvd]
  exact h.get j y hy

theorem Holds.first (h : Holds cap m q (x :: l)) : q.first cap = x := by
  have hget := h.get 0 x rfl
  rwa [Nat.add_zero, Nat.mod_eq_of_lt h.head] at hget

theorem Holds.advance (h : Holds cap m q (x :: l)) : Holds cap m (q.advance m) l := by
  have hm : 0 < m := Nat.lt_of_le_of_lt (Nat.zero_le _) h.head
  refine ⟨Nat.le_of_succ_le h.length, Nat.mod_lt _ hm, ?_, fun j y hy => ?_⟩
  · simp only [Cyclic.advance]
    rw [h.tail, Nat.mod_add_mod, List.length_cons]
    congr 1
    omega
  · simp only [Cyclic.advance]
    rw [Nat.mod_add_mod, Nat.add_assoc, Nat.add_comm 1 j]
    exact h.get (j + 1) y hy

theorem Holds.distance (h : Holds cap m q l) (hlt : cap < m) :
    (q.tail + m - q.head) % m = l.length := by
  have hm : 0 < m := Nat.lt_of_le_of_lt (Nat.zero_le _) hlt
  have hl : l.length < m := Nat.lt_of_le_of_lt h.length hlt
  have hh := h.head
  rw [h.tail]
  by_cases hw : q.head + l.length < m
  · rw [Nat.mod_eq_of_lt hw, show q.head + l.length + m - q.head = l.length + m by omega,
      Nat.add_mod_right, Nat.mod_eq_of_lt hl]
  · have hmod : (q.head + l.length) % m = q.head + l.length - m := by
      rw [Nat.mod_eq_sub_mod (by omega), Nat.mod_eq_of_lt (by omega)]
    rw [hmod, show q.head + l.length - m + m - q.head = l.length by omega, Nat.mod_eq_of_lt hl]

theorem Holds.toList (h : Holds cap m q l) (hlt : cap < m) : q.toList cap m = l := by
  unfold Cyclic.toList
  rw [h.distance hlt]
  refine List.ext_getElem (by simp) fun j hj hj' => ?_
  rw [List.getElem_map, List.getElem_range]
  exact h.get j _ (List.getElem?_eq_getElem hj')

theorem Holds.left {a b : List α} (h : Holds cap m q (a ++ b)) :
    Holds cap m ⟨q.data, q.head, (q.head + a.length) % m⟩ a := by
  refine ⟨?_, h.head, rfl, fun j y hy => h.get j y ?_⟩
  · have := h.length
    rw [List.length_append] at this
    omega
  · rw [List.getElem?_append_left (List.getElem?_eq_some_iff.mp hy).1]
    exact hy

theorem Holds.right {a b : List α} (h : Holds cap m q (a ++ b)) :
    Holds cap m ⟨q.data, (q.head + a.length) % m, q.tail⟩ b := by
  have hm : 0 < m := Nat.lt_of_le_of_lt (Nat.zero_le _) h.head
  refine ⟨?_, Nat.mod_lt _ hm, ?_, fun j y hy => ?_⟩
  · have := h.length
    rw [List.length_append] at this
    omega
  · rw [h.tail, Nat.mod_add_mod, List.length_append, Nat.add_assoc]
  · rw [Nat.mod_add_mod, Nat.add_assoc]
    refine h.get (a.length + j) y ?_
    rwa [List.getElem?_append_right (Nat.le_add_right _ _), Nat.add_sub_cancel_left]

theorem tail_pred {a n : Nat} (hm : 0 < m) : ((a + (n + 1)) % m + m - 1) % m = (a + n) % m := by
  have h : ((a + (n + 1)) % m + m - 1) = (a + (n + 1)) % m + (m - 1) := by omega
  rw [h, Nat.mod_add_mod, show a + (n + 1) + (m - 1) = a + n + m by omega, Nat.add_mod_right]

theorem Holds.retreat (h : Holds cap m q (l ++ [x])) : Holds cap m (q.retreat m) l := by
  have hm : 0 < m := Nat.lt_of_le_of_lt (Nat.zero_le _) h.head
  have hl := h.left
  rwa [← tail_pred hm, ← show (l ++ [x]).length = l.length + 1 by simp, ← h.tail] at hl

theorem Holds.last (h : Holds cap m q (l ++ [x])) : q.last cap m = x := by
  have hm : 0 < m := Nat.lt_of_le_of_lt (Nat.zero_le _) h.head
  have hget := h.get l.length x (by simp)
  rwa [← tail_pred hm, ← show (l ++ [x]).length = l.length + 1 by simp, ← h.tail] at hget

end Cyclic

end Lib
