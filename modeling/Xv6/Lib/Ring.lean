import Mathlib.Data.List.Chain
import Mathlib.Logic.Function.Basic

/-!
Circular doubly linked lists with a sentinel head. The links are two maps on nodes,
with `none` for the head; what a ring lists is read off by following them. Unlinking a
node and inserting one behind the head act on that list as expected.
-/

namespace Lib

open Function

structure Ring (α : Type) where
  next : Option α → Option α
  prev : Option α → Option α

namespace Ring

variable {α : Type} {r : Ring α} {l : List α} {b : α}

def Joins (r : Ring α) (x y : Option α) : Prop := r.next x = y ∧ r.prev y = x

/-- From the head, the links visit the nodes of `l` in order and come back. -/
structure Lists (r : Ring α) (l : List α) : Prop where
  chain : (none :: (l.map some ++ [none])).IsChain r.Joins
  nodup : l.Nodup

def empty : Ring α := ⟨fun _ => none, fun _ => none⟩

section
variable [DecidableEq α]

/-- Four assignments put a node behind the head. -/
def insertHead (r : Ring α) (b : α) : Ring α :=
  let next := update r.next (some b) (r.next none)
  let prev := update r.prev (some b) none
  let prev := update prev (next none) (some b)
  ⟨update next none (some b), prev⟩

def unlink (r : Ring α) (b : α) : Ring α :=
  let prev := update r.prev (r.next (some b)) (r.prev (some b))
  ⟨update r.next (prev (some b)) (r.next (some b)), prev⟩

end

/-- Follow one of the links from `x` to the first node that passes a test, or to the
head. The outer option is `none` when `n` nodes were not enough. -/
def find (step : Option α → Option α) (p : α → Bool) : Nat → Option α → Option (Option α)
  | _, none => some none
  | 0, some _ => none
  | n + 1, some i => if p i then some (some i) else find step p n (step (some i))

theorem lists_empty : (empty : Ring α).Lists [] :=
  ⟨List.isChain_pair.mpr ⟨rfl, rfl⟩, List.nodup_nil⟩

section
variable [DecidableEq α]

theorem insertHead_joins {y : Option α} (hy : r.Joins none y) (hb : y ≠ some b) :
    (r.insertHead b).Joins none (some b) ∧ (r.insertHead b).Joins (some b) y := by
  obtain ⟨hnext, hprev⟩ := hy
  simp [insertHead, Joins, hnext, update_of_ne, Ne.symm hb]

theorem insertHead_joins_of_ne {u v y : Option α} (hy : r.Joins none y)
    (hu : u ≠ some b) (hv : v ≠ some b) (hn : u ≠ none) (h : r.Joins u v) :
    (r.insertHead b).Joins u v := by
  have hvy : v ≠ y := fun e => hn (by rw [← h.2, e, hy.2])
  obtain ⟨hnext, hprev⟩ := h
  simp [insertHead, Joins, hy.1, update_of_ne, hu, hv, hn, hvy, hnext, hprev]

theorem Lists.insertHead (h : r.Lists l) (hb : b ∉ l) : (r.insertHead b).Lists (b :: l) := by
  obtain ⟨y, c, hc⟩ : ∃ y c, l.map some ++ [none] = y :: c := by
    cases l with
    | nil => exact ⟨none, [], rfl⟩
    | cons x l => exact ⟨some x, l.map some ++ [none], rfl⟩
  have hmem : ∀ z ∈ y :: c, z ≠ some b := by
    intro z hz e
    rw [← hc, e] at hz
    simp [hb] at hz
  have hchain := h.chain
  rw [hc, List.isChain_cons_cons] at hchain
  obtain ⟨hy, hrest⟩ := hchain
  have hfresh : y ∉ c := by
    cases l with
    | nil =>
      obtain ⟨rfl, rfl⟩ : none = y ∧ [] = c := by simpa using hc
      simp
    | cons x l =>
      obtain ⟨rfl, rfl⟩ : some x = y ∧ l.map some ++ [none] = c := by simpa using hc
      simpa using (List.nodup_cons.mp h.nodup).1
  have hnew := insertHead_joins hy (hmem y List.mem_cons_self)
  refine ⟨?_, List.nodup_cons.mpr ⟨hb, h.nodup⟩⟩
  rw [List.map_cons, List.cons_append, hc, List.isChain_cons_cons, List.isChain_cons_cons]
  refine ⟨hnew.1, hnew.2, hrest.imp_of_mem_tail_imp ?_⟩
  intro u v hu hv huv
  refine insertHead_joins_of_ne hy (hmem u hu) (hmem v (List.mem_cons_of_mem _ hv)) ?_ huv
  -- the head is the last node of the chain, so it joins no other node of it
  rintro rfl
  have : v = y := by rw [← huv.1, hy.1]
  exact hfresh (this ▸ hv)

theorem unlink_joins {x y : Option α} (hx : r.Joins x (some b)) (hy : r.Joins (some b) y)
    (hb : y ≠ some b) : (r.unlink b).Joins x y := by
  simp [unlink, Joins, hx.2, hy.1, update_of_ne, Ne.symm hb]

theorem unlink_joins_of_ne {u v x y : Option α} (hx : r.Joins x (some b))
    (hy : r.Joins (some b) y) (hb : y ≠ some b) (hu : u ≠ some b) (hv : v ≠ some b)
    (h : r.Joins u v) : (r.unlink b).Joins u v := by
  have hux : u ≠ x := fun e => hv (by rw [← h.1, e, hx.1])
  have hvy : v ≠ y := fun e => hu (by rw [← h.2, e, hy.2])
  obtain ⟨hnext, hprev⟩ := h
  simp [unlink, Joins, hx.2, hy.1, update_of_ne, Ne.symm hb, hux, hvy, hnext, hprev]

theorem Lists.unlink {l1 l2 : List α} (h : r.Lists (l1 ++ b :: l2)) :
    (r.unlink b).Lists (l1 ++ l2) := by
  obtain ⟨a, x, hx⟩ : ∃ a x, none :: l1.map some = a ++ [x] :=
    ⟨_, _, (List.dropLast_append_getLast (List.cons_ne_nil _ _)).symm⟩
  obtain ⟨y, c, hc⟩ : ∃ y c, l2.map some ++ [none] = y :: c := by
    cases l2 with
    | nil => exact ⟨none, [], rfl⟩
    | cons z l => exact ⟨some z, l.map some ++ [none], rfl⟩
  have hnodup := List.perm_middle.nodup_iff.mp h.nodup
  have hb := (List.nodup_cons.mp hnodup).1
  have hleft : ∀ z ∈ a ++ [x], z ≠ some b := by
    intro z hz e
    rw [← hx, e] at hz
    have hz : b ∈ l1 := by simpa using hz
    exact hb (List.mem_append_left l2 hz)
  have hright : ∀ z ∈ y :: c, z ≠ some b := by
    intro z hz e
    rw [← hc, e] at hz
    have hz : b ∈ l2 := by simpa using hz
    exact hb (List.mem_append_right l1 hz)
  have hchain := h.chain
  rw [List.map_append, List.map_cons, List.append_assoc, List.cons_append, hc,
    ← List.cons_append, hx, List.append_assoc, List.singleton_append,
    List.isChain_append_cons_cons, List.isChain_cons_cons] at hchain
  obtain ⟨hA, hxb, hby, hC⟩ := hchain
  have hyb := hright y List.mem_cons_self
  refine ⟨?_, (List.nodup_cons.mp hnodup).2⟩
  rw [List.map_append, List.append_assoc, hc, ← List.cons_append, hx, List.append_assoc,
    List.singleton_append, List.isChain_append_cons_cons]
  refine ⟨hA.imp_of_mem_imp ?_, unlink_joins hxb hby hyb, hC.imp_of_mem_imp ?_⟩
  · intro u v hu hv
    exact unlink_joins_of_ne hxb hby hyb (hleft u hu) (hleft v hv)
  · intro u v hu hv
    exact unlink_joins_of_ne hxb hby hyb (hright u hu) (hright v hv)

end

private theorem find_of_chain {step : Option α → Option α} (p : α → Bool) {x : Option α}
    {n : Nat} (h : (x :: (l.map some ++ [none])).IsChain fun x y => step x = y)
    (hn : l.length ≤ n) : find step p n (step x) = some (l.find? p) := by
  induction l generalizing x n with
  | nil =>
    rw [List.isChain_pair.mp h, find.eq_def]
    rfl
  | cons i l ih =>
    rw [List.map_cons, List.cons_append, List.isChain_cons_cons] at h
    obtain ⟨n, rfl⟩ : ∃ m, n = m + 1 := ⟨n - 1, by simp at hn; omega⟩
    rw [h.1, find, List.find?_cons]
    by_cases hi : p i
    · simp [hi]
    · simp only [hi, Bool.false_eq_true, if_false]
      exact ih h.2 (by simpa using hn)

theorem Lists.find_next (h : r.Lists l) (p : α → Bool) {n : Nat} (hn : l.length ≤ n) :
    find r.next p n (r.next none) = some (l.find? p) :=
  find_of_chain p (h.chain.imp fun _ _ => And.left) hn

theorem Lists.find_prev (h : r.Lists l) (p : α → Bool) {n : Nat} (hn : l.length ≤ n) :
    find r.prev p n (r.prev none) = some (l.reverse.find? p) := by
  refine find_of_chain p ?_ (by simpa using hn)
  have hrev : (none :: (l.reverse.map some ++ [none])) = (none :: (l.map some ++ [none])).reverse := by
    simp
  rw [hrev, List.isChain_reverse]
  exact h.chain.imp fun _ _ => And.right

end Ring

end Lib
