import Mathlib.Data.List.Pairwise
import Mathlib.Data.List.Induction
import Mathlib.Logic.Function.Basic

/-!
Copying cells of a memory one after the other. Cell `d i` receives what cell `s i` holds when
its turn comes, which is its old content unless an earlier turn wrote to that cell.
-/

namespace Lib

open Function

variable {ι α β : Type} [DecidableEq α] {d s : ι → α} {m : α → β}

def copyEach (d s : ι → α) (m : α → β) (is : List ι) : α → β :=
  is.foldl (fun m i => update m (d i) (m (s i))) m

theorem copyEach_snoc (is : List ι) (j : ι) : copyEach d s m (is ++ [j]) =
    update (copyEach d s m is) (d j) (copyEach d s m is (s j)) := by
  simp [copyEach]

theorem copyEach_of_ne {is : List ι} {a : α} (h : ∀ i ∈ is, a ≠ d i) : copyEach d s m is a = m a := by
  induction is using List.reverseRecOn with
  | nil => rfl
  | append_singleton is j ih =>
    rw [copyEach_snoc, update_of_ne (h j (by simp))]
    exact ih fun i hi => h i (by simp [hi])

/-- Every cell receives the old content of its source if and only if the sources that were
written to before their turn had the content that was written. -/
theorem copyEach_iff {is : List ι} (hd : (is.map d).Nodup) :
    (∀ i ∈ is, copyEach d s m is (d i) = m (s i)) ↔
      is.Pairwise fun i j => s j = d i → m (s j) = m (s i) := by
  induction is using List.reverseRecOn with
  | nil => simp
  | append_singleton is j ih =>
    rw [List.map_append, List.nodup_append] at hd
    obtain ⟨hd, -, hne⟩ := hd
    have hold : ∀ i ∈ is, copyEach d s m (is ++ [j]) (d i) = copyEach d s m is (d i) := fun i hi => by
      rw [copyEach_snoc, update_of_ne (hne _ (List.mem_map_of_mem hi) _ (by simp))]
    have hnew : copyEach d s m (is ++ [j]) (d j) = copyEach d s m is (s j) := by
      rw [copyEach_snoc, update_self]
    have hlast : (∀ i ∈ is, copyEach d s m is (d i) = m (s i)) →
        (copyEach d s m is (s j) = m (s j) ↔ ∀ i ∈ is, s j = d i → m (s j) = m (s i)) := fun hi => by
      constructor
      · intro h i hmem he
        rw [← h, he]
        exact hi i hmem
      · intro h
        by_cases hw : ∃ i ∈ is, s j = d i
        · obtain ⟨i, hmem, he⟩ := hw
          rw [h i hmem he, he]
          exact hi i hmem
        · exact copyEach_of_ne fun i hmem he => hw ⟨i, hmem, he⟩
    simp only [List.mem_append, List.mem_singleton, or_imp, forall_and, forall_eq, hnew,
      List.pairwise_append, List.pairwise_singleton, true_and, ← ih hd]
    rw [forall₂_congr fun i hi => by rw [hold i hi]]
    exact and_congr_right fun hi => hlast hi

end Lib
