import Xv6.Share

/-!
The ways `copyuvm` halts. The functions it calls panic with messages of their own, so its own
panics come from a page that is missing in the parent.
-/

namespace Xv6

open Lib

def CopyuvmPanic (e : Halt) : Prop :=
  e = .panic "copyuvm: pte should exist" ∨ e = .panic "copyuvm: page not present"

section
variable {m : Machine} {d : PgDir} {e : Halt}

theorem not_copyuvmPanic {msg : String} (h1 : msg ≠ "copyuvm: pte should exist")
    (h2 : msg ≠ "copyuvm: page not present") : ¬ CopyuvmPanic (.panic msg) := by
  rintro (h | h)
  · exact h1 (Halt.panic.inj h)
  · exact h2 (Halt.panic.inj h)

theorem kfree_error {x : Frame} (h : kfree m x = .error e) : ¬ CopyuvmPanic e := by
  unfold kfree at h
  split at h
  · cases h
    exact not_copyuvmPanic (by decide) (by decide)
  · cases h

theorem kfreeUnless_error {b : Bool} {x : Frame} (h : kfreeUnless b m x = .error e) : ¬ CopyuvmPanic e := by
  unfold kfreeUnless at h
  split at h
  · cases h
  · exact kfree_error h

theorem mapLoop_error {perm : Flags} {n va pa : Nat} {a : Kmem} (h : mapLoop perm n a d va pa = .error e) :
    ¬ CopyuvmPanic e := by
  have hpage : ∀ {a : Kmem} {d : PgDir} {va pa : Nat}, mapLoop perm 0 a d va pa = .error e →
      ¬ CopyuvmPanic e := by
    intro a d va pa h
    rw [mapLoop_eq] at h
    split at h
    · cases h
    · split at h
      · cases h
        exact not_copyuvmPanic (by decide) (by decide)
      · cases h
  induction n generalizing a d va pa with
  | zero => exact hpage h
  | succ n ih =>
    rw [mapLoop_succ] at h
    rcases bind_eq_error.mp h with h | ⟨r, -, h⟩
    · exact hpage h
    · split at h
      · exact ih h
      · cases h

theorem sweep_error {σ : Type} {dir : σ → PgDir} {body : σ → Nat → Pte → Except Halt (σ × Bool)}
    (hbody : ∀ s a pte e, body s a pte = .error e → ¬ CopyuvmPanic e) {n a bound : Nat} {s : σ}
    (h : sweep dir body n s a bound = .error e) : ¬ CopyuvmPanic e := by
  induction n generalizing s a with
  | zero =>
    rw [sweep] at h
    split at h
    · cases h
      rintro (h | h) <;> cases h
    · cases h
  | succ n ih =>
    rw [sweep] at h
    split at h
    · split at h
      · exact ih h
      split at h
      · rcases bind_eq_error.mp h with h | ⟨⟨s', go⟩, -, h⟩
        · exact hbody _ _ _ _ h
        · dsimp only at h
          split at h
          · exact ih h
          · cases h
      · exact ih h
    · cases h

theorem freeTables_error {xs : List Frame} (h : freeTables xs m = .error e) : ¬ CopyuvmPanic e := by
  induction xs generalizing m with
  | nil => cases h
  | cons x xs ih =>
    rcases bind_eq_error.mp h with h | ⟨m1, -, h⟩
    · exact kfreeUnless_error h
    · exact ih h

theorem freevm_error (h : freevm m d = .error e) : ¬ CopyuvmPanic e := by
  rcases bind_eq_error.mp h with h | ⟨⟨sz, d1, m1⟩, -, h⟩
  · unfold deallocuvm at h
    split at h
    · cases h
    rcases bind_eq_error.mp h with h | ⟨_, -, h⟩
    · refine sweep_error (fun s a pte e hb => ?_) h
      unfold deallocPage at hb
      split at hb
      · cases hb
        exact not_copyuvmPanic (by decide) (by decide)
      · rcases bind_eq_error.mp hb with hb | ⟨_, -, hb⟩
        · exact kfreeUnless_error hb
        · cases hb
    · cases h
  · rcases bind_eq_error.mp h with h | ⟨m2, -, h⟩
    · exact freeTables_error h
    · exact kfree_error h

theorem setupkvm_error (h : setupkvm m = .error e) : ¬ CopyuvmPanic e := by
  have loop : ∀ (ks : List Kmap) (m : Machine) (d : PgDir), mapKernel ks m d = .error e → ¬ CopyuvmPanic e := by
    intro ks
    induction ks with
    | nil =>
      intro m d h
      cases h
    | cons k ks ih =>
      intro m d h
      rcases bind_eq_error.mp h with h | ⟨⟨ok, d1, a⟩, -, h⟩
      · exact mapLoop_error h
      dsimp only at h
      split at h
      · exact ih _ _ h
      · rcases bind_eq_error.mp h with h | ⟨_, -, h⟩
        · exact freevm_error h
        · cases h
  unfold setupkvm at h
  split at h
  · cases h
  · exact loop _ _ _ h

/-- The loop of `copyuvm` finds every page of a process that has all its pages. -/
theorem copyLoop_error {n i : Nat} {pgdir : PgDir} (hal : i % 4096 = 0) (hfit : i / 4096 + n ≤ 0x80000)
    (hp : ∀ v, i / 4096 ≤ v → v < i / 4096 + n → (pgdir.entry v).p = true)
    (h : copyLoop n m pgdir d i = .error e) : ¬ CopyuvmPanic e := by
  induction n generalizing m pgdir d i with
  | zero => cases h
  | succ n ih =>
    have hpres := hp (i / 4096) le_rfl (by omega)
    have hwalk : pgdir.walk i = some _ := PgDir.walk_of_present (by omega) hpres
    rw [copyLoop, hwalk] at h
    dsimp only at h
    rw [if_neg (by rw [hpres]; decide)] at h
    rcases bind_eq_error.mp h with h | ⟨⟨ok, d1, a⟩, -, h⟩
    · exact mapLoop_error h
    dsimp only at h
    split at h
    · refine ih (by omega) (by omega) (fun v h1 h2 => ?_) h
      have hv := hp v (by omega) (by omega)
      split
      · rw [PgDir.entry_setPte (by omega) hwalk, if_neg (by omega)]
        exact hv
      · exact hv
    · rcases bind_eq_error.mp h with h | ⟨_, -, h⟩
      · exact freevm_error h
      · cases h

end

end Xv6
