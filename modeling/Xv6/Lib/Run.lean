import Mathlib.Logic.Relation

/-!
Runs of a labelled transition system: what every step keeps, every run keeps, and a
relation that every step of one system matches in another is kept by whole runs.
-/

namespace Lib

variable {σ τ α : Type}

/-- The states a run reaches, with the labels of its steps. -/
inductive Run (step : σ → α → σ → Prop) (s : σ) : List α → σ → Prop where
  | refl : Run step s [] s
  | snoc {as : List α} {a : α} {t u : σ} : Run step s as t → step t a u → Run step s (as ++ [a]) u

/-- The steps that meet a condition on the state before them. -/
def When (cond : σ → α → Prop) (step : σ → α → σ → Prop) (s : σ) (a : α) (t : σ) : Prop :=
  cond s a ∧ step s a t

variable {step : σ → α → σ → Prop} {s t : σ} {as : List α}

theorem Run.invariant (inv : σ → Prop) (h : Run step s as t) (h0 : inv s)
    (hstep : ∀ s a t, inv s → step s a t → inv t) : inv t := by
  induction h with
  | refl => exact h0
  | snoc _ hs ih => exact hstep _ _ _ ih hs

theorem Run.mono_mem {step' : σ → α → σ → Prop} (h : Run step s as t)
    (hstep : ∀ s a t, a ∈ as → step s a t → step' s a t) : Run step' s as t := by
  induction h with
  | refl => exact .refl
  | snoc _ hs ih =>
    refine .snoc (ih fun s a t ha => hstep s a t (List.mem_append_left _ ha)) (hstep _ _ _ ?_ hs)
    exact List.mem_append_right _ (List.mem_singleton_self _)

theorem Run.mono {step' : σ → α → σ → Prop} (h : Run step s as t)
    (hstep : ∀ s a t, step s a t → step' s a t) : Run step' s as t :=
  h.mono_mem fun s a t _ => hstep s a t

theorem Run.single {a : α} (h : step s a t) : Run step s [a] t := Run.snoc .refl h

theorem Run.trans {bs : List α} {u : σ} (h : Run step s as t) (k : Run step t bs u) :
    Run step s (as ++ bs) u := by
  induction k with
  | refl => simpa using h
  | snoc _ hs ih =>
    rw [← List.append_assoc]
    exact .snoc ih hs

theorem Run.of_foldlM {ε : Type} {f : σ → α → Except ε σ} (h : as.foldlM f s = .ok t) :
    Run (fun s a t => f s a = .ok t) s as t := by
  induction as generalizing s with
  | nil =>
    cases h
    exact .refl
  | cons a as ih =>
    rw [List.foldlM_cons] at h
    cases hf : f s a with
    | error e =>
      rw [hf] at h
      cases h
    | ok u =>
      rw [hf] at h
      exact (Run.single hf).trans (ih h)

theorem Run.exists_of_foldlM {ε : Type} (as : List α) {f : σ → α → Except ε σ} {p : σ → Bool}
    (h : (as.foldlM f s).toOption.any p = true) :
    ∃ t, Run (fun s a t => f s a = .ok t) s as t ∧ p t = true := by
  cases hf : as.foldlM f s with
  | error e =>
    rw [hf] at h
    cases h
  | ok t =>
    rw [hf] at h
    exact ⟨t, .of_foldlM hf, h⟩

/-- The run of a system whose steps, when they can be taken, have an outcome each. -/
def trace {ε : Type} (f : σ → α → Option (ε × σ)) : List α → σ → Option (List (α × ε) × σ)
  | [], s => some ([], s)
  | a :: as, s =>
    match f s a with
    | none => none
    | some (e, s) => (trace f as s).map fun r => ((a, e) :: r.1, r.2)

theorem Run.of_trace {ε : Type} {f : σ → α → Option (ε × σ)} {ls : List (α × ε)}
    (h : trace f as s = some (ls, t)) : Run (fun s l t => f s l.1 = some (l.2, t)) s ls t := by
  induction as generalizing s ls with
  | nil =>
    cases h
    exact .refl
  | cons a as ih =>
    rw [trace] at h
    split at h
    · cases h
    · rename_i e u hf
      obtain ⟨⟨ls', t'⟩, hr, he⟩ := Option.map_eq_some_iff.mp h
      cases he
      exact (Run.single (a := (a, e)) hf).trans (ih hr)

theorem Run.exists_of_trace {ε : Type} (as : List α) {f : σ → α → Option (ε × σ)}
    {p : List (α × ε) × σ → Bool} (h : (trace f as s).any p = true) :
    ∃ ls t, Run (fun s l t => f s l.1 = some (l.2, t)) s ls t ∧ p (ls, t) = true := by
  cases hf : trace f as s with
  | none =>
    rw [hf] at h
    cases h
  | some r =>
    rw [hf] at h
    exact ⟨r.1, r.2, .of_trace hf, h⟩

end Lib
