import Mathlib.Data.Multiset.AddSub
import Mathlib.Data.Multiset.UnionInter
import Mathlib.Data.Set.Basic

/-!
A pool of resources together with references to resources outside of it, and the exchange
between the two that an operation makes: some references are freed into the pool, some
resources leave it to be referenced, some leave it and are lost. A pool without duplicates
that holds nothing referenced stays so as long as only sole references are freed.
-/

namespace Lib

structure Holding (ρ φ : Type) where
  pool : Multiset φ
  refs : ρ → φ → Prop

variable {ρ φ : Type}

/-- No resource is in the pool twice, and none that is in the pool is referenced. -/
structure Holding.Safe (s : Holding ρ φ) : Prop where
  nodup : s.pool.Nodup
  apart : ∀ r x, s.refs r x → x ∉ s.pool

def Holding.Accounted (s : Holding ρ φ) (x : φ) : Prop := x ∈ s.pool ∨ ∃ r, s.refs r x

def Holding.Sole (s : Holding ρ φ) (r : ρ) : Prop := ∀ x, s.refs r x → ∀ r', s.refs r' x → r' = r

/-- What an operation does to a holding: the resources of the references `freed` return to
the pool; `added` leave it and end up referenced, `lost` leave it and may not. References
outside of `dropped` survive. -/
structure Exchange (s t : Holding ρ φ) (freed : List (ρ × φ)) (dropped : Set ρ)
    (added lost : Multiset φ) : Prop where
  balance : t.pool + added + lost = s.pool + (freed.map Prod.snd : Multiset φ)
  nodup : (freed.map Prod.fst).Nodup
  valid : ∀ e ∈ freed, s.refs e.1 e.2
  origin : ∀ r x, t.refs r x → x ∈ added + lost ∨ ∃ r', s.refs r' x ∧ r' ∉ freed.map Prod.fst
  landed : ∀ x ∈ added, ∃ r, t.refs r x
  kept : ∀ r x, s.refs r x → r ∉ dropped → t.refs r x

section
variable {s t : Holding ρ φ} {freed : List (ρ × φ)} {dropped : Set ρ} {added lost : Multiset φ}

theorem Exchange.refl (s : Holding ρ φ) : Exchange s s [] ∅ 0 0 :=
  ⟨by simp, by simp, by simp, fun r x h => Or.inr ⟨r, h, by simp⟩, by simp, fun _ _ h _ => h⟩

theorem Exchange.of_refs (hbalance : t.pool + lost = s.pool)
    (horigin : ∀ r x, t.refs r x → ∃ r', s.refs r' x)
    (hkept : ∀ r x, s.refs r x → r ∉ dropped → t.refs r x) :
    Exchange s t [] dropped 0 lost := by
  refine ⟨by simpa using hbalance, by simp, by simp, ?_, by simp, hkept⟩
  intro r x h
  obtain ⟨r', h'⟩ := horigin r x h
  exact Or.inr ⟨r', h', by simp⟩

section
variable (h : Exchange s t freed dropped added lost)
include h

theorem Exchange.pool_nodup (hs : s.Safe)
    (hsole : ∀ e ∈ freed, s.Sole e.1) : (t.pool + added + lost).Nodup := by
  rw [h.balance, Multiset.nodup_add]
  refine ⟨hs.nodup, ?_, ?_⟩
  · rw [Multiset.coe_nodup]
    refine List.Nodup.map_on ?_ h.nodup.of_map
    intro e he e' he' heq
    have href := h.valid e' he'
    rw [← heq] at href
    exact Prod.ext (hsole e he e.2 (h.valid e he) e'.1 href).symm heq
  · rw [Multiset.disjoint_left]
    intro x hx hmem
    obtain ⟨e, he, rfl⟩ := List.mem_map.mp (Multiset.mem_coe.mp hmem)
    exact hs.apart e.1 e.2 (h.valid e he) hx

theorem Exchange.safe (hs : s.Safe) (hsole : ∀ e ∈ freed, s.Sole e.1) : t.Safe := by
  have hnodup := h.pool_nodup hs hsole
  rw [Multiset.add_assoc] at hnodup
  have hparts := Multiset.nodup_add.mp hnodup
  refine ⟨hparts.1, ?_⟩
  intro r x href hmem
  rcases h.origin r x href with hadd | ⟨r', hr', hfree⟩
  · exact Multiset.disjoint_left.mp hparts.2.2 hmem hadd
  have hin : x ∈ t.pool + added + lost := by simp [hmem]
  rw [h.balance, Multiset.mem_add] at hin
  rcases hin with hin | hin
  · exact hs.apart r' x hr' hin
  · obtain ⟨e, he, rfl⟩ := List.mem_map.mp (Multiset.mem_coe.mp hin)
    have hre := hsole e he e.2 (h.valid e he) r' hr'
    exact hfree (List.mem_map.mpr ⟨e, he, hre.symm⟩)

/-- After an exchange, references are dropped and nothing else happens. What was added may
then be lost. -/
theorem Exchange.then_drop {u : Holding ρ φ} {dropped' : Set ρ}
    (h' : Exchange t u [] dropped' 0 0) :
    Exchange s u freed (dropped ∪ dropped') 0 (added + lost) := by
  refine ⟨?_, h.nodup, h.valid, ?_, by simp, ?_⟩
  · have hpool := h'.balance
    simp only [Multiset.add_zero, List.map_nil, Multiset.coe_nil] at hpool
    rw [hpool, Multiset.add_zero, ← Multiset.add_assoc]
    exact h.balance
  · intro r x hr
    rcases h'.origin r x hr with hx | ⟨r', hr', -⟩
    · simp at hx
    · rw [Multiset.zero_add]
      exact h.origin r' x hr'
  · intro r x hr hn
    rw [Set.mem_union, not_or] at hn
    exact h'.kept r x (h.kept r x hr hn.1) hn.2

end

/-- Nothing goes missing when nothing is lost and each dropped reference is freed or has a
sibling that survives. -/
theorem Exchange.accounted (h : Exchange s t freed dropped added 0)
    (hdrop : ∀ r x, s.refs r x → r ∈ dropped →
      x ∈ freed.map Prod.snd ∨ ∃ r', s.refs r' x ∧ r' ∉ dropped)
    {x : φ} (hx : s.Accounted x) : t.Accounted x := by
  have hpool : x ∈ s.pool + (freed.map Prod.snd : Multiset φ) → t.Accounted x := by
    intro hin
    rw [← h.balance, Multiset.add_zero, Multiset.mem_add] at hin
    rcases hin with hin | hin
    · exact Or.inl hin
    · exact Or.inr (h.landed x hin)
  rcases hx with hx | ⟨r, hr⟩
  · exact hpool (Multiset.mem_add.mpr (Or.inl hx))
  · by_cases hd : r ∈ dropped
    · rcases hdrop r x hr hd with hf | ⟨r', hr', hn⟩
      · exact hpool (Multiset.mem_add.mpr (Or.inr (Multiset.mem_coe.mpr hf)))
      · exact Or.inr ⟨r', h.kept r' x hr' hn⟩
    · exact Or.inr ⟨r, h.kept r x hr hd⟩

end

end Lib
