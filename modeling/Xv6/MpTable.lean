import Xv6.Layout
import Xv6.Lib.Bytes

/-!
The walk of `mpinit` over the entries of the MP configuration table. In the `default` case the
`break` leaves the `switch` and not the loop: the pointer stays where it is, and a table with an
entry of another type is walked forever.

Memory is read at 32-bit virtual addresses.
-/

namespace Xv6

def p2v (a : Nat) : Nat := (a + 0x80000000) % 0x100000000

def mpSum (mem : Nat → UInt8) (addr len : Nat) : UInt8 :=
  (List.range len).foldl (fun s i => s + mem (addr + i)) 0

/-- `memcmp` with a string finds no difference. -/
def sameBytes (mem : Nat → UInt8) (addr : Nat) (s : List UInt8) : Bool :=
  (List.range s.length).map (fun i => mem (addr + i)) == s

/-- The candidates are 16 bytes apart, the size of `struct mp`. -/
def mpsearch1 (mem : Nat → UInt8) (a len : Nat) : Option Nat :=
  ((List.range (len / 16)).map (p2v a + 16 * ·)).find? fun p =>
    sameBytes mem p [95, 77, 80, 95] && mpSum mem p 16 == 0

def mpsearch (mem : Nat → UInt8) : Option Nat :=
  let bda := p2v 0x400
  let p := Lib.leAt mem (bda + 0x0E) 2 * 16
  let mp :=
    if p ≠ 0 then mpsearch1 mem p 1024
    else mpsearch1 mem ((Lib.leAt mem (bda + 0x13) 2 * 1024 + 0x100000000 - 1024) % 0x100000000) 1024
  mp <|> mpsearch1 mem 0xF0000 0x10000

/-- The floating pointer and the table that passes the tests. -/
def mpconfig (mem : Nat → UInt8) : Option (Nat × Nat) := do
  let mp ← mpsearch mem
  let physaddr := Lib.leAt mem (mp + 4) 4
  if physaddr = 0 then none else
  let conf := p2v physaddr
  if !sameBytes mem conf [80, 67, 77, 80] then none else
  if mem (conf + 6) ≠ 1 ∧ mem (conf + 6) ≠ 4 then none else
  if mpSum mem conf (Lib.leAt mem (conf + 4) 2) ≠ 0 then none else
  pure (mp, conf)

/-- What `mpinit` has set: `ncpu` is the length of `cpus`, which has room for `NCPU` entries. -/
structure Mp where
  lapic : Nat
  cpus : List UInt8
  ioapicid : UInt8
  ismp : Bool
  imcr : Bool
  deriving DecidableEq, Repr

/-- The `switch` of the loop at `p`. -/
def mpEntry (mem : Nat → UInt8) (p : Nat) (s : Mp) : Nat × Mp :=
  if mem p = 0 then
    ((p + 20) % 0x100000000, if s.cpus.length < 8 then { s with cpus := s.cpus ++ [mem (p + 1)] } else s)
  else if mem p = 2 then ((p + 8) % 0x100000000, { s with ioapicid := mem (p + 1) })
  else if mem p = 1 ∨ mem p = 3 ∨ mem p = 4 then ((p + 8) % 0x100000000, s)
  else (p, { s with ismp := false })

/-- The loop up to `e`, `none` when it has not ended after so many turns. -/
def mpLoop (mem : Nat → UInt8) (e : Nat) : Nat → Nat → Mp → Option Mp
  | 0, _, _ => none
  | turns + 1, p, s =>
    if p < e then mpLoop mem e turns (mpEntry mem p s).1 (mpEntry mem p s).2 else some s

def firstEntry (conf : Nat) : Nat := (conf + 44) % 0x100000000

def tableEnd (mem : Nat → UInt8) (conf : Nat) : Nat :=
  (conf + Lib.leAt mem (conf + 4) 2) % 0x100000000

/-- `mpinit`, with a bound on the turns of its loop. -/
def mpinit (turns : Nat) (mem : Nat → UInt8) : Option (Except Halt Mp) :=
  match mpconfig mem with
  | none => some (.error (.panic "Expect to run on an SMP"))
  | some (mp, conf) =>
    let s := { lapic := Lib.leAt mem (conf + 36) 4, cpus := [], ioapicid := 0, ismp := true, imcr := false }
    (mpLoop mem (tableEnd mem conf) turns (firstEntry conf) s).map fun s =>
      if s.ismp then .ok { s with imcr := mem (mp + 12) ≠ 0 }
      else .error (.panic "Didn't find a suitable machine")

/-- The entry at `p` has one of the five types, and ends at `q`. -/
def KnownEntry (mem : Nat → UInt8) (p q : Nat) : Prop :=
  mem p = 0 ∧ q = (p + 20) % 0x100000000 ∨
    (mem p = 1 ∨ mem p = 2 ∨ mem p = 3 ∨ mem p = 4) ∧ q = (p + 8) % 0x100000000

/-- From `p` on there are only entries of known types, up to the end of the table. -/
inductive AllKnown (mem : Nat → UInt8) (e : Nat) : Nat → Prop where
  | stop {p : Nat} : e ≤ p → AllKnown mem e p
  | entry {p q : Nat} : p < e → KnownEntry mem p q → AllKnown mem e q → AllKnown mem e p

inductive MeetsUnknown (mem : Nat → UInt8) (e : Nat) : Nat → Prop where
  | here {p : Nat} : p < e → (∀ q, ¬ KnownEntry mem p q) → MeetsUnknown mem e p
  | entry {p q : Nat} : p < e → KnownEntry mem p q → MeetsUnknown mem e q → MeetsUnknown mem e p

section
variable {mem : Nat → UInt8} {e p q : Nat} {s : Mp}

theorem KnownEntry.unique {q' : Nat} (h : KnownEntry mem p q) (h' : KnownEntry mem p q') : q = q' := by
  rcases h with ⟨hp, rfl⟩ | ⟨hp, rfl⟩ <;> rcases h' with ⟨hp', rfl⟩ | ⟨hp', rfl⟩ <;> simp_all

/-- A turn of the loop goes on to the next entry, or stays at an entry that it does not know. -/
theorem mpEntry_cases (mem : Nat → UInt8) (p : Nat) (s : Mp) :
    KnownEntry mem p (mpEntry mem p s).1 ∧ (mpEntry mem p s).2.ismp = s.ismp ∨
      (mpEntry mem p s).1 = p ∧ ∀ q, ¬ KnownEntry mem p q := by
  unfold mpEntry
  split_ifs with h0 hlt h2 h134
  · exact Or.inl ⟨Or.inl ⟨h0, rfl⟩, rfl⟩
  · exact Or.inl ⟨Or.inl ⟨h0, rfl⟩, rfl⟩
  · exact Or.inl ⟨Or.inr ⟨Or.inr (Or.inl h2), rfl⟩, rfl⟩
  · exact Or.inl ⟨Or.inr ⟨by tauto, rfl⟩, rfl⟩
  · refine Or.inr ⟨rfl, fun q hq => ?_⟩
    rcases hq with ⟨h, -⟩ | ⟨h, -⟩
    · exact h0 h
    · tauto

theorem AllKnown.not_meets (h : AllKnown mem e p) : ¬ MeetsUnknown mem e p := by
  induction h with
  | stop hp =>
    intro hm
    cases hm with
    | here hlt _ => omega
    | entry hlt _ _ => omega
  | entry hlt hq _ ih =>
    intro hm
    cases hm with
    | here _ hno => exact hno _ hq
    | entry _ hq' hm => exact ih (hq.unique hq' ▸ hm)

theorem AllKnown.mpLoop (h : AllKnown mem e p) (s : Mp) :
    ∃ turns t, mpLoop mem e turns p s = some t ∧ t.ismp = s.ismp := by
  induction h generalizing s with
  | stop hp => exact ⟨1, s, by rw [Xv6.mpLoop, if_neg (by omega)], rfl⟩
  | @entry p q hlt hq _ ih =>
    rcases mpEntry_cases mem p s with ⟨hnext, hismp⟩ | ⟨-, hno⟩
    · obtain ⟨turns, t, ht, hs⟩ := ih (mpEntry mem p s).2
      refine ⟨turns + 1, t, ?_, hs.trans hismp⟩
      rw [Xv6.mpLoop, if_pos hlt, ← hq.unique hnext, ht]
    · exact (hno q hq).elim

theorem allKnown_of_mpLoop {turns : Nat} {t : Mp} (h : mpLoop mem e turns p s = some t) :
    AllKnown mem e p := by
  induction turns generalizing p s with
  | zero => cases h
  | succ turns ih =>
    by_cases hlt : p < e
    · rw [mpLoop, if_pos hlt] at h
      rcases mpEntry_cases mem p s with ⟨hnext, -⟩ | ⟨hstay, -⟩
      · exact .entry hlt hnext (ih h)
      · rw [hstay] at h
        exact ih h
    · exact .stop (by omega)

end

/-- The loop over a table that passes the tests ends, and `mpinit` panics over an unknown entry,
if and only if there is no unknown entry. -/
theorem mpinit_ends_iff {mem : Nat → UInt8} {mp conf : Nat} (h : mpconfig mem = some (mp, conf)) :
    ((∃ turns, mpinit turns mem ≠ none) ∧ (MeetsUnknown mem (tableEnd mem conf) (firstEntry conf) →
      ∃ turns, mpinit turns mem = some (.error (.panic "Didn't find a suitable machine")))) ↔
    AllKnown mem (tableEnd mem conf) (firstEntry conf) := by
  constructor
  · rintro ⟨⟨turns, hturns⟩, -⟩
    obtain ⟨r, hr⟩ := Option.ne_none_iff_exists'.mp hturns
    rw [mpinit, h] at hr
    obtain ⟨t, ht, -⟩ := Option.map_eq_some_iff.mp hr
    exact allKnown_of_mpLoop ht
  · intro hall
    refine ⟨?_, fun hm => (hall.not_meets hm).elim⟩
    obtain ⟨turns, t, ht, -⟩ := hall.mpLoop _
    refine ⟨turns, ?_⟩
    rw [mpinit, h]
    dsimp only
    rw [ht]
    nofun

/-- Memory with a floating pointer at 0x1000, and behind it a table of the given length, checksum
and first entry. -/
def mpMemory (length checksum type : UInt8) (a : Nat) : UInt8 :=
  if a = 0x8000040F then 1 else if a < 0x80001000 then 0 else
    ([95, 77, 80, 95, 16, 16, 0, 0, 1, 0, 132, 0, 0, 0, 0, 0, 80, 67, 77, 80, length, 0, 1, checksum] ++
      List.replicate 36 0 ++ [type]).getD (a - 0x80001000) 0

theorem mpinit_ends_with_bus : ∃ turns, mpinit turns (mpMemory 52 154 1) ≠ none := by
  have hconf : mpconfig (mpMemory 52 154 1) = some (0x80001000, 0x80001010) := by decide
  refine ((mpinit_ends_iff hconf).mpr (.entry (by decide) ?_ (.stop (le_refl _)))).1
  exact Or.inr ⟨Or.inl (by decide), by decide⟩

/-- A table whose only entry has type 5 passes the tests, and the loop never ends. -/
theorem mpinit_endless : mpconfig (mpMemory 45 157 5) = some (0x80001000, 0x80001010) ∧
    ∀ turns, mpinit turns (mpMemory 45 157 5) = none := by
  have hconf : mpconfig (mpMemory 45 157 5) = some (0x80001000, 0x80001010) := by decide
  refine ⟨hconf, fun turns => ?_⟩
  rw [mpinit, hconf]
  refine Option.map_eq_none_iff.mpr (Option.eq_none_iff_forall_ne_some.mpr fun t ht => ?_)
  refine (allKnown_of_mpLoop ht).not_meets (.here (by decide) fun q hq => ?_)
  rcases hq with ⟨h, -⟩ | ⟨h, -⟩ <;> revert h <;> decide

end Xv6
