import Xv6.Kernel
import Xv6.Mapping

/-!
`handle_cow_fault` never panics and never loses its frame: the table of the page exists,
so `mappages` cannot fail. It upgrades the entry in place or replaces it by a copy.
-/

namespace Xv6

variable {va : Nat} {d : PgDir} {e : Pte}

structure Rewritten (d : PgDir) (v : Nat) (e : Pte) (d' : PgDir) : Prop where
  frame : d'.frame = d.frame
  tables : d'.tables = d.tables
  entry : ∀ u, d'.entry u = if u = v then e else d.entry u

theorem Rewritten.frames {d' : PgDir} {v : Nat} (h : Rewritten d v e d') : d'.frames = d.frames := by
  rw [PgDir.frames, PgDir.frames, h.frame, h.tables]

theorem rewritten_setPte (e' : Pte) (hva : va < 0x100000000) (h : d.walk va = some e) :
    Rewritten d (va / 4096) e' (d.setPte va e') :=
  ⟨by simp, by simp, fun _ => PgDir.entry_setPte hva h⟩

theorem mappages_of_walk (a : Kmem) (pa : Frame) (perm : Flags) (hva : va < 0x100000000)
    (hal : va % 4096 = 0) (hw : d.walk va = some e) (hp : e.p = false) :
    mappages a d va 4096 pa perm = .ok (true, d.setPte va (Pte.make pa perm), a) := by
  have hwalk : walkpgdir a d va = (some e, d, a) := by
    simp only [PgDir.walk, Option.map_eq_some_iff] at hw
    obtain ⟨t, ht, rfl⟩ := hw
    simp [walkpgdir, ht]
  rw [mappages_page a d pa perm hva hal, mapLoop_eq]
  simp only [hwalk, hp]
  rfl

theorem cowRead_some {m : Machine} {x : Proc} {pa : Frame} {refCount : Nat}
    (h : cowRead m x va = some (pa, refCount)) : va < x.sz ∧ refCount = m.counts pa ∧ 1 ≤ refCount ∧
      ∃ pte, x.pgdir.walk va = some pte ∧ pte.p = true ∧ pte.u = true ∧ pte.cow = true ∧
        pte.ppn = pa := by
  unfold cowRead at h
  split at h
  · cases h
  rename_i hsz
  split at h
  · cases h
  rename_i pte hw
  split at h
  · cases h
  rename_i hpu
  split at h
  · cases h
  rename_i hcow
  dsimp only [Machine.getCount] at h
  split at h
  · cases h
  · rename_i hrc
    cases h
    simp only [Bool.or_eq_true, Bool.not_eq_true', not_or, Bool.not_eq_false] at hpu hcow
    exact ⟨by omega, rfl, by omega, pte, hw, hpu.1, hpu.2, hcow, rfl⟩

/-- What the second half of `handle_cow_fault` does to page `v`. -/
inductive CowResolved (m : Machine) (d : PgDir) (v : Nat) (pa : Frame) (refCount : Nat) :
    Bool → PgDir → Machine → Prop where
  | upgraded {d' : PgDir} : refCount = 1 →
      Rewritten d v { d.entry v with w := true, cow := false } d' →
      CowResolved m d v pa refCount true d' (m.lcr3 d.frame)
  | starved : refCount ≠ 1 → m.kmem.freelist = [] →
      CowResolved m d v pa refCount false d { m with kmem := { m.kmem with failed := true } }
  | copied {d' : PgDir} {x : Frame} {a : Kmem} : refCount ≠ 1 → kalloc m.kmem = (some x, a) →
      Rewritten d v (Pte.make x { (d.entry v).toFlags with w := true, cow := false }) d' →
      CowResolved m d v pa refCount true d'
        (((({ m with kmem := a, mem := Function.update m.mem x (m.mem pa) } : Machine).decCount
          pa).setCount x 1).lcr3 d.frame)

theorem cowResolve_spec (m : Machine) {pte : Pte} (pa : Frame) (refCount : Nat)
    (hva : va < 0x100000000) (hw : d.walk va = some pte) :
    ∃ b d' m', cowResolve m d va pa refCount = .ok (b, d', m') ∧
      CowResolved m d (va / 4096) pa refCount b d' m' := by
  have he := PgDir.entry_of_walk hva hw
  unfold cowResolve
  simp only [hw]
  split
  · rename_i hrc
    refine ⟨_, _, _, rfl, .upgraded hrc ?_⟩
    rw [he]
    exact rewritten_setPte _ hva hw
  rename_i hrc
  cases hk : kalloc m.kmem with
  | mk r a =>
    cases r with
    | none =>
      obtain ⟨hf, rfl⟩ := kalloc_none hk
      exact ⟨_, _, _, rfl, .starved hrc hf⟩
    | some x =>
      have hr := rewritten_setPte Pte.zero hva hw
      have hal : pgrounddown va % 4096 = 0 ∧ pgrounddown va < 0x100000000 ∧
          pgrounddown va / 4096 = va / 4096 := by
        unfold pgrounddown
        omega
      have hw' : (d.setPte va Pte.zero).walk (pgrounddown va) = some Pte.zero := by
        rw [walk_pgrounddown]
        have hsome := PgDir.walk_isSome_setPte d va va Pte.zero
        rw [hw, Option.isSome_some, Option.isSome_iff_exists] at hsome
        obtain ⟨e, hse⟩ := hsome
        have := PgDir.entry_of_walk hva hse
        rw [hr.entry, if_pos rfl] at this
        rw [hse, ← this]
      let perm : Flags := { pte.toFlags with w := true, cow := false }
      have hr' := rewritten_setPte (Pte.make x perm) hal.2.1 hw'
      rw [hal.2.2] at hr'
      have hrw : Rewritten d (va / 4096)
          (Pte.make x { (d.entry (va / 4096)).toFlags with w := true, cow := false })
          ((d.setPte va Pte.zero).setPte (pgrounddown va) (Pte.make x perm)) := by
        refine ⟨by simp, by simp, ?_⟩
        intro u
        rw [hr'.entry, hr.entry, he]
        by_cases hu : u = va / 4096 <;> simp [hu, perm]
      refine ⟨_, _, _, ?_, .copied hrc hk hrw⟩
      dsimp only
      rw [mappages_of_walk _ x perm hal.2.1 hal.1 hw' rfl]
      simp only [bind, Except.bind, if_true, PgDir.frame_setPte]
      rfl

theorem handleCowFault_spec (k : Kernel) (p : Fin NPROC) (hva : va < 0x100000000) :
    (handleCowFault k p va = .ok (false, k) ∧ cowRead k.mach (k.proc p) va = none) ∨
    ∃ pa refCount b d m, cowRead k.mach (k.proc p) va = some (pa, refCount) ∧
      CowResolved k.mach (k.proc p).pgdir (va / 4096) pa refCount b d m ∧
      handleCowFault k p va =
        .ok (b, { k with mach := m }.setProc p { k.proc p with pgdir := d }) := by
  cases hr : cowRead k.mach (k.proc p) va with
  | none =>
    refine Or.inl ⟨?_, rfl⟩
    simp only [handleCowFault, hr]
    rfl
  | some r =>
    obtain ⟨pa, refCount⟩ := r
    obtain ⟨-, -, -, pte, hw, -⟩ := cowRead_some hr
    obtain ⟨b, d, m, hres, hspec⟩ := cowResolve_spec k.mach pa refCount hva hw
    refine Or.inr ⟨pa, refCount, b, d, m, rfl, hspec, ?_⟩
    simp only [handleCowFault, hr, hres, bind, Except.bind]
    rfl

end Xv6
