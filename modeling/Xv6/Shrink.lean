import Xv6.GrowFailure

/-!
Shrinking an address space. The size that `deallocuvm` returns is 0 both for an error and for
an address space that was emptied, and a sum below 0 comes out as a size above the old one.
-/

namespace Xv6

/-- The address space of `p` has shrunk by `-n`: exactly the pages behind the new size are
gone. -/
structure ShrinkDone (k : Kernel) (p : Fin NPROC) (n : Int) (k' : Kernel) : Prop where
  size : ((k'.proc p).sz : Int) = (k.proc p).sz + n
  gone : ∀ v, sizePages (k'.proc p).sz ≤ v → v < sizePages (k.proc p).sz →
    ((k'.proc p).pgdir.entry v).p = false
  kept : ∀ v, v < sizePages (k'.proc p).sz ∨ sizePages (k.proc p).sz ≤ v →
    (k'.proc p).pgdir.entry v = (k.proc p).pgdir.entry v

structure ShrinkRefused (k : Kernel) (p : Fin NPROC) (k' : Kernel) : Prop where
  size : (k'.proc p).sz = (k.proc p).sz
  entry : ∀ v, (k'.proc p).pgdir.entry v = (k.proc p).pgdir.entry v

/-- A call of `growproc(n)` with `n < 0` that returned `b` has done all or nothing. -/
def ShrinkWhole (k : Kernel) (p : Fin NPROC) (n : Int) (b : Bool) (k' : Kernel) : Prop :=
  b = true ∧ ShrinkDone k p n k' ∨ b = false ∧ ShrinkRefused k p k'

section
variable {k k' : Kernel} {p : Fin NPROC}

theorem sizePages_pgroundup {sz v : Nat} (hsz : sz < 0x80000000) :
    pgroundup sz / 4096 ≤ v ↔ sizePages sz ≤ v := by
  rw [sizePages_eq (by omega)]

theorem mem_deallocRange_pages {oldsz newsz v : Nat} (hlt : newsz < oldsz) (hold : oldsz < 0x80000000) :
    v ∈ deallocRange oldsz newsz ↔ sizePages newsz ≤ v ∧ v < sizePages oldsz := by
  rw [mem_deallocRange, sizePages_pgroundup (by omega)]
  unfold sizePages pagesTo
  omega

theorem growproc_of_pos {n : Int} {sz : Nat} {d : PgDir} {m : Machine} (hsz : sz ≠ 0)
    (h : resize k.mach (k.proc p).pgdir (k.proc p).sz n = .ok (sz, d, m)) :
    growproc k p n = .ok (true, switchuvm ({ k with mach := m }.setProc p
      { k.proc p with pgdir := d, sz := sz }) p) :=
  Lib.bind_eq_ok.mpr ⟨_, h, if_neg fun hz => hsz hz.2⟩

/-- A sum below 0 wraps above the old size, which comes back as if the call had succeeded. -/
theorem growproc_wraps {n : Int} {b : Bool} (hn : n < 0) (hlo : -0x80000000 ≤ n)
    (hsz : (k.proc p).sz < 0x80000000) (hneg : (k.proc p).sz + n < 0)
    (h : growproc k p n = .ok (b, k')) :
    (b = true ↔ (k.proc p).sz ≠ 0) ∧ (k'.proc p).sz = (k.proc p).sz ∧
      (k'.proc p).pgdir = (k.proc p).pgdir := by
  have hle : (k.proc p).sz ≤ addInt (k.proc p).sz n := by
    unfold addInt
    omega
  have hr : resize k.mach (k.proc p).pgdir (k.proc p).sz n =
      .ok ((k.proc p).sz, (k.proc p).pgdir, k.mach) := by
    rw [resize, if_neg (by omega), if_pos hn, deallocuvm, if_pos hle]
    rfl
  by_cases hzero : (k.proc p).sz = 0
  · have hcall := growproc_of_zero (k := k) (p := p) (n := n) (by omega) (hr.trans (by rw [hzero]))
    rw [h] at hcall
    cases hcall
    rw [Kernel.proc_setProc_self]
    exact ⟨by simp [hzero], rfl, rfl⟩
  · rw [growproc_of_pos hzero hr] at h
    cases h
    simp [switchuvm, hzero]

/-- Otherwise the pages behind the new size are cleared, and the size is stored unless it is
0. -/
theorem growproc_clears {n : Int} {b : Bool} (hn : n < 0) (hsz : (k.proc p).sz < 0x80000000)
    (hpos : 0 ≤ (k.proc p).sz + n) (h : growproc k p n = .ok (b, k')) :
    (b = true ↔ (k.proc p).sz + n ≠ 0) ∧
      ((k'.proc p).sz : Int) = (if (k.proc p).sz + n = 0 then ((k.proc p).sz : Int) else (k.proc p).sz + n) ∧
      Cleared (k.proc p).pgdir (fun v => ((k.proc p).sz + n).toNat ≤ v * 4096 ∧ v < sizePages (k.proc p).sz)
        (k'.proc p).pgdir ∧
      ((∀ v, v < sizePages (k.proc p).sz → ((k.proc p).pgdir.entry v).p = false) →
        (k'.proc p).pgdir = (k.proc p).pgdir) := by
  have hnew : (addInt (k.proc p).sz n : Int) = (k.proc p).sz + n := by
    unfold addInt
    omega
  generalize hz : addInt (k.proc p).sz n = newsz at hnew
  have hrange : ∀ v, v ∈ deallocRange (k.proc p).sz newsz ↔
      ((k.proc p).sz + n).toNat ≤ v * 4096 ∧ v < sizePages (k.proc p).sz := by
    intro v
    rw [mem_deallocRange_pages (by omega) hsz]
    unfold sizePages pagesTo
    omega
  obtain ⟨⟨sz, d, m⟩, hr, hres⟩ := Lib.bind_eq_ok.mp h
  clear hres
  have hd := hr
  rw [resize, if_neg (by omega), if_pos hn, hz] at hd
  obtain ⟨hret, -, hc⟩ := deallocuvm_spec (by omega) hd
  rw [if_neg (by omega)] at hret
  subst hret
  have hsame : (∀ v, v < sizePages (k.proc p).sz → ((k.proc p).pgdir.entry v).p = false) →
      d = (k.proc p).pgdir := by
    intro habs
    obtain ⟨sz1, hnone⟩ : ∃ sz1, deallocuvm k.mach (k.proc p).pgdir (k.proc p).sz sz =
        .ok (sz1, (k.proc p).pgdir, k.mach) :=
      deallocuvm_absent (by omega) fun v hv => habs v ((hrange v).mp hv).2
    rw [hnone] at hd
    cases hd
    rfl
  have hcleared := hc.congr (fun v => (hrange v).mp) fun v hv => Or.inl ((hrange v).mpr hv)
  by_cases hzero : sz = 0
  · subst hzero
    rw [growproc_of_zero (by omega) hr] at h
    cases h
    rw [Kernel.proc_setProc_self]
    exact ⟨by simp; omega, by rw [if_pos (by omega)], hcleared, hsame⟩
  · rw [growproc_of_pos hzero hr] at h
    cases h
    simp only [switchuvm, Kernel.proc_setProc_self]
    exact ⟨by simp; omega, by rw [if_neg (by omega)]; exact hnew, hcleared, hsame⟩

/-- A shrinking call does all or nothing exactly when it leaves a page or finds no page. -/
theorem growproc_whole_iff {n : Int} {b : Bool} (hn : n < 0) (hlo : -0x80000000 ≤ n)
    (hsz : (k.proc p).sz < 0x80000000) (h : growproc k p n = .ok (b, k')) :
    ShrinkWhole k p n b k' ↔ 0 < (k.proc p).sz + n ∨ (k.proc p).sz = 0 ∨
      (k.proc p).sz + n = 0 ∧ ∀ v, v < sizePages (k.proc p).sz → ((k.proc p).pgdir.entry v).p = false := by
  by_cases hneg : (k.proc p).sz + n < 0
  · obtain ⟨hb, hsize, hpgdir⟩ := growproc_wraps hn hlo hsz hneg h
    constructor
    · rintro (⟨-, hdone⟩ | ⟨hb', -⟩)
      · have hsum := hdone.size
        omega
      · rw [hb'] at hb
        simp at hb
        exact Or.inr (Or.inl hb)
    · rintro (hpos | hzero | ⟨hsum, -⟩)
      · omega
      · refine Or.inr ⟨?_, hsize, fun v => by rw [hpgdir]⟩
        simpa [hzero] using hb
      · omega
  · obtain ⟨hb, hsize, hc, hsame⟩ := growproc_clears hn hsz (by omega) h
    by_cases hsum : (k.proc p).sz + n = 0
    · rw [if_pos hsum] at hsize
      have hbf : b = false := by simpa [hsum] using hb
      constructor
      · rintro (⟨hb', -⟩ | ⟨-, href⟩)
        · rw [hb'] at hbf
          cases hbf
        · refine Or.inr (Or.inr ⟨hsum, fun v hv => ?_⟩)
          rw [← href.entry v]
          exact hc.cleared v ⟨by omega, hv⟩
      · rintro (hpos | hzero | ⟨-, habs⟩)
        · omega
        · omega
        · exact Or.inr ⟨hbf, by omega, fun v => by rw [hsame habs]⟩
    · rw [if_neg hsum] at hsize
      refine ⟨fun _ => Or.inl (by omega), fun _ => Or.inl ⟨hb.mpr hsum, hsize, fun v h1 h2 => ?_, fun v hv => ?_⟩⟩
      · refine hc.cleared v ⟨?_, h2⟩
        unfold sizePages pagesTo at h1
        omega
      · refine hc.kept v fun hmem => ?_
        unfold sizePages pagesTo at hv hmem
        omega

end

end Xv6
