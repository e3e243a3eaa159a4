import Xv6.Unmap
import Mathlib.Tactic.Abel
import Mathlib.Order.Interval.Finset.Nat

/-!
`setupkvm`: the new directory maps the kernel half and nothing below it, and its frames
come from the free list. When the free list runs out, what was taken goes back, up to
page tables that carry a count.
-/

namespace Xv6

open Multiset PgDir

variable {d d' : PgDir} {i v : Nat} {k : Kmap} {counts : Frame → Nat} {m m' : Machine}
  {r : Option PgDir}

def Kmap.size (k : Kmap) : Nat := (k.physEnd + 0x100000000 - k.physStart) % 0x100000000

/-- The entry describes whole pages of the kernel half. -/
def Kmap.Fits (k : Kmap) : Prop :=
  k.virt % 4096 = 0 ∧ 0x80000000 ≤ k.virt ∧ k.size % 4096 = 0 ∧ 0 < k.size ∧
    k.virt + k.size ≤ 0x100000000 ∧ k.physStart + k.size ≤ 0x100000000

theorem kmap_fits (i : Image) (h : k ∈ kmap i) : k.Fits := by
  have fits : ∀ n : Nat, 256 < n → n < 0xE000 →
      Kmap.Fits ⟨0x80100000, 0x100000, n * 4096, {}⟩ ∧
      Kmap.Fits ⟨0x80000000 + n * 4096, n * 4096, 0xE000000, { w := true }⟩ := by
    intro n h1 h2
    refine ⟨⟨?_, ?_, ?_, ?_, ?_, ?_⟩, ?_, ?_, ?_, ?_, ?_, ?_⟩ <;> simp only [Kmap.size] <;> omega
  have hdata := fits i.data i.text (lt_of_lt_of_le i.order i.phys)
  simp only [kmap, List.mem_cons, List.not_mem_nil, or_false] at h
  rcases h with rfl | rfl | rfl | rfl
  · refine ⟨?_, ?_, ?_, ?_, ?_, ?_⟩ <;> decide
  · exact hdata.1
  · exact hdata.2
  · refine ⟨?_, ?_, ?_, ?_, ?_, ?_⟩ <;> decide

def Kmap.Covers (k : Kmap) (v : Nat) : Prop := k.virt ≤ v * 4096 ∧ v * 4096 < k.virt + k.size

instance (k : Kmap) (v : Nat) : Decidable (k.Covers v) := inferInstanceAs (Decidable (_ ∧ _))

def Kmap.pte (k : Kmap) (v : Nat) : Pte :=
  Pte.make (k.physStart / 4096 + (v - k.virt / 4096)) k.perm

def kernelPte (i : Image) (v : Nat) : Pte :=
  match (kmap i).find? fun k => k.Covers v with
  | none => Pte.zero
  | some k => k.pte v

def PgDir.MapsKernel (i : Image) (d : PgDir) : Prop :=
  ∀ v, 0x80000 ≤ v → v < 0x100000 → d.entry v = kernelPte i v

theorem PgDir.MapsKernel.congr {i : Image} (h : d.MapsKernel i)
    (hd : ∀ v, 0x80000 ≤ v → d'.entry v = d.entry v) : d'.MapsKernel i :=
  fun v hlo hhi => (hd v hlo).trans (h v hlo hhi)

theorem kernelPte_base (i : Image) : kernelPte i 0x80000 = Pte.make 0 { w := true } := by
  have hcov : Kmap.Covers ⟨0x80000000, 0, 0x100000, { w := true }⟩ 0x80000 := by decide
  simp only [kernelPte, kmap, List.find?_cons, hcov, decide_true]
  rfl

theorem PgDir.MapsKernel.base {i : Image} (h : d.MapsKernel i) : d.KernelBase := by
  have he := (h 0x80000 (Nat.le_refl _) (by decide)).trans (kernelPte_base i)
  exact ⟨by rw [he]; rfl, by rw [he]; rfl⟩

theorem kernelPte_user (i : Image) (v : Nat) : (kernelPte i v).u = false := by
  unfold kernelPte
  split
  · rfl
  · rename_i k hk
    have hmem := List.mem_of_find?_eq_some hk
    simp only [kmap, List.mem_cons, List.not_mem_nil, or_false] at hmem
    rcases hmem with rfl | rfl | rfl | rfl <;> rfl

theorem kmap_high (i : Image) (hv : v < 0x80000) : ∀ k ∈ kmap i, ¬ k.Covers v := by
  rintro k hk ⟨hlo, -⟩
  have := (kmap_fits i hk).2.1
  omega

theorem mappages_kmap {a a' : Kmem} {b : Bool} (hk : k.Fits)
    (h : mappages a d k.virt k.size (k.physStart / 4096) k.perm = .ok (b, d', a')) :
    Extends a d a' d' ∧ a'.failed = (a.failed || !b) ∧
      (∀ v, ¬ k.Covers v → d'.entry v = d.entry v) ∧
      (b = true → (∀ v, k.Covers v → d'.entry v = k.pte v) ∧
        ∀ v, (d.entry v).p = true → d'.entry v = d.entry v) ∧
      (b = false → a'.freelist = []) := by
  obtain ⟨hal, hlo, hsz, hpos, hfit, hphys⟩ := hk
  rw [mappages_eq a d _ _ hal hpos hfit] at h
  obtain ⟨hx, hf, hshort, j, hj, hb, habs, he⟩ := mapLoop_spec hal (by omega) h
  refine ⟨hx, hf, fun v hv => ?_, fun hok => ⟨?_, ?_⟩, hshort⟩
  · rw [he, mapRange, if_neg]
    unfold Kmap.Covers at hv
    omega
  · rintro v ⟨h1, h2⟩
    have := hb.mp hok
    rw [he, mapRange, if_pos (by omega), frameAt_eq (by omega)]
    rfl
  · intro v hp
    rw [he, mapRange, if_neg]
    rintro ⟨h1, h2⟩
    rw [habs v h1 h2] at hp
    cases hp

theorem mapKernel_spec {ks : List Kmap} (hks : ∀ k ∈ ks, k.Fits)
    (h : mapKernel ks m d = .ok (r, m')) :
    (∃ d', r = some d' ∧ m' = { m with kmem := m'.kmem } ∧ Extends m.kmem d m'.kmem d' ∧
      m'.kmem.failed = m.kmem.failed ∧ (∀ v, (∀ k ∈ ks, ¬ k.Covers v) → d'.entry v = d.entry v) ∧
      (∀ v, (d.entry v).p = true → d'.entry v = d.entry v) ∧
      ∀ k ∈ ks, ∀ v, k.Covers v → d'.entry v = k.pte v) ∨
    (r = none ∧ ∃ d1 a1, Extends m.kmem d a1 d1 ∧ a1.failed = true ∧ a1.freelist = [] ∧
      (∀ v, (∀ k ∈ ks, ¬ k.Covers v) → d1.entry v = d.entry v) ∧
      Freed { m with kmem := a1 } (d1.freed m.counts) m') := by
  induction ks generalizing m d with
  | nil =>
    cases h
    exact Or.inl ⟨d, rfl, rfl, Extends.refl _ _, rfl, fun _ _ => rfl, fun _ _ => rfl, by simp⟩
  | cons k ks ih =>
    obtain ⟨⟨ok, d1, a1⟩, hm, h⟩ := Lib.bind_eq_ok.mp h
    obtain ⟨hx, hf, huser, hok, hshort⟩ := mappages_kmap (hks k (by simp)) hm
    dsimp only at h
    split at h
    · rename_i hb
      obtain ⟨hvirt, hkeep⟩ := hok hb
      simp only [hb, Bool.not_true, Bool.or_false] at hf
      rcases ih (fun k' hk' => hks k' (List.mem_cons_of_mem k hk')) h with
        ⟨d', rfl, hm', hx', hf', huser', hkeep', hvirt'⟩ |
        ⟨rfl, d2, a2, hx', hf', hempty, huser', hfreed⟩
      · refine Or.inl ⟨d', rfl, by rw [hm'], hx.trans hx', hf'.trans hf,
          fun v hv => ?_, ?_, ?_⟩
        · rw [huser' v fun k' hk' => hv k' (List.mem_cons_of_mem k hk')]
          exact huser v (hv k List.mem_cons_self)
        · intro v hp
          have he := hkeep v hp
          exact (hkeep' v (by rw [he]; exact hp)).trans he
        · intro k' hk'
          rcases List.mem_cons.mp hk' with rfl | hk'
          · intro v hv
            have he := hvirt v hv
            exact (hkeep' v (by rw [he]; rfl)).trans he
          · exact hvirt' k' hk'
      · refine Or.inr ⟨rfl, d2, a2, hx.trans hx', hf', hempty, fun v hv => ?_, hfreed⟩
        rw [huser' v fun k' hk' => hv k' (List.mem_cons_of_mem k hk')]
        exact huser v (hv k List.mem_cons_self)
    · rename_i hb
      obtain ⟨m2, hfree, h⟩ := Lib.bind_eq_ok.mp h
      cases h
      refine Or.inr ⟨rfl, d1, a1, hx, ?_, hshort (by simpa using hb),
        fun v hv => huser v (hv k List.mem_cons_self), freevm_spec hfree⟩
      simpa [hb] using hf

theorem released_eq_nil {vs : List Nat}
    (h : ∀ v ∈ vs, (d.entry v).p = true → 0 < counts (d.entry v).ppn) : d.released counts vs = [] := by
  unfold PgDir.released
  rw [List.filter_eq_nil_iff.mpr, List.map_nil]
  intro v hv
  by_cases hp : (d.entry v).p = true
  · have := h v hv hp
    simp [hp, Nat.ne_of_gt this]
  · simp [hp]

theorem mem_userPages : v ∈ userPages ↔ v < 0x80000 := by
  rw [userPages, List.mem_range'_1]
  omega

section
variable (h : ∀ v, v < 0x80000 → (d.entry v).p = true → 0 < counts (d.entry v).ppn)
include h

/-- `freevm` gives back the frames of a directory but for page tables with a count. -/
theorem PgDir.frames_eq_freed_add :
    d.frames = d.freed counts + (d.tables.filter fun x => !(counts x == 0) : List Frame) := by
  have hnone : d.released counts userPages = [] :=
    released_eq_nil fun v hv => h v (mem_userPages.mp hv)
  have hsplit : (d.tables : Multiset Frame) = (untracked counts d.tables : Multiset Frame) +
      (d.tables.filter fun x => !(counts x == 0) : List Frame) := by
    rw [coe_add, coe_eq_coe]
    exact (List.filter_append_perm _ _).symm
  rw [freed, hnone, frames, hsplit, ← singleton_add, coe_nil]
  abel

theorem PgDir.frames_eq_freed :
    ∃ kept : Multiset Frame, d.frames = d.freed counts + kept ∧ ∀ x ∈ kept, 0 < counts x := by
  refine ⟨_, frames_eq_freed_add h, fun x hx => ?_⟩
  have := (List.mem_filter.mp (mem_coe.mp hx)).2
  simpa [Nat.pos_iff_ne_zero] using this

end

/-- The directory entries that the entries of `kmap` lie in. -/
def kernelTables : Finset Nat := Finset.Ico 512 568 ∪ Finset.Ico 1016 1024

theorem card_kernelTables : kernelTables.card = 64 := by
  rw [kernelTables, Finset.card_union_of_disjoint, Nat.card_Ico, Nat.card_Ico]
  rw [Finset.disjoint_left]
  intro i h1 h2
  rw [Finset.mem_Ico] at h1 h2
  omega

theorem kmap_covers (m : Image) (h : i ∈ kernelTables) :
    ∃ k ∈ kmap m, k.virt ≤ i * 1024 * 4096 ∧ i * 1024 * 4096 < k.virt + k.size := by
  have hi : 512 ≤ i ∧ i < 568 ∨ 1016 ≤ i ∧ i < 1024 := by
    simpa [kernelTables] using h
  have covers : ∀ n : Nat, 256 < n → n < 0xE000 →
      (0x80000000 ≤ i * 1024 * 4096 ∧ i * 1024 * 4096 < 0x80000000 + 0x100000) ∨
      (0x80100000 ≤ i * 1024 * 4096 ∧ i * 1024 * 4096 < 0x80100000 +
        (n * 4096 + 0x100000000 - 0x100000) % 0x100000000) ∨
      (0x80000000 + n * 4096 ≤ i * 1024 * 4096 ∧ i * 1024 * 4096 < 0x80000000 + n * 4096 +
        (0xE000000 + 0x100000000 - n * 4096) % 0x100000000) ∨
      (0xFE000000 ≤ i * 1024 * 4096 ∧ i * 1024 * 4096 < 0xFE000000 +
        (0 + 0x100000000 - 0xFE000000) % 0x100000000) := by
    omega
  simp only [kmap, List.mem_cons, List.not_mem_nil, or_false, exists_eq_or_imp, exists_eq_left]
  exact covers m.data m.text (lt_of_lt_of_le m.order m.phys)

theorem kmap_tables (m : Image) (hk : k ∈ kmap m) (hv : k.Covers v) : v / 1024 ∈ kernelTables := by
  have inside : ∀ n : Nat, 256 < n → n < 0xE000 →
      (0x80100000 ≤ v * 4096 → v * 4096 < 0x80100000 +
        (n * 4096 + 0x100000000 - 0x100000) % 0x100000000 → 512 ≤ v / 1024 ∧ v / 1024 < 568) ∧
      (0x80000000 + n * 4096 ≤ v * 4096 → v * 4096 < 0x80000000 + n * 4096 +
        (0xE000000 + 0x100000000 - n * 4096) % 0x100000000 → 512 ≤ v / 1024 ∧ v / 1024 < 568) := by
    omega
  have hdata := inside m.data m.text (lt_of_lt_of_le m.order m.phys)
  have hmem : 512 ≤ v / 1024 ∧ v / 1024 < 568 ∨ 1016 ≤ v / 1024 ∧ v / 1024 < 1024 := by
    simp only [kmap, List.mem_cons, List.not_mem_nil, or_false] at hk
    rcases hk with rfl | rfl | rfl | rfl
    · unfold Kmap.Covers Kmap.size at hv
      dsimp only at hv
      omega
    · exact Or.inl (hdata.1 hv.1 hv.2)
    · exact Or.inl (hdata.2 hv.1 hv.2)
    · unfold Kmap.Covers Kmap.size at hv
      dsimp only at hv
      omega
  simpa [kernelTables] using hmem

theorem PgDir.pde_of_present (h : (d.entry v).p = true) : (d.pde (v / 1024)).isSome := by
  unfold PgDir.entry at h
  split at h
  · cases h
  · simp [*]

theorem kernelTables_lt (h : i ∈ kernelTables) : i < 1024 := by
  simp only [kernelTables, Finset.mem_union, Finset.mem_Ico] at h
  omega

theorem PgDir.MapsKernel.pde {m : Image} (h : d.MapsKernel m) (hi : i ∈ kernelTables) :
    (d.pde i).isSome := by
  have hlt : 512 ≤ i ∧ i < 1024 := by
    simp only [kernelTables, Finset.mem_union, Finset.mem_Ico] at hi
    omega
  obtain ⟨k, hk, hcov⟩ := kmap_covers m hi
  have hp : (d.entry (i * 1024)).p = true := by
    rw [h _ (by omega) (by omega), kernelPte]
    split
    · rename_i hnone
      have hnot : ¬ k.Covers (i * 1024) := by simpa using List.find?_eq_none.mp hnone k hk
      exact (hnot hcov).elim
    · rfl
  have hdir : i * 1024 / 1024 = i := by omega
  rw [← hdir]
  exact pde_of_present hp

theorem PgDir.card_lt_frames {S : Finset Nat} (hlt : ∀ i ∈ S, i < 1024)
    (h : ∀ i ∈ S, (d.pde i).isSome) : S.card < d.frames.card := by
  have hsub : S ⊆ ((List.range 1024).filter fun i => (d.pde i).isSome).toFinset := by
    intro i hi
    simp [hlt i hi, h i hi]
  have hlen : ∀ l : List Nat, (l.filterMap fun i => (d.pde i).map PgTab.frame).length =
      (l.filter fun i => (d.pde i).isSome).length := by
    intro l
    induction l with
    | nil => rfl
    | cons i l ih => cases hp : d.pde i <;> simp [hp, ih]
  have hle := (Finset.card_le_card hsub).trans (List.toFinset_card_le _)
  rw [frames, card_cons, coe_card, tables, hlen]
  omega

theorem setupkvm_spec (h : setupkvm m = .ok (r, m')) :
    (∃ d, r = some d ∧ m' = { m with kmem := m'.kmem } ∧
      m.kmem.free = m'.kmem.free + d.frames ∧ m'.kmem.failed = m.kmem.failed ∧
      (∀ v, v < 0x80000 → d.entry v = Pte.zero) ∧ d.MapsKernel m.image ∧ 65 ≤ d.frames.card) ∨
    (r = none ∧ m'.image = m.image ∧ m'.counts = m.counts ∧ m'.cr3 = m.cr3 ∧
      m'.kmem.failed = true ∧ (∀ x, x ∉ m.kmem.free → m'.mem x = m.mem x) ∧
      m.kmem.free.card ≤ 1025 ∧
      ∃ kept : Multiset Frame, m.kmem.free = m'.kmem.free + kept ∧ ∀ x ∈ kept, 0 < m.counts x) := by
  unfold setupkvm at h
  split at h
  · rename_i a hk
    cases h
    obtain ⟨hf, rfl⟩ := kalloc_none hk
    exact Or.inr ⟨rfl, rfl, rfl, rfl, rfl, fun _ _ => rfl, by simp [Kmem.free, hf], 0,
      by simp [Kmem.free], by simp⟩
  rename_i x a hk
  have hfree := free_kalloc hk
  rcases mapKernel_spec (fun k hk => kmap_fits m.image hk) h with
    ⟨d, rfl, hm, hx, hf, huser, -, hvirt⟩ | ⟨rfl, d, a1, hx, hf, hempty, huser, hfreed⟩
  · have hkernel : d.MapsKernel m.image := by
      intro v _ _
      unfold kernelPte
      split
      · rename_i hnone
        rw [huser v (by simpa using List.find?_eq_none.mp hnone), entry_empty]
      · rename_i k hsome
        exact hvirt k (List.mem_of_find?_eq_some hsome) v (by simpa using List.find?_some hsome)
    refine Or.inl ⟨d, rfl, by rw [hm], ?_, hf.trans (kalloc_some hk).2, ?_, hkernel, ?_⟩
    · rw [hfree, ← hx.balance, frames_empty, ← singleton_add, add_comm]
    · intro v hv
      rw [huser v (kmap_high m.image hv), entry_empty]
    · rw [Nat.succ_le_iff, ← card_kernelTables]
      exact card_lt_frames (fun i => kernelTables_lt) fun i => hkernel.pde
  · have habsent : ∀ v, v < 0x80000 → (d.entry v).p = true → 0 < m.counts (d.entry v).ppn := by
      intro v hv hp
      rw [huser v (kmap_high m.image hv), entry_empty] at hp
      cases hp
    obtain ⟨kept, hkept, hcount⟩ := frames_eq_freed habsent
    have hbalance : m.kmem.free = a1.free + d.freed m.counts + kept := by
      rw [hfree, add_assoc, ← hkept, ← hx.balance, frames_empty, ← singleton_add,
        add_comm]
    have hcard : m.kmem.free.card ≤ 1025 := by
      have hz : a1.free = 0 := by rw [Kmem.free, hempty]; rfl
      rw [hbalance, hz, zero_add, ← hkept]
      exact d.card_frames_le
    refine Or.inr ⟨rfl, hfreed.image, hfreed.counts, hfreed.cr3, hfreed.failed.trans hf, ?_,
      hcard, kept, ?_, hcount⟩
    · intro y hy
      refine hfreed.mem y fun hmem => hy ?_
      rw [hbalance]
      simp [hmem]
    · rw [hbalance, hfreed.free]

end Xv6
