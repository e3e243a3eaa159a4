import Xv6.CopyExact

/-!
How many frames `copyuvm` needs. A new directory takes one frame, 64 for the page tables of
the kernel half and one for every 1024 pages of the parent; with fewer, `copyuvm` fails at the
first page that has no table, and what it leaves behind can be told from the free list.
-/

namespace Xv6

open Finset

/-- The page tables of the kernel half and of the first `t` directory entries. -/
def spaceTables (t : Nat) : Finset Nat := Finset.range t ∪ kernelTables

theorem mem_spaceTables {t i : Nat} : i ∈ spaceTables t ↔ i < t ∨ i ∈ kernelTables := by
  simp [spaceTables]

theorem card_spaceTables {t : Nat} (ht : t ≤ 512) : (spaceTables t).card = t + 64 := by
  rw [spaceTables, card_union_of_disjoint, card_range, card_kernelTables]
  rw [disjoint_left]
  intro i h1 h2
  simp only [kernelTables, mem_union, mem_Ico, mem_range] at h1 h2
  omega

theorem PgDir.MapsKernel.card_frames {m : Image} {d : PgDir} (h : d.MapsKernel m) {n : Nat}
    (hn : n ≤ 0x80000) (hp : ∀ v, v < n → (d.entry v).p = true) :
    65 + (n + 1023) / 1024 ≤ d.frames.card := by
  have hcard : (spaceTables ((n + 1023) / 1024)).card < d.frames.card := by
    refine PgDir.card_lt_frames (fun i hi => ?_) fun i hi => ?_
    · rcases mem_spaceTables.mp hi with hi | hi
      · omega
      · exact kernelTables_lt hi
    · rcases mem_spaceTables.mp hi with hi | hi
      · have hdir : i * 1024 / 1024 = i := by omega
        rw [← hdir]
        exact PgDir.pde_of_present (hp _ (by omega))
      · exact h.pde hi
  rw [card_spaceTables (by omega)] at hcard
  omega

/-- A free list that lasts for the tables of `spaceTables`, when the directory has been taken
from it. -/
theorem lacking_spaceTables {a a' : Kmem} {x : Frame} {t : Nat} (hk : kalloc a = (some x, a'))
    (ht : t ≤ 512) (hcard : 65 + t ≤ a.free.card) :
    ((PgDir.empty x).lacking (spaceTables t)).card ≤ a'.freelist.length := by
  have hle := card_filter_le (spaceTables t) fun i => ((PgDir.empty x).pde i).isNone
  rw [card_spaceTables ht] at hle
  rw [free_kalloc hk, Multiset.card_cons, Kmem.free, Multiset.coe_card] at hcard
  unfold PgDir.lacking
  omega

/-- Frames that were all taken for a directory: `freevm` gives back the first one, and the
others unless they carry a count. -/
theorem PgDir.freed_add_tracked {d : PgDir} {counts : Frame → Nat} {l : List Frame}
    (hl : (l : Multiset Frame) = d.frames) (hhead : l.head? = some d.frame)
    (h : ∀ v, v < 0x80000 → (d.entry v).p = true → 0 < counts (d.entry v).ppn) :
    (l : Multiset Frame) = d.freed counts +
      (l.tail.filter fun x => !(counts x == 0) : List Frame) := by
  obtain ⟨xs, rfl⟩ : ∃ xs, l = d.frame :: xs := List.head?_eq_some_iff.mp hhead
  have htables : (xs : Multiset Frame) = d.tables := by
    rw [frames, ← Multiset.cons_coe] at hl
    exact (Multiset.cons_inj_right _).mp hl
  have hfilter : (xs.filter fun x => !(counts x == 0) : List Frame) =
      ((d.tables.filter fun x => !(counts x == 0) : List Frame) : Multiset Frame) :=
    Multiset.coe_eq_coe.mpr ((Multiset.coe_eq_coe.mp htables).filter _)
  rw [List.tail_cons, hfilter, hl]
  exact frames_eq_freed_add h

section
variable {P : Nat → Prop} {E : Kmem → PgDir → Prop}

theorem copyLoop_failed (hE : EnoughOn P E) {n i : Nat} {m m' : Machine} {pgdir pgdir' d : PgDir}
    (hal : i % 4096 = 0) (hfit : i / 4096 + n ≤ 0x80000) (hs : E m.kmem d)
    (habs : ∀ v, i / 4096 ≤ v → v < i / 4096 + n → (d.entry v).p = false)
    (h : copyLoop n m pgdir d i = .ok (none, pgdir', m')) :
    ∃ j m1 pgdir1 d1, j < i / 4096 + n ∧ Unshared m pgdir d (i / 4096) m' pgdir' j m1 pgdir1 d1 ∧
      ∃ v, i / 4096 ≤ v ∧ v ≤ j ∧ ¬ P v := by
  induction n generalizing m pgdir d i with
  | zero => cases h
  | succ n ih =>
    by_cases hP : P (i / 4096)
    · have hpage : (i + 4096) / 4096 = i / 4096 + 1 := by omega
      rw [copyLoop] at h
      split at h
      · cases h
      rename_i pte hw
      split at h
      · cases h
      rename_i hp
      have hp' : pte.p = true := by simpa using hp
      obtain ⟨d1, a1, hm, hs1⟩ := hE m.kmem d i pte.ppn pte.share.toFlags hs hal (by omega)
        hP (habs _ le_rfl (by omega))
      have hsh := shared_page (by omega) hal hw hp' hm
      rw [Lib.bind_of_ok hm] at h
      dsimp only at h
      rw [if_pos rfl] at h
      obtain ⟨j, m1, pgdir1, d2, hj, hu, v, hv1, hv2, hv⟩ := ih (by omega) (by omega)
        (by rw [incCount_eq]; exact hs1) (fun v h1 h2 => by
          rw [hsh.child, if_neg (by omega)]
          exact habs v (by omega) (by omega)) h
      rw [hpage] at hu
      exact ⟨j, m1, pgdir1, d2, by omega, Unshared.cons hsh hu, v, by omega, hv2, hv⟩
    · rcases copyLoop_spec hal hfit h with ⟨d', hd, -⟩ | ⟨-, j, m1, pgdir1, d1, hj, hu⟩
      · cases hd
      · exact ⟨j, m1, pgdir1, d1, hj, hu, i / 4096, le_rfl, hu.shared.le, hP⟩

end

section
variable {m m' : Machine} {pgdir pgdir' d : PgDir} {sz : Nat}

theorem setupkvm_frame (h : setupkvm m = .ok (some d, m')) :
    m.kmem.freelist.head? = some d.frame := by
  unfold setupkvm at h
  split at h
  · cases h
  rename_i x a hk
  rcases mapKernel_spec (fun k hk => kmap_fits m.image hk) h with
    ⟨d', hd, -, hx, -⟩ | ⟨hnone, -⟩
  · cases hd
    rw [(kalloc_some hk).1, hx.frame]
    rfl
  · cases hnone

theorem setupkvm_short (h : setupkvm m = .ok (none, m')) : m.kmem.free.card < 65 := by
  by_contra hcard
  obtain ⟨x, a, hk⟩ := kalloc_total (a := m.kmem) (by omega)
  obtain ⟨d, m1, hkvm, -⟩ := setupkvm_enough (enoughOn_lacking (spaceTables 0)) hk
    (lacking_spaceTables hk (by omega) (by omega))
    fun k hk v hv => mem_spaceTables.mpr (Or.inr (kmap_tables m.image hk hv))
  rw [hkvm] at h
  cases h

theorem setupkvm_kept (h : setupkvm m = .ok (none, m')) :
    m.kmem.free = m'.kmem.free +
      (m.kmem.freelist.tail.filter fun x => !(m.counts x == 0) : List Frame) := by
  unfold setupkvm at h
  split at h
  · rename_i a hk
    cases h
    obtain ⟨hf, rfl⟩ := kalloc_none hk
    simp [Kmem.free, hf]
  rename_i x a hk
  rcases mapKernel_spec (fun k hk => kmap_fits m.image hk) h with
    ⟨d, hd, -⟩ | ⟨-, d, a1, hx, -, hempty, huser, hfreed⟩
  · cases hd
  have hframes : m.kmem.free = d.frames := by
    have hz : a1.free = 0 := by rw [Kmem.free, hempty]; rfl
    rw [free_kalloc hk, ← zero_add d.frames, ← hz, ← hx.balance, PgDir.frames_empty,
      ← Multiset.singleton_add, add_comm]
  have hhead : m.kmem.freelist.head? = some d.frame := by
    rw [(kalloc_some hk).1, hx.frame]
    rfl
  have hfree : m'.kmem.free = d.freed m.counts := by
    rw [hfreed.free]
    change a1.free + _ = _
    rw [Kmem.free, hempty, Multiset.coe_nil, zero_add]
  rw [hfree]
  refine PgDir.freed_add_tracked hframes hhead fun v hv hp => ?_
  rw [huser v (kmap_high m.image hv), PgDir.entry_empty] at hp
  cases hp

theorem copyuvm_needs (hsz : sz ≤ 0x80000000)
    (h : copyuvm m pgdir sz = .ok (some d, pgdir', m')) :
    65 + (sizePages sz + 1023) / 1024 ≤ m.kmem.free.card := by
  rcases copyuvm_spec hsz h with ⟨d', hd, hc⟩ | ⟨hnone, -⟩
  · cases hd
    have hn : sizePages sz ≤ 0x80000 := by
      unfold sizePages pagesTo
      omega
    have hcard := hc.kernel.card_frames hn fun v hv => by
      rw [hc.child v (by omega), if_pos hv]
      exact Pte.share_p _ (hc.present v hv)
    rw [hc.free, Multiset.card_add]
    omega
  · cases hnone

/-- A failed `copyuvm` stops at the first page for which there is no page table. -/
structure CopyShort (m : Machine) (pgdir : PgDir) (n : Nat) (m' : Machine) : Prop where
  short : m.kmem.free.card < 65 ∨ 1024 * (m.kmem.free.card - 65) < n
  counts : m'.counts =
    incAll m.counts (pgdir.ppns (List.range' 0 (1024 * (m.kmem.free.card - 65))))
  free : m.kmem.free = m'.kmem.free +
    (m.kmem.freelist.tail.filter fun x => !(m'.counts x == 0) : List Frame)

theorem copyLoop_stops {m0 : Machine} (hsz : sz ≤ 0x80000000)
    (hkvm : setupkvm m = .ok (some d, m0))
    (h : copyLoop (sizePages sz) m0 pgdir d 0 = .ok (none, pgdir', m')) :
    ∃ m1 pgdir1 d1, 65 ≤ m.kmem.free.card ∧ 1024 * (m.kmem.free.card - 65) < sizePages sz ∧
      Unshared m0 pgdir d 0 m' pgdir' (1024 * (m.kmem.free.card - 65)) m1 pgdir1 d1 := by
  have hn : sizePages sz ≤ 0x80000 := by
    unfold sizePages pagesTo
    omega
  rcases setupkvm_spec hkvm with ⟨d', hd, -, hfree, -, huser, hkernel, hcard⟩ | ⟨hnone, -⟩
  · cases hd
    have htaken : 65 ≤ m.kmem.free.card := by
      rw [hfree, Multiset.card_add]
      omega
    -- memory lasts for the kernel and for the first `t` tables of the parent
    obtain ⟨t, ht⟩ : ∃ t, t = min (m.kmem.free.card - 65) 512 := ⟨_, rfl⟩
    obtain ⟨x, a, hk⟩ := kalloc_total (a := m.kmem) (by omega)
    obtain ⟨d2, m2, hkvm2, henough⟩ := setupkvm_enough (enoughOn_lacking (spaceTables t)) hk
      (lacking_spaceTables hk (by omega) (by omega))
      fun k hk v hv => mem_spaceTables.mpr (Or.inr (kmap_tables m.image hk hv))
    rw [hkvm] at hkvm2
    cases hkvm2
    obtain ⟨j, m1, pgdir1, d1, hj, hu, v, -, hvj, hv⟩ := copyLoop_failed
      (enoughOn_lacking (spaceTables t)) rfl (by omega) henough
      (fun v _ hv => by rw [huser v (by omega)]; rfl) h
    simp only [Nat.zero_div, Nat.zero_add] at hj hu
    have hlow : ¬ v / 1024 < t := fun hlt => hv (mem_spaceTables.mpr (Or.inl hlt))
    have hframes : m.kmem.free = d1.frames := by
      have hz : m1.kmem.free = 0 := by rw [Kmem.free, hu.empty]; rfl
      rw [hfree, hu.shared.extend.balance, hz, zero_add]
    have hchild : d1.MapsKernel m.image := hkernel.congr fun v hv => by
      rw [hu.shared.child, if_neg (by omega)]
    have hneeds := hchild.card_frames (n := j) (by omega) fun v hv => by
      rw [hu.shared.child, if_pos ⟨Nat.zero_le v, hv⟩]
      exact Pte.share_p _ (hu.shared.present v (Nat.zero_le v) hv)
    rw [← hframes] at hneeds
    obtain rfl : j = 1024 * (m.kmem.free.card - 65) := by omega
    exact ⟨m1, pgdir1, d1, htaken, hj, hu⟩
  · cases hnone

theorem copyuvm_short (hsz : sz ≤ 0x80000000)
    (h : copyuvm m pgdir sz = .ok (none, pgdir', m')) : CopyShort m pgdir (sizePages sz) m' := by
  obtain ⟨⟨r0, m0⟩, hkvm, h⟩ := Lib.bind_eq_ok.mp h
  cases r0 with
  | none =>
    cases h
    have hshort := setupkvm_short hkvm
    have hcounts : m'.counts = m.counts := by
      rcases setupkvm_spec hkvm with ⟨d, hd, -⟩ | ⟨-, -, hc, -⟩
      · cases hd
      · exact hc
    refine ⟨Or.inl hshort, ?_, ?_⟩
    · rw [show m.kmem.free.card - 65 = 0 by omega]
      exact hcounts
    · rw [hcounts]
      exact setupkvm_kept hkvm
  | some d =>
    obtain ⟨m1, pgdir1, d1, htaken, hlt, hu⟩ := copyLoop_stops hsz hkvm h
    have hhead := setupkvm_frame hkvm
    rcases setupkvm_spec hkvm with ⟨d', hd, hm0, hfree, -, huser, -⟩ | ⟨hnone, -⟩
    · cases hd
      have hsh := hu.shared
      have hcounts1 : m1.counts = incAll m.counts
          (pgdir.ppns (List.range' 0 (1024 * (m.kmem.free.card - 65)))) := by
        rw [hsh.counts, hm0, Nat.sub_zero]
      have hcounts : m'.counts = m1.counts := hu.freed.counts
      have hempty : m1.kmem.free = 0 := by rw [Kmem.free, hu.empty]; rfl
      have hfreed : m'.kmem.free = d1.freed m'.counts := by
        rw [hcounts, hu.freed.free]
        change m1.kmem.free + _ = _
        rw [hempty, zero_add]
      refine ⟨Or.inr hlt, hcounts.trans hcounts1, ?_⟩
      rw [hfreed]
      refine PgDir.freed_add_tracked ?_ ?_ fun v hv hp => ?_
      · change m.kmem.free = _
        rw [hfree, hsh.extend.balance, hempty, zero_add]
      · rw [hhead, hsh.extend.frame]
      rw [hsh.child, huser v hv] at hp ⊢
      split at hp
      · rename_i hin
        rw [if_pos hin, Pte.share_ppn, hcounts, hcounts1]
        refine lt_of_lt_of_le ?_ (incAll_of_mem m.counts (List.mem_map_of_mem (a := v) ?_))
        · omega
        · rw [List.mem_range'_1]
          omega
      · cases hp
    · cases hnone

end

end Xv6
