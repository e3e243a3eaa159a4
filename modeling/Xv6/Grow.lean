import Xv6.KernelMap

/-!
`allocuvm`: each new page gets a zeroed frame of its own with count 1. When memory runs
out, `deallocuvm` clears the whole range again, but the frames mapped so far have a count
and do not return to the free list.
-/

namespace Xv6

open Multiset

variable {m m' m1 : Machine} {d d' d1 : PgDir} {x : Frame} {a lo newsz oldsz sz : Nat}
  {xs : List Frame}

/-- The machine and the directory after the pages from `lo` on were given the frames
`xs`. -/
structure Grown (m : Machine) (d : PgDir) (lo : Nat) (xs : List Frame) (m' : Machine)
    (d' : PgDir) : Prop where
  image : m'.image = m.image
  cr3 : m'.cr3 = m.cr3
  failed : m'.kmem.failed = m.kmem.failed
  frame : d'.frame = d.frame
  balance : m.kmem.free + d.frames = m'.kmem.free + d'.frames + xs
  counts : ∀ x, m'.counts x = if x ∈ xs then 1 else m.counts x
  zeroed : ∀ x ∈ xs, m'.mem x = fun _ => 0
  mem : ∀ x, x ∉ xs → m'.mem x = m.mem x
  absent : ∀ i, i < xs.length → (d.entry (lo + i)).p = false
  mapped : ∀ i (h : i < xs.length), d'.entry (lo + i) = Pte.make (xs.get ⟨i, h⟩) { w := true, u := true }
  kept : ∀ v, v < lo ∨ lo + xs.length ≤ v → d'.entry v = d.entry v

theorem Grown.refl (m : Machine) (d : PgDir) (lo : Nat) : Grown m d lo [] m d where
  image := rfl
  cr3 := rfl
  failed := rfl
  frame := rfl
  balance := by simp
  counts := by simp
  zeroed := by simp
  mem := fun _ _ => rfl
  absent := by simp
  mapped := by simp
  kept := fun _ _ => rfl

theorem Grown.cons {m2 m3 : Machine} {d2 d3 : PgDir} (h : Grown m1 d1 lo [x] m2 d2)
    (k : Grown m2 d2 (lo + 1) xs m3 d3) : Grown m1 d1 lo (x :: xs) m3 d3 where
  image := k.image.trans h.image
  cr3 := k.cr3.trans h.cr3
  failed := k.failed.trans h.failed
  frame := k.frame.trans h.frame
  balance := by
    rw [h.balance, k.balance, ← cons_coe, ← singleton_add, add_assoc,
      add_comm (xs : Multiset Frame)]
    rfl
  counts := by
    intro y
    rw [k.counts, h.counts]
    by_cases h1 : y ∈ xs <;> by_cases h2 : y = x <;> simp [h1, h2]
  zeroed := by
    intro y hy
    by_cases h1 : y ∈ xs
    · exact k.zeroed y h1
    · rw [k.mem y h1]
      have hyx := (List.mem_cons.mp hy).resolve_right h1
      exact h.zeroed y (by simp [hyx])
  mem := by
    intro y hy
    rw [List.mem_cons, not_or] at hy
    rw [k.mem y hy.2, h.mem y (by simpa using hy.1)]
  absent := by
    intro i hi
    cases i with
    | zero => exact h.absent 0 (by simp)
    | succ i =>
      have := k.absent i (by simpa using hi)
      rw [h.kept _ (by simp)] at this
      rw [← Nat.add_assoc, Nat.add_right_comm]
      exact this
  mapped := by
    intro i hi
    cases i with
    | zero =>
      rw [k.kept _ (by omega)]
      exact h.mapped 0 (by simp)
    | succ i =>
      have := k.mapped i (by simpa using hi)
      rw [Nat.add_right_comm, Nat.add_assoc] at this
      exact this
  kept := by
    intro v hv
    rw [List.length_cons] at hv
    rw [k.kept v (by omega), h.kept v (by simp; omega)]

theorem grown_page {k k' : Kmem} (ha : a < 0x100000000) (hal : a % 4096 = 0)
    (hk : kalloc m.kmem = (some x, k))
    (hm : mappages k d a 4096 x { w := true, u := true } = .ok (true, d', k')) :
    Grown m d (a / 4096) [x] (({ m.memset x 0 with kmem := k' } : Machine).setCount x 1) d' := by
  obtain ⟨hx, hf, hp, he⟩ := mappages_page_ok ha hal hm
  refine ⟨rfl, rfl, hf.trans (kalloc_some hk).2, hx.frame, ?_, ?_, ?_, ?_, ?_, ?_, ?_⟩
  · rw [free_kalloc hk, cons_add, hx.balance, ← singleton_add, add_comm]
    rfl
  · intro y
    by_cases hy : y = x <;> simp [Machine.setCount, Machine.memset, hy]
  · intro y hy
    rw [List.mem_singleton.mp hy]
    simp [Machine.setCount, Machine.memset]
  · intro y hy
    simp only [List.mem_singleton] at hy
    simp [Machine.setCount, Machine.memset, hy]
  · intro i hi
    obtain rfl : i = 0 := by simpa using hi
    exact hp
  · intro i hi
    obtain rfl : i = 0 := by simpa using hi
    rw [he]
    simp
  · intro v hv
    rw [he, if_neg]
    simp only [List.length_singleton] at hv
    omega

/-- How `allocuvm` gives up: some pages from `lo` on were grown, then the pages of `vs`
were cleared. -/
structure Abandoned (m : Machine) (d : PgDir) (lo : Nat) (vs : List Nat) (m' : Machine)
    (d' : PgDir) (xs : List Frame) (m1 : Machine) (d1 : PgDir) : Prop where
  grown : Grown m d lo xs m1 d1
  image : m'.image = m1.image
  cr3 : m'.cr3 = m1.cr3
  failed : m'.kmem.failed = true
  counts : m'.counts = m1.counts
  free : m'.kmem.free = m1.kmem.free + d1.released m1.counts vs
  mem : ∀ x, x ∉ m1.kmem.free → x ∉ d1.released m1.counts vs → m'.mem x = m1.mem x
  cleared : Cleared d1 (· ∈ vs) d'
  short : m1.kmem.free.card ≤ 1

theorem Abandoned.cons {m0 : Machine} {d0 : PgDir} {vs : List Nat} (h : Grown m d lo [x] m0 d0)
    (k : Abandoned m0 d0 (lo + 1) vs m' d' xs m1 d1) : Abandoned m d lo vs m' d' (x :: xs) m1 d1 :=
  { k with grown := h.cons k.grown }

theorem allocLoop_spec {n : Nat} (hnew : newsz ≤ 0x80000000) (hal : a % 4096 = 0)
    (hfit : a / 4096 + n ≤ 0x80000) (h : allocLoop oldsz newsz n m d a = .ok (sz, d', m')) :
    (sz = newsz ∧ ∃ xs, xs.length = n ∧ Grown m d (a / 4096) xs m' d') ∨
    (sz = 0 ∧ ∃ xs m1 d1, xs.length < n ∧
      Abandoned m d (a / 4096) (deallocRange newsz oldsz) m' d' xs m1 d1) := by
  induction n generalizing m d a with
  | zero =>
    cases h
    exact Or.inl ⟨rfl, [], rfl, Grown.refl m' d' _⟩
  | succ n ih =>
    rw [allocLoop] at h
    split at h
    · rename_i k hk
      obtain ⟨hfree, rfl⟩ := kalloc_none hk
      obtain ⟨⟨sz1, d1, m1⟩, hd, h⟩ := Lib.bind_eq_ok.mp h
      cases h
      obtain ⟨-, hf, hc⟩ := deallocuvm_spec hnew hd
      refine Or.inr ⟨rfl, [], m, d, by simp, Grown.refl m d _, hf.image, hf.cr3, hf.failed,
        hf.counts, hf.free, fun x _ hx => hf.mem x hx, hc, by simp [Kmem.free, hfree]⟩
    rename_i x k hk
    obtain ⟨⟨ok, d1, k1⟩, hm, h⟩ := Lib.bind_eq_ok.mp h
    dsimp only at h
    split at h
    · rename_i hok
      subst hok
      have hg := grown_page (by omega) hal hk hm
      have hpage : (a + 4096) / 4096 = a / 4096 + 1 := by omega
      rcases ih (by omega) (by omega) h with ⟨rfl, xs, hlen, hg'⟩ | ⟨rfl, xs, m2, d2, hlen, ha⟩
      · rw [hpage] at hg'
        exact Or.inl ⟨rfl, x :: xs, by simp [hlen], hg.cons hg'⟩
      · rw [hpage] at ha
        exact Or.inr ⟨rfl, x :: xs, m2, d2, by simpa using hlen, ha.cons hg⟩
    rename_i hok
    rw [Bool.eq_false_iff.mpr hok] at hm
    obtain ⟨hfree, -, rfl, rfl⟩ := mappages_page_fail (by omega) hal hm
    obtain ⟨⟨sz1, d2, m2⟩, hd, h⟩ := Lib.bind_eq_ok.mp h
    obtain ⟨m3, hkf, h⟩ := Lib.bind_eq_ok.mp h
    cases h
    obtain ⟨-, hf, hc⟩ := deallocuvm_spec hnew hd
    have hf' := hf.trans (kfree_spec hkf)
    have hempty : k.free = 0 := by
      unfold Kmem.free
      rw [show k.freelist = [] from hfree]
      rfl
    have hsingle : m.kmem.free = {x} := by
      rw [free_kalloc hk, hempty]
      rfl
    refine Or.inr ⟨rfl, [], m, d1, by simp, Grown.refl m d1 _, hf'.image, hf'.cr3,
      hf'.failed, hf'.counts, ?_, ?_, hc, by rw [hsingle]; rfl⟩
    · rw [hf'.free, hsingle]
      change k.free + _ = _
      rw [hempty, zero_add, add_comm]
      rfl
    · intro y hy hy'
      rw [hsingle, mem_singleton] at hy
      rw [hf'.mem y (by
        rw [mem_add, mem_singleton, not_or]
        exact ⟨hy', hy⟩)]
      simp [Machine.memset, hy]

/-- The pages `allocuvm(pgdir, oldsz, newsz)` adds. -/
def allocPages (oldsz newsz : Nat) : Nat := pagesTo (pgroundup oldsz) newsz

theorem allocuvm_spec (hold : oldsz ≤ 0x80000000) (h : allocuvm m d oldsz newsz = .ok (sz, d', m')) :
    (d' = d ∧ m' = m ∧ (0x80000000 ≤ newsz ∧ sz = 0 ∨ newsz < oldsz ∧ sz = oldsz)) ∨
    (oldsz ≤ newsz ∧ newsz < 0x80000000 ∧ sz = newsz ∧
      ∃ xs, xs.length = allocPages oldsz newsz ∧ Grown m d (pgroundup oldsz / 4096) xs m' d') ∨
    (oldsz ≤ newsz ∧ newsz < 0x80000000 ∧ sz = 0 ∧
      ∃ xs m1 d1, xs.length < allocPages oldsz newsz ∧
        Abandoned m d (pgroundup oldsz / 4096) (deallocRange newsz oldsz) m' d' xs m1 d1) := by
  unfold allocuvm at h
  split at h
  · rename_i hn
    cases h
    exact Or.inl ⟨rfl, rfl, Or.inl ⟨hn, rfl⟩⟩
  rename_i hn
  split at h
  · rename_i ho
    cases h
    exact Or.inl ⟨rfl, rfl, Or.inr ⟨ho, rfl⟩⟩
  rename_i ho
  have hfit : pgroundup oldsz / 4096 + pagesTo (pgroundup oldsz) newsz ≤ 0x80000 := by
    unfold pgroundup pagesTo
    omega
  rcases allocLoop_spec (by omega) (pgroundup_aligned oldsz) hfit h with h | h
  · exact Or.inr (Or.inl ⟨by omega, by omega, h⟩)
  · exact Or.inr (Or.inr ⟨by omega, by omega, h⟩)

end Xv6
