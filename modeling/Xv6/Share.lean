import Xv6.Grow

/-!
`copyuvm`: parent and child map the same frames; a writable page becomes read-only and
copy-on-write in both, and the count of each frame goes up by one, to 255 at most.
-/

namespace Xv6

variable {d d1 pgdir pgdir' : PgDir} {m m' m1 : Machine} {y : Frame} {xs : List Frame} {lo va : Nat}
  {pte : Pte} {r : Option PgDir}

def incOne (counts : Frame → Nat) (x : Frame) : Frame → Nat :=
  if counts x < 255 then Function.update counts x (counts x + 1) else counts

def incAll : (Frame → Nat) → List Frame → Frame → Nat
  | counts, [] => counts
  | counts, x :: xs => incAll (incOne counts x) xs

theorem incCount_eq (m : Machine) (x : Frame) :
    m.incCount x = { m with counts := incOne m.counts x } := by
  unfold Machine.incCount incOne
  split <;> rfl

theorem le_incOne (counts : Frame → Nat) (x y : Frame) : counts y ≤ incOne counts x y := by
  unfold incOne
  split
  · by_cases h : y = x
    · subst h
      simp
    · simp [h]
  · exact le_rfl

theorem incOne_self (counts : Frame → Nat) (x : Frame) :
    min 255 (counts x + 1) ≤ incOne counts x x := by
  unfold incOne
  split
  · simp
  · exact le_trans (min_le_left _ _) (by omega)

theorem incOne_of_ne (counts : Frame → Nat) {x : Frame} (h : y ≠ x) :
    incOne counts x y = counts y := by
  unfold incOne
  split
  · simp [h]
  · rfl

theorem le_incAll (counts : Frame → Nat) (xs : List Frame) (y : Frame) :
    counts y ≤ incAll counts xs y := by
  induction xs generalizing counts with
  | nil => exact le_rfl
  | cons x xs ih => exact (le_incOne counts x y).trans (ih _)

theorem incAll_of_mem (counts : Frame → Nat) (h : y ∈ xs) :
    min 255 (counts y + 1) ≤ incAll counts xs y := by
  induction xs generalizing counts with
  | nil => cases h
  | cons x xs ih =>
    by_cases hy : y = x
    · subst hy
      exact (incOne_self counts y).trans (le_incAll _ xs y)
    · have := ih (incOne counts x) ((List.mem_cons.mp h).resolve_left hy)
      rwa [incOne_of_ne counts hy] at this

theorem incAll_append (counts : Frame → Nat) (xs ys : List Frame) :
    incAll counts (xs ++ ys) = incAll (incAll counts xs) ys := by
  induction xs generalizing counts with
  | nil => rfl
  | cons x xs ih => exact ih _

@[simp] theorem Pte.share_p (e : Pte) (h : e.p = true) : e.share.p = true := by
  unfold share
  split
  · rfl
  · exact h

@[simp] theorem Pte.share_ppn (e : Pte) : e.share.ppn = e.ppn := by
  unfold share
  split <;> rfl

theorem Pte.make_share (e : Pte) (h : e.p = true) : Pte.make e.ppn e.share.toFlags = e.share := by
  unfold share make
  split
  · rfl
  · obtain ⟨⟨p, w, u, cow⟩, ppn⟩ := e
    simp_all

/-- Parent and child after `copyuvm` went through the pages from `lo` to `hi`. -/
structure Shared (m : Machine) (pgdir d : PgDir) (lo hi : Nat) (m' : Machine)
    (pgdir' d' : PgDir) : Prop where
  le : lo ≤ hi
  image : m'.image = m.image
  mem : m'.mem = m.mem
  failed : m'.kmem.failed = m.kmem.failed
  counts : m'.counts = incAll m.counts (pgdir.ppns (List.range' lo (hi - lo)))
  cr3 : m'.cr3 = if lo = hi then m.cr3 else d.frame
  extend : Extends m.kmem d m'.kmem d'
  parentFrame : pgdir'.frame = pgdir.frame
  parentTables : pgdir'.tables = pgdir.tables
  present : ∀ v, lo ≤ v → v < hi → (pgdir.entry v).p = true
  absent : ∀ v, lo ≤ v → v < hi → (d.entry v).p = false
  parent : ∀ v, pgdir'.entry v = if lo ≤ v ∧ v < hi then (pgdir.entry v).share else pgdir.entry v
  child : ∀ v, d'.entry v = if lo ≤ v ∧ v < hi then (pgdir.entry v).share else d.entry v

theorem Shared.refl (m : Machine) (pgdir d : PgDir) (lo : Nat) :
    Shared m pgdir d lo lo m pgdir d where
  le := le_rfl
  image := rfl
  mem := rfl
  failed := rfl
  counts := by simp [PgDir.ppns, incAll]
  cr3 := by simp
  extend := Extends.refl _ _
  parentFrame := rfl
  parentTables := rfl
  present := by omega
  absent := by omega
  parent := fun v => by rw [if_neg (by omega)]
  child := fun v => by rw [if_neg (by omega)]

theorem Shared.trans {m2 m3 : Machine} {p1 p2 p3 d2 d3 : PgDir} {mid hi : Nat}
    (h : Shared m1 p1 d1 lo mid m2 p2 d2) (k : Shared m2 p2 d2 mid hi m3 p3 d3) :
    Shared m1 p1 d1 lo hi m3 p3 d3 := by
  have hle := h.le
  have kle := k.le
  have hp : ∀ v, mid ≤ v → p2.entry v = p1.entry v := fun v hv => by
    rw [h.parent, if_neg (by omega)]
  have hd : ∀ v, mid ≤ v → d2.entry v = d1.entry v := fun v hv => by
    rw [h.child, if_neg (by omega)]
  refine ⟨hle.trans kle, k.image.trans h.image, k.mem.trans h.mem, k.failed.trans h.failed, ?_, ?_,
    h.extend.trans k.extend, k.parentFrame.trans h.parentFrame,
    k.parentTables.trans h.parentTables, ?_, ?_, ?_, ?_⟩
  · have hppns : p2.ppns (List.range' mid (hi - mid)) = p1.ppns (List.range' mid (hi - mid)) := by
      apply List.map_congr_left
      intro v hv
      rw [hp v (List.mem_range'_1.mp hv).1]
    have hsplit : List.range' lo (hi - lo) =
        List.range' lo (mid - lo) ++ List.range' mid (hi - mid) := by
      have hmid : mid = lo + (mid - lo) := by omega
      have hlen : hi - lo = (mid - lo) + (hi - mid) := by omega
      rw [hlen, ← List.range'_append_1, ← hmid]
    rw [k.counts, h.counts, hppns, hsplit, ← incAll_append]
    simp [PgDir.ppns]
  · rw [k.cr3, h.cr3, h.extend.frame]
    by_cases h1 : mid = hi
    · rw [if_pos h1, h1]
    · rw [if_neg h1, if_neg (by omega)]
  · intro v h1 h2
    by_cases hv : v < mid
    · exact h.present v h1 hv
    · rw [← hp v (by omega)]
      exact k.present v (by omega) h2
  · intro v h1 h2
    by_cases hv : v < mid
    · exact h.absent v h1 hv
    · rw [← hd v (by omega)]
      exact k.absent v (by omega) h2
  · intro v
    rw [k.parent]
    by_cases hv : mid ≤ v
    · rw [hp v hv]
      split <;> split <;> first | rfl | omega
    · rw [if_neg (by omega), h.parent]
      split <;> split <;> first | rfl | omega
  · intro v
    rw [k.child]
    by_cases hv : mid ≤ v
    · rw [hp v hv, hd v hv]
      split <;> split <;> first | rfl | omega
    · rw [if_neg (by omega), h.child]
      split <;> split <;> first | rfl | omega

theorem entry_share (hva : va < 0x100000000) (hw : pgdir.walk va = some pte) (v : Nat) :
    (if pte.w then pgdir.setPte va pte.share else pgdir).entry v =
      if v = va / 4096 then (pgdir.entry v).share else pgdir.entry v := by
  have he := PgDir.entry_of_walk hva hw
  split
  · rw [PgDir.entry_setPte hva hw]
    by_cases hv : v = va / 4096
    · rw [if_pos hv, if_pos hv, hv, he]
    · rw [if_neg hv, if_neg hv]
  · rename_i hpw
    by_cases hv : v = va / 4096
    · rw [if_pos hv, hv, he, Pte.share, if_neg hpw]
    · rw [if_neg hv]

theorem shared_page {d' : PgDir} {k : Kmem} (hva : va < 0x100000000) (hal : va % 4096 = 0)
    (hw : pgdir.walk va = some pte) (hp : pte.p = true)
    (hm : mappages m.kmem d va 4096 pte.ppn pte.share.toFlags = .ok (true, d', k)) :
    Shared m pgdir d (va / 4096) (va / 4096 + 1)
      (((({ m with kmem := k } : Machine).incCount pte.ppn).lcr3
        (if pte.w then pgdir.setPte va pte.share else pgdir).frame).lcr3 d'.frame)
      (if pte.w then pgdir.setPte va pte.share else pgdir) d' := by
  have he := PgDir.entry_of_walk hva hw
  obtain ⟨hx, hf, habs, hent⟩ := mappages_page_ok hva hal hm
  have hone : ∀ v, va / 4096 ≤ v ∧ v < va / 4096 + 1 ↔ v = va / 4096 := fun v => by omega
  rw [incCount_eq]
  refine ⟨by omega, rfl, rfl, hf, ?_, ?_, hx, ?_, ?_, ?_, ?_, ?_, ?_⟩
  · simp [Machine.lcr3, PgDir.ppns, incAll, he]
  · have hne : ¬ va / 4096 = va / 4096 + 1 := by omega
    rw [if_neg hne]
    exact hx.frame
  · split <;> simp
  · split <;> simp
  · intro v h1 h2
    rw [(hone v).mp ⟨h1, h2⟩, he]
    exact hp
  · intro v h1 h2
    rw [(hone v).mp ⟨h1, h2⟩]
    exact habs
  · intro v
    rw [entry_share hva hw]
    simp only [hone]
  · intro v
    rw [hent]
    simp only [hone]
    by_cases hv : v = va / 4096
    · rw [if_pos hv, if_pos hv, hv, he, Pte.make_share pte hp]
    · rw [if_neg hv, if_neg hv]

/-- How `copyuvm` fails: at page `j` no page table could be had for the child. The parent's
page `j` has been changed already. -/
structure Unshared (m : Machine) (pgdir d : PgDir) (lo : Nat) (m' : Machine) (pgdir' : PgDir)
    (j : Nat) (m1 : Machine) (pgdir1 d1 : PgDir) : Prop where
  shared : Shared m pgdir d lo j m1 pgdir1 d1
  present : (pgdir.entry j).p = true
  parentFrame : pgdir'.frame = pgdir.frame
  parentTables : pgdir'.tables = pgdir.tables
  parent : ∀ v, pgdir'.entry v = if lo ≤ v ∧ v ≤ j then (pgdir.entry v).share else pgdir.entry v
  freed : Freed { m1 with kmem := { m1.kmem with failed := true } } (d1.freed m1.counts) m'
  empty : m1.kmem.freelist = []

theorem Unshared.cons {m0 : Machine} {pgdir0 pgdir1 d0 : PgDir} {j : Nat}
    (h : Shared m pgdir d lo (lo + 1) m0 pgdir0 d0)
    (k : Unshared m0 pgdir0 d0 (lo + 1) m' pgdir' j m1 pgdir1 d1) :
    Unshared m pgdir d lo m' pgdir' j m1 pgdir1 d1 := by
  have hj := k.shared.le
  have hp : ∀ v, lo + 1 ≤ v → pgdir0.entry v = pgdir.entry v := fun v hv => by
    rw [h.parent, if_neg (by omega)]
  refine ⟨h.trans k.shared, ?_, k.parentFrame.trans h.parentFrame,
    k.parentTables.trans h.parentTables, ?_, k.freed, k.empty⟩
  · rw [← hp j hj]
    exact k.present
  intro v
  rw [k.parent]
  by_cases hv : lo + 1 ≤ v
  · rw [hp v hv]
    split <;> split <;> first | rfl | omega
  · rw [if_neg (by omega), h.parent]
    split <;> split <;> first | rfl | omega

theorem copyLoop_spec {n i : Nat} (hal : i % 4096 = 0) (hfit : i / 4096 + n ≤ 0x80000)
    (h : copyLoop n m pgdir d i = .ok (r, pgdir', m')) :
    (∃ d', r = some d' ∧ Shared m pgdir d (i / 4096) (i / 4096 + n) m' pgdir' d') ∨
    (r = none ∧ ∃ j m1 pgdir1 d1, j < i / 4096 + n ∧
      Unshared m pgdir d (i / 4096) m' pgdir' j m1 pgdir1 d1) := by
  induction n generalizing m pgdir d i with
  | zero =>
    cases h
    exact Or.inl ⟨d, rfl, Shared.refl m' pgdir' d _⟩
  | succ n ih =>
    have hpage : (i + 4096) / 4096 = i / 4096 + 1 := by omega
    rw [copyLoop] at h
    split at h
    · cases h
    rename_i pte hw
    split at h
    · cases h
    rename_i hp
    have hp' : pte.p = true := by simpa using hp
    have he := PgDir.entry_of_walk (by omega) hw
    obtain ⟨⟨ok, d1, k⟩, hm, h⟩ := Lib.bind_eq_ok.mp h
    dsimp only at h
    split at h
    · rename_i hok
      subst hok
      have hs := shared_page (by omega) hal hw hp' hm
      rcases ih (by omega) (by omega) h with ⟨d', rfl, hs'⟩ | ⟨rfl, j, m2, p2, d2, hj, hu⟩
      · rw [hpage] at hs'
        refine Or.inl ⟨d', rfl, ?_⟩
        have := hs.trans hs'
        rwa [Nat.add_right_comm, Nat.add_assoc] at this
      · rw [hpage] at hu
        exact Or.inr ⟨rfl, j, m2, p2, d2, by omega, hu.cons hs⟩
    · rename_i hok
      rw [Bool.eq_false_iff.mpr hok] at hm
      obtain ⟨hfree, -, rfl, rfl⟩ := mappages_page_fail (by omega) hal hm
      obtain ⟨m2, hfv, h⟩ := Lib.bind_eq_ok.mp h
      cases h
      refine Or.inr ⟨rfl, i / 4096, m, pgdir, d1, by omega, Shared.refl m pgdir d1 _, ?_, ?_,
        ?_, ?_, freevm_spec hfv, hfree⟩
      · rw [he]
        exact hp'
      · split <;> simp
      · split <;> simp
      · intro v
        rw [entry_share (by omega) hw]
        have hone : i / 4096 ≤ v ∧ v ≤ i / 4096 ↔ v = i / 4096 := by omega
        simp only [hone]

def sizePages (sz : Nat) : Nat := pagesTo 0 sz

/-- A successful `copyuvm`: the child's directory `d` is new. -/
structure Copied (m : Machine) (pgdir : PgDir) (n : Nat) (m' : Machine) (pgdir' d : PgDir) : Prop where
  image : m'.image = m.image
  mem : m'.mem = m.mem
  failed : m'.kmem.failed = m.kmem.failed
  counts : m'.counts = incAll m.counts (pgdir.ppns (List.range' 0 n))
  cr3 : m'.cr3 = if n = 0 then m.cr3 else d.frame
  free : m.kmem.free = m'.kmem.free + d.frames
  parentFrame : pgdir'.frame = pgdir.frame
  parentTables : pgdir'.tables = pgdir.tables
  present : ∀ v, v < n → (pgdir.entry v).p = true
  parent : ∀ v, pgdir'.entry v = if v < n then (pgdir.entry v).share else pgdir.entry v
  child : ∀ v, v < 0x80000 → d.entry v = if v < n then (pgdir.entry v).share else Pte.zero
  kernel : d.MapsKernel m.image
  taken : 65 ≤ m.kmem.free.card

/-- A failed `copyuvm`: the first `s` entries of the parent were changed, and the frames of
the first `j` pages counted. -/
structure CopyFailed (m : Machine) (pgdir : PgDir) (n : Nat) (m' : Machine) (pgdir' : PgDir)
    (j s : Nat) : Prop where
  le : j ≤ s ∧ s ≤ n
  image : m'.image = m.image
  mem : ∀ x, x ∉ m.kmem.free → m'.mem x = m.mem x
  failed : m'.kmem.failed = true
  counts : m'.counts = incAll m.counts (pgdir.ppns (List.range' 0 j))
  cr3 : j = 0 → m'.cr3 = m.cr3
  free : ∃ kept : Multiset Frame, m.kmem.free = m'.kmem.free + kept ∧ ∀ x ∈ kept, 0 < m'.counts x
  parentFrame : pgdir'.frame = pgdir.frame
  parentTables : pgdir'.tables = pgdir.tables
  present : ∀ v, v < s → (pgdir.entry v).p = true
  parent : ∀ v, pgdir'.entry v = if v < s then (pgdir.entry v).share else pgdir.entry v
  short : m.kmem.free.card ≤ 1025
  taken : 0 < j → 65 ≤ m.kmem.free.card

theorem copyuvm_spec {sz : Nat} (hsz : sz ≤ 0x80000000)
    (h : copyuvm m pgdir sz = .ok (r, pgdir', m')) :
    (∃ d, r = some d ∧ Copied m pgdir (sizePages sz) m' pgdir' d) ∨
    (r = none ∧ ∃ j s, CopyFailed m pgdir (sizePages sz) m' pgdir' j s) := by
  obtain ⟨⟨r0, m0⟩, hs, h⟩ := Lib.bind_eq_ok.mp h
  rcases setupkvm_spec hs with
    ⟨d0, rfl, hm0, hfree, hf, huser, hkernel, hcard⟩ |
    ⟨rfl, himage, hcounts, hcr3, hf, hmem, hshort, hkept⟩
  · have htaken : 65 ≤ m.kmem.free.card := by
      rw [hfree, Multiset.card_add]
      omega
    have himage : m0.image = m.image := by rw [hm0]
    have hmem : m0.mem = m.mem := by rw [hm0]
    have hcounts : m0.counts = m.counts := by rw [hm0]
    have hcr3 : m0.cr3 = m.cr3 := by rw [hm0]
    have hfit : 0 / 4096 + sizePages sz ≤ 0x80000 := by
      unfold sizePages pagesTo
      omega
    rcases copyLoop_spec rfl hfit h with ⟨d, rfl, hc⟩ | ⟨rfl, j, m1, p1, d1, hj, hu⟩
    · simp only [Nat.zero_div, Nat.zero_add] at hc
      refine Or.inl ⟨d, rfl, hc.image.trans himage, hc.mem.trans hmem, hc.failed.trans hf, ?_, ?_,
        ?_, hc.parentFrame, hc.parentTables, fun v => hc.present v (Nat.zero_le v), ?_, ?_, ?_,
        htaken⟩
      · rw [hc.counts, hcounts, Nat.sub_zero]
      · rw [hc.cr3, hcr3, hc.extend.frame]
        simp only [eq_comm]
      · rw [hfree, hc.extend.balance]
      · intro v
        rw [hc.parent]
        simp
      · intro v hv
        rw [hc.child, huser v hv]
        simp
      · refine hkernel.congr fun v hv => ?_
        rw [hc.child, if_neg (by omega)]
    simp only [Nat.zero_div, Nat.zero_add] at hj hu
    have hch : ∀ v, v < 0x80000 → d1.entry v = if v < j then (pgdir.entry v).share else Pte.zero := by
      intro v hv
      rw [hu.shared.child, huser v hv]
      simp
    have hcount : m1.counts = incAll m.counts (pgdir.ppns (List.range' 0 j)) := by
      rw [hu.shared.counts, hcounts, Nat.sub_zero]
    have hpos : ∀ v, v < 0x80000 → (d1.entry v).p = true → 0 < m1.counts (d1.entry v).ppn := by
      intro v hv hp
      rw [hch v hv] at hp ⊢
      by_cases hvj : v < j
      · rw [if_pos hvj, Pte.share_ppn, hcount]
        refine lt_of_lt_of_le ?_ (incAll_of_mem m.counts (List.mem_map_of_mem (a := v) ?_))
        · omega
        · rw [List.mem_range'_1]
          omega
      · rw [if_neg hvj] at hp
        cases hp
    obtain ⟨kept, hkept, hkcount⟩ := PgDir.frames_eq_freed hpos
    have hbalance : m.kmem.free = m1.kmem.free + d1.freed m1.counts + kept := by
      rw [hfree, hu.shared.extend.balance, hkept, add_assoc]
    refine Or.inr ⟨rfl, j, j + 1, by omega, ?_, ?_, hu.freed.failed, ?_, ?_, ⟨kept, ?_, ?_⟩,
      hu.parentFrame, hu.parentTables, ?_, ?_, ?_, fun _ => htaken⟩
    · rw [hu.freed.image]
      exact hu.shared.image.trans himage
    · intro x hx
      rw [hu.freed.mem x fun hmem => hx (by rw [hbalance]; simp [hmem])]
      exact congrFun (hu.shared.mem.trans hmem) x
    · exact hu.freed.counts.trans hcount
    · intro hj0
      rw [hu.freed.cr3]
      change m1.cr3 = m.cr3
      rw [hu.shared.cr3, if_pos hj0.symm, hcr3]
    · rw [hu.freed.free, hbalance]
      rfl
    · rw [hu.freed.counts]
      exact hkcount
    · intro v hv
      by_cases hvj : v = j
      · rw [hvj]
        exact hu.present
      · exact hu.shared.present v (Nat.zero_le v) (by omega)
    · intro v
      rw [hu.parent]
      simp [Nat.lt_succ_iff]
    · have hz : m1.kmem.free = 0 := by rw [Kmem.free, hu.empty]; rfl
      rw [hbalance, hz, zero_add, ← hkept]
      exact d1.card_frames_le
  · cases h
    refine Or.inr ⟨rfl, 0, 0, ⟨by omega, himage, hmem, hf, ?_, fun _ => hcr3, ?_, rfl, rfl,
      by omega, fun v => by simp, hshort, by omega⟩⟩
    · simpa [PgDir.ppns, incAll] using hcounts
    · rw [hcounts]
      exact hkept

end Xv6
