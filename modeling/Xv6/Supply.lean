import Xv6.Inherit

/-!
When allocation cannot fail. A directory never has more than 1025 frames, so as long as
the free list and the directory together have more, a missing page table can be had.
`setupkvm`, `copyuvm`, `copyWmap` and `allocuvm` then run to their end.
-/

namespace Xv6

open Lib

variable {d parent pgdir : PgDir} {a a' : Kmem} {m : Machine} {n newsz oldsz pa sz va : Nat}
  {x : Frame} {E : Kmem → PgDir → Prop} {perm : Flags}

def supply (a : Kmem) (d : PgDir) : Nat := a.free.card + d.frames.card

theorem Extends.supply {d' : PgDir} (h : Extends a d a' d') : supply a' d' = supply a d := by
  have := congrArg Multiset.card h.balance
  simp only [Multiset.card_add] at this
  exact this.symm

theorem supply_kalloc (h : kalloc a = (some x, a')) : supply a d = supply a' d + 1 := by
  simp only [supply, free_kalloc h, Multiset.card_cons]
  omega

theorem kalloc_total (h : 0 < a.free.card) : ∃ x a', kalloc a = (some x, a') := by
  unfold kalloc
  cases hf : a.freelist with
  | nil => simp [Kmem.free, hf] at h
  | cons x next => exact ⟨x, _, rfl⟩

theorem freelist_ne_nil_of_supply (h : 1025 < supply a d) : a.freelist ≠ [] := by
  intro hf
  have hcard := d.card_frames_le
  simp only [supply, Kmem.free, hf, Multiset.coe_nil, Multiset.card_zero, zero_add] at h
  omega

theorem kalloc_of_supply (h : 1025 < supply a d) : ∃ x a', kalloc a = (some x, a') := by
  refine kalloc_total ?_
  have hf := freelist_ne_nil_of_supply h
  rwa [Kmem.free, Multiset.coe_card, List.length_pos_iff]

theorem mappages_page_of_free (pa : Frame) (perm : Flags) (hva : va < 0x100000000)
    (hal : va % 4096 = 0) (hfree : a.freelist ≠ []) (habs : (d.entry (va / 4096)).p = false) :
    ∃ d' a', mappages a d va 4096 pa perm = .ok (true, d', a') := by
  rw [mappages_page a d pa perm hva hal, mapLoop_eq]
  obtain ⟨d1, a1, hw, -⟩ | ⟨hf, -⟩ := walkpgdir_cases a d hva
  · simp only [hw, habs]
    exact ⟨_, _, rfl⟩
  · exact (hfree hf).elim

theorem mappages_page_total (pa : Frame) (perm : Flags) (hva : va < 0x100000000)
    (hal : va % 4096 = 0) (hs : 1025 < supply a d) (habs : (d.entry (va / 4096)).p = false) :
    ∃ d' a', mappages a d va 4096 pa perm = .ok (true, d', a') :=
  mappages_page_of_free pa perm hva hal (freelist_ne_nil_of_supply hs) habs

/-- A condition on memory under which the pages of `P` can be mapped, one after the other. -/
def EnoughOn (P : Nat → Prop) (E : Kmem → PgDir → Prop) : Prop :=
  ∀ k d va pa perm, E k d → va % 4096 = 0 → va < 0x100000000 → P (va / 4096) →
    (d.entry (va / 4096)).p = false →
      ∃ d' k', mappages k d va 4096 pa perm = .ok (true, d', k') ∧ E k' d'

theorem enoughOn_supply (P : Nat → Prop) : EnoughOn P fun k d => 1025 < supply k d := by
  intro k d va pa perm hs hal hva _ habs
  obtain ⟨d', k', hm⟩ := mappages_page_total pa perm hva hal hs habs
  refine ⟨d', k', hm, ?_⟩
  change 1025 < supply k' d'
  rw [(mappages_page_ok hva hal hm).1.supply]
  exact hs

section
variable {P : Nat → Prop} {E : Kmem → PgDir → Prop}

theorem mapLoop_enough (hE : EnoughOn P E) (hal : va % 4096 = 0) (hfit : va / 4096 + n < 0x100000)
    (hs : E a d) (hpages : ∀ v, va / 4096 ≤ v → v ≤ va / 4096 + n → P v ∧ (d.entry v).p = false) :
    ∃ d' a', mapLoop perm n a d va pa = .ok (true, d', a') ∧ E a' d' := by
  induction n generalizing a d va pa with
  | zero =>
    obtain ⟨hp, habs⟩ := hpages (va / 4096) le_rfl (by omega)
    rw [← mappages_page a d pa perm (by omega) hal]
    exact hE a d va pa perm hs hal (by omega) hp habs
  | succ n ih =>
    obtain ⟨hp, habs⟩ := hpages (va / 4096) le_rfl (by omega)
    obtain ⟨d1, a1, hm, hs1⟩ := hE a d va pa perm hs hal (by omega) hp habs
    have hent := (mappages_page_ok (by omega) hal hm).2.2.2
    rw [mappages_page a d pa perm (by omega) hal] at hm
    rw [mapLoop_succ, Lib.bind_of_ok hm, show (va + 4096) % 0x100000000 = va + 4096 by omega]
    refine ih (by omega) (by omega) hs1 fun v h1 h2 => ?_
    rw [hent, if_neg (by omega)]
    exact hpages v (by omega) (by omega)

end

def Kmap.Apart (k k' : Kmap) : Prop := k.virt + k.size ≤ k'.virt ∨ k'.virt + k'.size ≤ k.virt

theorem kmap_apart (i : Image) : (kmap i).Pairwise Kmap.Apart := by
  have apart : ∀ n : Nat, 256 < n → n < 0xE000 →
      List.Pairwise Kmap.Apart [⟨0x80000000, 0, 0x100000, { w := true }⟩,
        ⟨0x80100000, 0x100000, n * 4096, {}⟩,
        ⟨0x80000000 + n * 4096, n * 4096, 0xE000000, { w := true }⟩,
        ⟨0xFE000000, 0xFE000000, 0, { w := true }⟩] := by
    intro n h1 h2
    simp only [List.pairwise_cons, List.mem_cons, List.not_mem_nil, or_false, forall_eq_or_imp,
      forall_eq, Kmap.Apart, Kmap.size, IsEmpty.forall_iff, implies_true, List.Pairwise.nil,
      and_true]
    omega
  exact apart i.data i.text (lt_of_lt_of_le i.order i.phys)

section
variable {P : Nat → Prop} {E : Kmem → PgDir → Prop}

theorem mapKernel_enough (hE : EnoughOn P E) {ks : List Kmap} (hks : ∀ k ∈ ks, k.Fits)
    (hapart : ks.Pairwise Kmap.Apart) (hs : E m.kmem d)
    (hpages : ∀ k ∈ ks, ∀ v, k.Covers v → P v ∧ (d.entry v).p = false) :
    ∃ d' m', mapKernel ks m d = .ok (some d', m') ∧ E m'.kmem d' := by
  induction ks generalizing m d with
  | nil => exact ⟨d, m, rfl, hs⟩
  | cons k ks ih =>
    obtain ⟨hal, hlo, hsz, hpos, hfit, -⟩ := hks k (by simp)
    obtain ⟨hk, hrest⟩ := List.pairwise_cons.mp hapart
    obtain ⟨d1, a1, hm, hs1⟩ : ∃ d' a', mappages m.kmem d k.virt k.size (k.physStart / 4096) k.perm =
        .ok (true, d', a') ∧ E a' d' := by
      rw [mappages_eq _ _ _ _ hal hpos hfit]
      refine mapLoop_enough hE hal (by omega) hs fun v h1 h2 => ?_
      exact hpages k (by simp) v ⟨by omega, by omega⟩
    obtain ⟨-, -, hout, -⟩ := mappages_kmap (hks k (by simp)) hm
    obtain ⟨d', m', h, hs'⟩ := ih (m := { m with kmem := a1 }) (d := d1)
      (fun k' hk' => hks k' (List.mem_cons_of_mem k hk')) hrest hs1 fun k' hk' v hv => by
        have hdisj := hk k' hk'
        rw [hout v fun hcov => by unfold Kmap.Apart at hdisj; unfold Kmap.Covers at hcov hv; omega]
        exact hpages k' (List.mem_cons_of_mem k hk') v hv
    refine ⟨d', m', ?_, hs'⟩
    rw [mapKernel, bind_eq_ok]
    exact ⟨_, hm, h⟩

theorem setupkvm_enough (hE : EnoughOn P E) (hk : kalloc m.kmem = (some x, a))
    (hs : E a (PgDir.empty x)) (hP : ∀ k ∈ kmap m.image, ∀ v, k.Covers v → P v) :
    ∃ d m', setupkvm m = .ok (some d, m') ∧ E m'.kmem d := by
  unfold setupkvm
  rw [hk]
  exact mapKernel_enough (m := { m with kmem := a }) hE (fun k hk => kmap_fits m.image hk)
    (kmap_apart m.image) hs fun k hk v hv => ⟨hP k hk v hv, rfl⟩

theorem copyLoop_enough (hE : EnoughOn P E) {i : Nat} (hal : i % 4096 = 0)
    (hfit : i / 4096 + n ≤ 0x80000) (hs : E m.kmem d)
    (hpres : ∀ v, i / 4096 ≤ v → v < i / 4096 + n → (pgdir.entry v).p = true)
    (hpages : ∀ v, i / 4096 ≤ v → v < i / 4096 + n → P v ∧ (d.entry v).p = false) :
    ∃ d' pgdir' m', copyLoop n m pgdir d i = .ok (some d', pgdir', m') ∧ E m'.kmem d' := by
  induction n generalizing m pgdir d i with
  | zero => exact ⟨d, pgdir, m, rfl, hs⟩
  | succ n ih =>
    have hp := hpres (i / 4096) le_rfl (by omega)
    have hw := PgDir.walk_of_present (by omega) hp
    obtain ⟨hP, habs⟩ := hpages (i / 4096) le_rfl (by omega)
    obtain ⟨d1, a1, hm, hs1⟩ := hE m.kmem d i (pgdir.entry (i / 4096)).ppn
      (pgdir.entry (i / 4096)).share.toFlags hs hal (by omega) hP habs
    have hsh := shared_page (by omega) hal hw hp hm
    rw [copyLoop, hw]
    dsimp only
    rw [if_neg (by simp [hp]), bind_of_ok hm]
    refine ih (by omega) (by omega) ?_ (fun v h1 h2 => ?_) fun v h1 h2 => ?_
    · rw [incCount_eq]
      exact hs1
    · rw [hsh.parent, if_neg (by omega)]
      exact hpres v (by omega) (by omega)
    · rw [hsh.child, if_neg (by omega)]
      exact hpages v (by omega) (by omega)

theorem copyuvm_enough (hE : EnoughOn P E) (hsz : sz ≤ 0x80000000)
    (hk : kalloc m.kmem = (some x, a)) (hs : E a (PgDir.empty x))
    (hP : ∀ k ∈ kmap m.image, ∀ v, k.Covers v → P v)
    (hpages : ∀ v, v < sizePages sz → P v ∧ (pgdir.entry v).p = true) :
    ∃ d pgdir' m', copyuvm m pgdir sz = .ok (some d, pgdir', m') ∧ E m'.kmem d := by
  obtain ⟨d, m1, hkvm, hs1⟩ := setupkvm_enough hE hk hs hP
  rcases setupkvm_spec hkvm with ⟨d0, hd, -, -, -, huser, -⟩ | ⟨hnone, -⟩
  · cases hd
    have hn : sizePages sz ≤ 0x80000 := by
      unfold sizePages pagesTo
      omega
    obtain ⟨d', pgdir', m', hc, hs'⟩ : ∃ d' pgdir' m', copyLoop (sizePages sz) m1 pgdir d 0 =
        .ok (some d', pgdir', m') ∧ E m'.kmem d' := by
      refine copyLoop_enough hE (by omega) (by omega) hs1 (fun v _ hv => (hpages v (by omega)).2) ?_
      intro v _ hv
      refine ⟨(hpages v (by omega)).1, ?_⟩
      rw [huser v (by omega)]
      rfl
    refine ⟨d', pgdir', m', ?_, hs'⟩
    simp only [copyuvm, hkvm, bind, Except.bind]
    exact hc
  · cases hnone

end

theorem supply_of_card (h : 1026 ≤ a.free.card) :
    ∃ x a', kalloc a = (some x, a') ∧ 1025 < supply a' (PgDir.empty x) := by
  obtain ⟨x, a', hk⟩ := kalloc_total (a := a) (by omega)
  refine ⟨x, a', hk, ?_⟩
  rw [free_kalloc hk, Multiset.card_cons] at h
  simp only [supply, PgDir.frames_empty, Multiset.card_singleton]
  omega

theorem setupkvm_total (h : 1026 ≤ m.kmem.free.card) : ∃ d m', setupkvm m = .ok (some d, m') := by
  obtain ⟨x, a, hk, hs⟩ := supply_of_card h
  obtain ⟨d, m', hkvm, -⟩ := setupkvm_enough (enoughOn_supply fun _ => True) hk hs
    fun _ _ _ _ => trivial
  exact ⟨d, m', hkvm⟩

theorem copyuvm_total (hsz : sz ≤ 0x80000000) (hfree : 1026 ≤ m.kmem.free.card)
    (hpres : ∀ v, v < sizePages sz → (pgdir.entry v).p = true) :
    ∃ d pgdir' m', copyuvm m pgdir sz = .ok (some d, pgdir', m') := by
  obtain ⟨x, a, hk, hs⟩ := supply_of_card hfree
  obtain ⟨d, pgdir', m', hc, -⟩ := copyuvm_enough (enoughOn_supply fun _ => True) hsz hk hs
    (fun _ _ _ _ => trivial) fun v hv => ⟨trivial, hpres v hv⟩
  exact ⟨d, pgdir', m', hc⟩

/-- A condition on memory under which `copyWmap` can map every page of the window that
`parent` has, one after the other. -/
def EnoughFor (parent : PgDir) (E : Kmem → PgDir → Prop) : Prop :=
  ∀ k d va pa perm, E k d → va % 4096 = 0 → 0x60000 ≤ va / 4096 → va / 4096 < 0x80000 →
    (parent.entry (va / 4096)).p = true → (d.entry (va / 4096)).p = false →
      ∃ d' k', mappages k d va 4096 pa perm = .ok (true, d', k') ∧ E k' d'

theorem EnoughOn.enoughFor {P : Nat → Prop} (h : EnoughOn P E)
    (hP : ∀ v, 0x60000 ≤ v → v < 0x80000 → (parent.entry v).p = true → P v) : EnoughFor parent E :=
  fun k d va pa perm hs hal hlo hhi hp habs =>
    h k d va pa perm hs hal (by omega) (hP _ hlo hhi hp) habs

theorem enoughFor_supply (parent : PgDir) : EnoughFor parent fun k d => 1025 < supply k d :=
  (enoughOn_supply fun _ => True).enoughFor fun _ _ _ _ => trivial

/-- The inner loop of `copyWmap`, when the child has none of the pages yet. -/
theorem copyRegion_total {a : Nat} {k : Kmem} (hE : EnoughFor parent E) (hal : a % 4096 = 0)
    (hlow : 0x60000 ≤ a / 4096) (hfit : n = 0 ∨ a / 4096 + n ≤ 0x80000) (hs : E k d)
    (hpages : ∀ v ∈ List.range' (a / 4096) n, (parent.entry v).p = true →
      (parent.entry v).ppn ≠ 0 ∧ (d.entry v).p = false) :
    ∃ d' k', copyRegion parent n k d a = .ok (true, d', k') ∧ E k' d' := by
  induction n generalizing k d a with
  | zero => exact ⟨d, k, rfl, hs⟩
  | succ n ih =>
    have hnext : (a + 4096) % 0x100000000 = a + 4096 := by omega
    have hpage : (a + 4096) / 4096 = a / 4096 + 1 := by omega
    have hmem : ∀ v ∈ List.range' ((a + 4096) / 4096) n, v ∈ List.range' (a / 4096) (n + 1) := by
      intro v hv
      rw [List.range'_succ, ← hpage]
      exact List.mem_cons_of_mem _ hv
    have skip := ih (k := k) (d := d) (a := a + 4096) (by omega) (by omega) (by omega) hs
      fun v hv => hpages v (hmem v hv)
    rw [copyRegion, hnext]
    cases hw : parent.walk a with
    | none => exact skip
    | some pte =>
      have he := PgDir.entry_of_walk (by omega) hw
      by_cases hp : pte.p = true
      · obtain ⟨hne, habs⟩ := hpages (a / 4096) (by simp) (by rw [he]; exact hp)
        rw [he] at hne
        obtain ⟨d1, k1, hm, hs1⟩ := hE k d a pte.ppn pte.toFlags hs hal hlow (by omega)
          (by rw [he]; exact hp) habs
        obtain ⟨-, -, -, hent⟩ := mappages_page_ok (by omega) hal hm
        obtain ⟨d', k', h, hs'⟩ := ih (k := k1) (d := d1) (a := a + 4096) (by omega) (by omega)
          (by omega) hs1 fun v hv hpv => by
            have hlt := List.mem_range'_1.mp hv
            rw [hent, if_neg (by omega)]
            exact hpages v (hmem v hv) hpv
        refine ⟨d', k', ?_, hs'⟩
        dsimp only
        rw [if_pos hp, if_neg hne, bind_eq_ok]
        exact ⟨_, hm, h⟩
      · dsimp only
        rw [if_neg hp]
        exact skip

/-- Two regions of the table that share no page. -/
def Wmap.PagesApart (w : Wmap) : Prop :=
  ∀ i ∈ w.active, ∀ j ∈ w.active, i ≠ j → ∀ v ∈ (w.slot i).pages, v ∉ (w.slot j).pages

theorem copySlots_total {parent child : Fin NPROC} {is : List (Fin MAX_WMMAP_INFO)} {k : Kernel}
    (hE : EnoughFor (k.proc parent).pgdir E) (hne : parent ≠ child) (hok : (k.proc parent).wmap.Ok)
    (hapart : (k.proc parent).wmap.PagesApart) (hnodup : is.Nodup)
    (hs : E k.mach.kmem (k.proc child).pgdir)
    (hpages : ∀ i ∈ is, i ∈ (k.proc parent).wmap.active → ∀ v ∈ ((k.proc parent).wmap.slot i).pages,
      ((k.proc parent).pgdir.entry v).p = true → ((k.proc parent).pgdir.entry v).ppn ≠ 0 ∧
        ((k.proc child).pgdir.entry v).p = false) :
    ∃ k', copySlots parent child is k = .ok (true, k') := by
  induction is generalizing k with
  | nil => exact ⟨k, rfl⟩
  | cons i is ih =>
    obtain ⟨hi, hnodup⟩ := List.nodup_cons.mp hnodup
    rw [copySlots]
    dsimp only
    by_cases he : ((k.proc parent).wmap.slot i).isEmpty = true
    · rw [if_pos he]
      exact ih hE hok hapart hnodup hs fun j hj => hpages j (List.mem_cons_of_mem i hj)
    rw [if_neg he]
    have hact : i ∈ (k.proc parent).wmap.active := Wmap.mem_active.mpr (by simpa using he)
    have hreg := hok i hact
    obtain ⟨d, km, hcr, hs1⟩ := copyRegion_total hE hreg.aligned
      (by have := hreg.above; omega) hreg.pages_fit hs (hpages i List.mem_cons_self hact)
    obtain ⟨vs, hinh, hsub, -⟩ := copyRegion_spec hreg.aligned hreg.pages_fit hcr
    rw [← hreg.copyPages] at hcr
    obtain ⟨k', h⟩ := ih (k := { k with mach := { k.mach with kmem := km } }.setProc child
      { k.proc child with
        pgdir := d
        wmap := (k.proc child).wmap.update i ((k.proc parent).wmap.slot i)
          (k.proc parent).wmap.total })
      (by simpa [Kernel.setProc, hne] using hE) (by simpa [Kernel.setProc, hne] using hok)
      (by simpa [Kernel.setProc, hne] using hapart) hnodup (by simpa using hs1) (by
        simp only [Kernel.proc_setProc_self, Kernel.proc_setProc_ne hne]
        intro j hj hactj v hv hp
        obtain ⟨h1, h2⟩ := hpages j (List.mem_cons_of_mem i hj) hactj v hv hp
        refine ⟨h1, ?_⟩
        rw [hinh.entry, if_neg]
        · exact h2
        · intro hvs
          have hij : i ≠ j := fun hij => hi (hij ▸ hj)
          exact hapart i hact j hactj hij v (hsub v hvs) hv)
    refine ⟨k', ?_⟩
    rw [bind_eq_ok]
    exact ⟨_, hcr, h⟩

/-- The loop of `allocuvm`, with a frame for each page besides the page tables. -/
theorem allocLoop_total {a : Nat} (hal : a % 4096 = 0) (hfit : a / 4096 + n ≤ 0x80000)
    (hs : 1025 + n < supply m.kmem d)
    (habs : ∀ v, a / 4096 ≤ v → v < a / 4096 + n → (d.entry v).p = false) :
    ∃ d' m', allocLoop oldsz newsz n m d a = .ok (newsz, d', m') := by
  induction n generalizing m d a with
  | zero => exact ⟨d, m, rfl⟩
  | succ n ih =>
    obtain ⟨x, k, hk⟩ := kalloc_of_supply (show 1025 < supply m.kmem d by omega)
    have hs' := supply_kalloc (d := d) hk
    obtain ⟨d1, k1, hm⟩ := mappages_page_total x { w := true, u := true } (by omega) hal
      (show 1025 < supply k d by omega) (habs _ le_rfl (by omega))
    obtain ⟨hx, -, -, hent⟩ := mappages_page_ok (by omega) hal hm
    obtain ⟨d', m', h⟩ := ih (a := a + 4096) (d := d1)
      (m := ({ m.memset x 0 with kmem := k1 } : Machine).setCount x 1) (by omega) (by omega)
      (by
        change 1025 + n < supply k1 d1
        rw [hx.supply]
        omega) fun v h1 h2 => by
        rw [hent, if_neg (by omega)]
        exact habs v (by omega) (by omega)
    refine ⟨d', m', ?_⟩
    rw [allocLoop, hk]
    dsimp only
    rw [bind_eq_ok]
    exact ⟨_, hm, h⟩

theorem allocuvm_total (hle : oldsz ≤ newsz) (hnew : newsz < 0x80000000)
    (hs : 1025 + allocPages oldsz newsz < supply m.kmem d)
    (habs : ∀ v, sizePages oldsz ≤ v → v < sizePages newsz → (d.entry v).p = false) :
    ∃ d' m', allocuvm m d oldsz newsz = .ok (newsz, d', m') := by
  unfold allocuvm
  rw [if_neg (by omega), if_neg (by omega)]
  refine allocLoop_total (pgroundup_aligned oldsz) ?_ hs fun v h1 h2 => ?_
  · unfold pgroundup pagesTo
    omega
  refine habs v ?_ ?_
  · unfold pgroundup at h1
    unfold sizePages pagesTo
    omega
  · unfold pgroundup pagesTo at h2
    unfold sizePages pagesTo
    omega

theorem deallocuvm_total (hold : oldsz ≤ 0x80000000)
    (huse : ∀ v, (d.entry v).p = true → v * 4096 < oldsz → (d.entry v).ppn ≠ 0 ∧
      (m.counts (d.entry v).ppn = 0 → m.image.kend ≤ (d.entry v).ppn ∧
        (d.entry v).ppn < 0xE000)) : ∃ sz d' m', deallocuvm m d oldsz newsz = .ok (sz, d', m') := by
  unfold deallocuvm
  split
  · exact ⟨_, _, _, rfl⟩
  have hsweep : ∃ r, sweep Prod.snd deallocPage (pagesTo (pgroundup newsz) oldsz) (m, d)
      (pgroundup newsz) oldsz = .ok r := by
    refine sweep_total (P := fun s => s.1.image = m.image ∧ s.1.counts = m.counts ∧
      ∀ v, (s.2.entry v).p = true → s.2.entry v = d.entry v) (by omega) ?_
      (Or.inr ⟨pgroundup_aligned newsz, le_rfl⟩) ⟨rfl, rfl, fun _ _ => rfl⟩
    rintro ⟨m1, d1⟩ a pte ⟨himage, hcounts, hsub⟩ ha hw hp
    dsimp only at himage hcounts hsub hw
    have he := PgDir.entry_of_walk (by omega) hw
    rw [← he] at hp
    have hsame := hsub _ hp
    rw [hsame] at he hp
    obtain ⟨hne, hfree⟩ := huse (a / 4096) hp (by omega)
    rw [he] at hne hfree
    have hkf : ∃ m', kfreeUnless (m1.getCount pte.ppn != 0) m1 pte.ppn = .ok m' := by
      unfold kfreeUnless Machine.getCount
      rw [hcounts]
      by_cases hc : m.counts pte.ppn = 0
      · rw [if_neg (by simp [hc])]
        exact kfree_total (by rw [himage]; exact (hfree hc).1) (hfree hc).2
      · rw [if_pos (by simp [hc])]
        exact ⟨_, rfl⟩
    obtain ⟨m', hkf⟩ := hkf
    have hspec := kfreeUnless_spec hkf
    refine ⟨(m', d1.setPte a Pte.zero), true, ?_, hspec.image.trans himage,
      hspec.counts.trans hcounts, fun v hv => ?_⟩
    · unfold deallocPage
      rw [if_neg hne, bind_eq_ok]
      exact ⟨m', hkf, rfl⟩
    dsimp only at hv ⊢
    rw [PgDir.entry_setPte (by omega) hw] at hv ⊢
    split at hv
    · cases hv
    · rename_i hva
      rw [if_neg hva]
      exact hsub v hv
  obtain ⟨⟨⟨m', d'⟩, go⟩, h⟩ := hsweep
  refine ⟨newsz, d', m', ?_⟩
  dsimp only
  rw [h]
  rfl

end Xv6
