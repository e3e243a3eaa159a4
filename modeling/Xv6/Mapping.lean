import Xv6.Machine

/-!
What `kalloc`, `walkpgdir` and `mappages` do to the allocator and to the flat map of a
directory. Frames move between the free list and the page tables; none appears and
none is lost.
-/

namespace Xv6

open Function PgDir Multiset

variable {a a' : Kmem} {n va : Nat} {d d' : PgDir} {perm : Flags} {pa x : Frame}

def Kmem.free (a : Kmem) : Multiset Frame := a.freelist

theorem kalloc_some (h : kalloc a = (some x, a')) :
    a.freelist = x :: a'.freelist ∧ a'.failed = a.failed := by
  unfold kalloc at h
  split at h
  · cases h
  · rename_i r next hr
    cases h
    exact ⟨hr, rfl⟩

theorem kalloc_none (h : kalloc a = (none, a')) :
    a.freelist = [] ∧ a' = { a with failed := true } := by
  unfold kalloc at h
  split at h
  · rename_i hr
    cases h
    exact ⟨hr, rfl⟩
  · cases h

theorem free_kalloc (h : kalloc a = (some x, a')) : a.free = x ::ₘ a'.free := by
  simp [Kmem.free, (kalloc_some h).1]

/-- A directory that has taken page tables from the allocator. -/
structure Extends (a : Kmem) (d : PgDir) (a' : Kmem) (d' : PgDir) : Prop where
  frame : d'.frame = d.frame
  balance : a.free + d.frames = a'.free + d'.frames
  walks : ∀ va, (d.walk va).isSome → (d'.walk va).isSome

theorem Extends.refl (a : Kmem) (d : PgDir) : Extends a d a d := ⟨rfl, rfl, fun _ h => h⟩

theorem Extends.trans {a1 a2 a3 : Kmem} {d1 d2 d3 : PgDir} (h : Extends a1 d1 a2 d2)
    (k : Extends a2 d2 a3 d3) : Extends a1 d1 a3 d3 :=
  ⟨k.frame.trans h.frame, h.balance.trans k.balance, fun va hw => k.walks va (h.walks va hw)⟩

theorem Extends.setPte (h : Extends a d a' d') (va : Nat) (e : Pte) :
    Extends a d a' (d'.setPte va e) := by
  refine ⟨?_, ?_, ?_⟩
  · simpa using h.frame
  · simpa using h.balance
  · intro vb hw
    rw [walk_isSome_setPte]
    exact h.walks vb hw

theorem PgDir.card_frames_le (d : PgDir) : d.frames.card ≤ 1025 := by
  have h := List.length_filterMap_le (fun i => (d.pde i).map PgTab.frame) (List.range 1024)
  rw [List.length_range] at h
  rw [frames, card_cons, coe_card]
  exact Nat.succ_le_succ h

/-- The directory `walkpgdir` leaves when it installs a page table in frame `x`. -/
def PgDir.addTable (d : PgDir) (va : Nat) (x : Frame) : PgDir :=
  { d with pde := update d.pde (pdx va) (some ⟨x, fun _ => Pte.zero⟩) }

theorem PgDir.frames_addTable (x : Frame) (h : d.pde (pdx va) = none) :
    (d.addTable va x).frames = x ::ₘ d.frames := by
  have hlt : pdx va < 1024 := by unfold pdx; omega
  have hup : (fun i => ((d.addTable va x).pde i).map PgTab.frame) =
      update (fun i => (d.pde i).map PgTab.frame) (pdx va) (some x) := by
    funext i
    by_cases hi : i = pdx va
    · subst hi
      simp [addTable]
    · simp [addTable, update_of_ne hi]
  unfold frames tables
  rw [hup, Lib.filterMap_update_none _ _ _ _ hlt (by simp [h]), cons_swap]
  rfl

theorem PgDir.entry_addTable (x : Frame) (h : d.pde (pdx va) = none) (v : Nat) :
    (d.addTable va x).entry v = d.entry v := by
  simp only [entry, addTable]
  by_cases hv : v / 1024 = pdx va
  · rw [hv, h, update_self]
  · rw [update_of_ne hv]

theorem PgDir.walk_addTable (d : PgDir) (va : Nat) (x : Frame) :
    (d.addTable va x).walk va = some Pte.zero := by
  simp [walk, addTable]

/-- `walkpgdir` finds the entry, having extended the directory if need be, or it finds the
free list empty. -/
theorem walkpgdir_cases (a : Kmem) (d : PgDir) (hva : va < 0x100000000) :
    (∃ d' a', walkpgdir a d va = (some (d.entry (va / 4096)), d', a') ∧ Extends a d a' d' ∧
      a'.failed = a.failed ∧ d'.walk va = some (d.entry (va / 4096)) ∧
      ∀ v, d'.entry v = d.entry v) ∨
    (a.freelist = [] ∧ d.walk va = none ∧ walkpgdir a d va = (none, d, { a with failed := true })) := by
  unfold walkpgdir
  cases hp : d.pde (pdx va) with
  | some t =>
    have hw : d.walk va = some (t.pte (ptx va)) := by simp [PgDir.walk, hp]
    rw [entry_of_walk hva hw]
    exact Or.inl ⟨d, a, rfl, Extends.refl a d, rfl, hw, fun _ => rfl⟩
  | none =>
    have hw : d.walk va = none := by simp [PgDir.walk, hp]
    rw [entry_of_walk_none hva hw]
    cases hk : kalloc a with
    | mk r a' =>
      cases r with
      | none =>
        obtain ⟨hf, rfl⟩ := kalloc_none hk
        exact Or.inr ⟨hf, hw, rfl⟩
      | some x =>
        refine Or.inl ⟨d.addTable va x, a', rfl, ⟨rfl, ?_, ?_⟩, (kalloc_some hk).2,
          d.walk_addTable va x, d.entry_addTable x hp⟩
        · rw [frames_addTable x hp, free_kalloc hk, cons_add,
            add_cons]
        · intro vb hb
          by_cases hv : pdx vb = pdx va
          · simp [PgDir.walk, PgDir.addTable, hv]
          · simpa [PgDir.walk, PgDir.addTable, update_of_ne hv] using hb

theorem mapLoop_eq (perm : Flags) (n : Nat) (a : Kmem) (d : PgDir) (va : Nat) (pa : Frame) :
    mapLoop perm n a d va pa =
      match walkpgdir a d va with
      | (none, d, k) => pure (false, d, k)
      | (some pte, d, k) =>
        if pte.p then throw (.panic "remap")
        else
          match n with
          | 0 => pure (true, d.setPte va (Pte.make pa perm), k)
          | n + 1 =>
            mapLoop perm n k (d.setPte va (Pte.make pa perm)) ((va + 4096) % 0x100000000)
              ((pa + 1) % 0x100000) := by
  cases n <;> rw [mapLoop] <;> rfl

theorem mapLoop_page {b : Bool} (hva : va < 0x100000000)
    (h : mapLoop perm 0 a d va pa = .ok (b, d', a')) :
    (b = true ∧ Extends a d a' d' ∧ a'.failed = a.failed ∧ (d.entry (va / 4096)).p = false ∧
      ∀ v, d'.entry v = if v = va / 4096 then Pte.make pa perm else d.entry v) ∨
    (b = false ∧ a.freelist = [] ∧ d.walk va = none ∧ d' = d ∧ a' = { a with failed := true }) := by
  rw [mapLoop_eq] at h
  obtain ⟨d1, a1, hw, hx, hf, hwalk, he⟩ | ⟨hf, hn, hw⟩ := walkpgdir_cases a d hva
  · simp only [hw] at h
    split at h
    · cases h
    rename_i hnp
    cases h
    refine Or.inl ⟨rfl, hx.setPte _ _, hf, by simpa using hnp, fun v => ?_⟩
    rw [entry_setPte hva hwalk, he]
  · simp only [hw] at h
    cases h
    exact Or.inr ⟨rfl, hf, hn, rfl, rfl⟩

theorem mapLoop_succ (perm : Flags) (n : Nat) (a : Kmem) (d : PgDir) (va : Nat) (pa : Frame) :
    mapLoop perm (n + 1) a d va pa = mapLoop perm 0 a d va pa >>= fun r =>
      if r.1 then mapLoop perm n r.2.2 r.2.1 ((va + 4096) % 0x100000000) ((pa + 1) % 0x100000)
      else pure r := by
  rw [mapLoop_eq, mapLoop_eq perm 0]
  obtain ⟨_ | pte, d1, a1⟩ := walkpgdir a d va
  · rfl
  · dsimp only
    split <;> rfl

/-- The page number `pa` after `j` turns of the loop of `mappages`. -/
def frameAt (pa : Frame) : Nat → Frame
  | 0 => pa
  | j + 1 => (pa + (j + 1)) % 0x100000

theorem frameAt_eq {pa j : Nat} (h : pa + j < 0x100000) : frameAt pa j = pa + j := by
  cases j with
  | zero => rfl
  | succ j => exact Nat.mod_eq_of_lt h

theorem frameAt_next (pa j : Nat) : frameAt ((pa + 1) % 0x100000) j = frameAt pa (j + 1) := by
  cases j with
  | zero => rfl
  | succ j =>
    change ((pa + 1) % 0x100000 + (j + 1)) % 0x100000 = (pa + (j + 1 + 1)) % 0x100000
    omega

/-- The flat map `e` after the `j` pages from `v` on were mapped to the frames from `pa` on. -/
def mapRange (e : Nat → Pte) (v j : Nat) (pa : Frame) (perm : Flags) (u : Nat) : Pte :=
  if v ≤ u ∧ u < v + j then Pte.make (frameAt pa (u - v)) perm else e u

section
variable (e : Nat → Pte) (v : Nat) (pa : Frame) (perm : Flags)

theorem mapRange_zero : mapRange e v 0 pa perm = e :=
  funext fun _ => if_neg (by omega)

theorem mapRange_succ (j : Nat) : mapRange e v (j + 1) pa perm =
    mapRange (fun u => if u = v then Pte.make pa perm else e u) (v + 1) j ((pa + 1) % 0x100000) perm := by
  funext u
  simp only [mapRange, frameAt_next]
  by_cases hu : u = v
  · subst hu
    rw [if_pos (by omega), if_neg (by omega), if_pos rfl, Nat.sub_self, frameAt]
  · rw [if_neg hu]
    by_cases h : v ≤ u ∧ u < v + (j + 1)
    · rw [if_pos h, if_pos (by omega), show u - (v + 1) + 1 = u - v by omega]
    · rw [if_neg h, if_neg (by omega)]

end

/-- The loop of `mappages` over pages that fit below the top of the address space maps the
first `j` of them: all, unless the free list runs out. -/
theorem mapLoop_spec {b : Bool} (hal : va % 4096 = 0) (hfit : va / 4096 + n < 0x100000)
    (h : mapLoop perm n a d va pa = .ok (b, d', a')) :
    Extends a d a' d' ∧ a'.failed = (a.failed || !b) ∧ (b = false → a'.freelist = []) ∧
      ∃ j ≤ n + 1, (b = true ↔ j = n + 1) ∧
        (∀ v, va / 4096 ≤ v → v < va / 4096 + j → (d.entry v).p = false) ∧
        d'.entry = mapRange d.entry (va / 4096) j pa perm := by
  induction n generalizing a d va pa with
  | zero =>
    rcases mapLoop_page (by omega) h with ⟨rfl, hx, hf, hp, he⟩ | ⟨rfl, hf, -, rfl, rfl⟩
    · refine ⟨hx, by simp [hf], nofun, 1, le_rfl, by simp, fun v h1 h2 => ?_, ?_⟩
      · rwa [show v = va / 4096 by omega]
      · rw [mapRange_succ, mapRange_zero]
        exact funext he
    · exact ⟨⟨rfl, rfl, fun _ h => h⟩, by simp, fun _ => hf, 0, by omega, by simp, by omega,
        (mapRange_zero ..).symm⟩
  | succ n ih =>
    rw [mapLoop_succ] at h
    obtain ⟨⟨b1, d1, a1⟩, h1, h⟩ := Lib.bind_eq_ok.mp h
    rcases mapLoop_page (by omega) h1 with ⟨rfl, hx, hf, hp, he⟩ | ⟨rfl, hf, -, rfl, rfl⟩
    · have hnext : (va + 4096) % 0x100000000 = va + 4096 := by omega
      have hpage : (va + 4096) / 4096 = va / 4096 + 1 := by omega
      simp only [if_true, hnext] at h
      obtain ⟨hx', hf', hs, j, hj, hb, habs, he'⟩ := ih (by omega) (by omega) h
      rw [hpage] at habs he'
      refine ⟨hx.trans hx', by rw [hf', hf], hs, j + 1, by omega, by rw [hb]; omega, fun v h1 h2 => ?_, ?_⟩
      · by_cases hv : v = va / 4096
        · rw [hv]
          exact hp
        · have := habs v (by omega) (by omega)
          rwa [he, if_neg hv] at this
      · rw [mapRange_succ, he', funext he]
    · cases h
      exact ⟨⟨rfl, rfl, fun _ h => h⟩, by simp, fun _ => hf, 0, by omega, by simp, by omega,
        (mapRange_zero ..).symm⟩

theorem mappages_eq (a : Kmem) (d : PgDir) {va size : Nat} (pa : Frame) (perm : Flags)
    (hal : va % 4096 = 0) (hpos : 0 < size) (hfit : va + size ≤ 0x100000000) :
    mappages a d va size pa perm = mapLoop perm ((size - 1) / 4096) a d va pa := by
  have first : pgrounddown va = va := by
    unfold pgrounddown
    omega
  have last : pgrounddown ((va + size + 0xFFFFFFFF) % 0x100000000) =
      va + (size - 1) / 4096 * 4096 := by
    unfold pgrounddown
    omega
  have turns : (va + (size - 1) / 4096 * 4096 + 0x100000000 - va) % 0x100000000 / 4096 =
      (size - 1) / 4096 := by
    omega
  simp only [mappages, first, last, turns]

theorem mappages_page (a : Kmem) (d : PgDir) (pa : Frame) (perm : Flags) (hva : va < 0x100000000)
    (hal : va % 4096 = 0) : mappages a d va 4096 pa perm = mapLoop perm 0 a d va pa :=
  mappages_eq a d pa perm hal (by decide) (by omega)

section
variable (hva : va < 0x100000000) (hal : va % 4096 = 0)
include hva hal

theorem mappages_page_ok (h : mappages a d va 4096 pa perm = .ok (true, d', a')) :
    Extends a d a' d' ∧ a'.failed = a.failed ∧ (d.entry (va / 4096)).p = false ∧
      ∀ v, d'.entry v = if v = va / 4096 then Pte.make pa perm else d.entry v := by
  rw [mappages_page a d pa perm hva hal] at h
  rcases mapLoop_page hva h with ⟨-, h⟩ | ⟨h, -⟩
  · exact h
  · cases h

theorem mappages_page_fail (h : mappages a d va 4096 pa perm = .ok (false, d', a')) :
    a.freelist = [] ∧ d.walk va = none ∧ d' = d ∧ a' = { a with failed := true } := by
  rw [mappages_page a d pa perm hva hal] at h
  rcases mapLoop_page hva h with ⟨h, -⟩ | ⟨-, h⟩
  · cases h
  · exact h

theorem mappages_page_taken (hw : d.walk va = none)
    (h : mappages a d va 4096 pa perm = .ok (true, d', a')) : a.freelist ≠ [] := by
  intro hf
  have hwalk : walkpgdir a d va = (none, d, { a with failed := true }) := by
    simp only [PgDir.walk, Option.map_eq_none_iff] at hw
    simp [walkpgdir, hw, kalloc, hf]
  rw [mappages_page a d pa perm hva hal, mapLoop_eq] at h
  simp only [hwalk] at h
  cases h

end

end Xv6
