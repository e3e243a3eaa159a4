import Xv6.Unmap

/-!
The two-level page directory as a flat map from virtual pages to entries. `mappages` updates
a range of this map, or a first part of the range when the free list runs out. The loops of
`deallocuvm` and `dellocateAndUnmap`, which jump over absent page tables, do what a visit to
every page of their range does: they clear its present entries and no others.
-/

namespace Xv6

open Lib Function

section
variable {d : PgDir} {n va : Nat} (perm : Flags) (a : Kmem) (pa : Frame)

theorem mapPage_total (hva : va < 0x100000000) (habs : (d.entry (va / 4096)).p = false) :
    ∃ r, mapLoop perm 0 a d va pa = .ok r := by
  rw [mapLoop_eq]
  obtain ⟨d1, a1, hw, -⟩ | ⟨-, -, hw⟩ := walkpgdir_cases a d hva
  · simp only [hw, habs]
    exact ⟨_, rfl⟩
  · simp only [hw]
    exact ⟨_, rfl⟩

theorem mapLoop_total (hal : va % 4096 = 0) (hfit : va / 4096 + n < 0x100000)
    (habs : ∀ v, va / 4096 ≤ v → v ≤ va / 4096 + n → (d.entry v).p = false) :
    ∃ r, mapLoop perm n a d va pa = .ok r := by
  have hfirst := habs (va / 4096) le_rfl (by omega)
  induction n generalizing a d va pa with
  | zero => exact mapPage_total perm a pa (by omega) hfirst
  | succ n ih =>
    obtain ⟨⟨b, d1, a1⟩, h1⟩ := mapPage_total perm a pa (by omega) hfirst
    rw [mapLoop_succ, bind_of_ok h1]
    rcases mapLoop_page (by omega) h1 with ⟨rfl, -, -, -, he⟩ | ⟨rfl, -⟩
    · have habs' : ∀ v, (va + 4096) / 4096 ≤ v → v ≤ (va + 4096) / 4096 + n →
          (d1.entry v).p = false := fun v h1 h2 => by
        rw [he, if_neg (by omega)]
        exact habs v (by omega) (by omega)
      simp only [if_true, show (va + 4096) % 0x100000000 = va + 4096 by omega]
      exact ih _ _ (by omega) (by omega) habs' (habs' _ le_rfl (by omega))
    · exact ⟨_, rfl⟩

end

/-- `mappages` over absent pages returns. The pages it mapped are all those of the range, or
when it fails a first part of them; the rest of the flat map is as before. -/
theorem mappages_flat (a : Kmem) (d : PgDir) (perm : Flags) {va size pa : Nat}
    (hva : va % 4096 = 0) (hpa : pa < 0x100000) (hsize : 0 < size) (hfit : va + size ≤ 0x100000000)
    (habs : ∀ v, va ≤ v * 4096 → v * 4096 < va + size → (d.entry v).p = false) :
    ∃ ok d' a', mappages a d va size pa perm = .ok (ok, d', a') ∧
      ∃ j ≤ (size + 4095) / 4096, (ok = true ↔ j = (size + 4095) / 4096) ∧
        ∀ v, d'.entry v = if va / 4096 ≤ v ∧ v < va / 4096 + j
          then Pte.make ((pa + (v - va / 4096)) % 0x100000) perm else d.entry v := by
  have hpages : va / 4096 + (size - 1) / 4096 < 0x100000 := by omega
  obtain ⟨⟨ok, d', a'⟩, h⟩ := mapLoop_total perm a pa hva hpages fun v h1 h2 =>
    habs v (by omega) (by omega)
  obtain ⟨-, -, -, j, hj, hok, -, he⟩ := mapLoop_spec hva hpages h
  refine ⟨ok, d', a', (mappages_eq a d pa perm hva hsize hfit).trans h, j, by omega,
    by rw [hok]; omega, fun v => ?_⟩
  have hframe : frameAt pa (v - va / 4096) = (pa + (v - va / 4096)) % 0x100000 := by
    cases v - va / 4096 with
    | zero => exact (Nat.mod_eq_of_lt hpa).symm
    | succ j => rfl
  rw [he, mapRange, hframe]

/-- The last two pages of the address space, with one frame for their page table. -/
theorem mappages_flat_top : ∃ d' a', mappages ⟨[7], false⟩ (PgDir.empty 6) 0xFFFFE000 8192 0xFE000
    { w := true } = .ok (true, d', a') ∧ d'.entry 0xFFFFF = Pte.make 0xFE001 { w := true } := by
  obtain ⟨ok, d', a', h, j, hj, hok, he⟩ := mappages_flat ⟨[7], false⟩ (PgDir.empty 6) { w := true }
    (by decide : 0xFFFFE000 % 4096 = 0) (by decide : 0xFE000 < 0x100000) (by decide : 0 < 8192)
    (by decide) fun _ _ _ => rfl
  have htrue : ok = true := by
    have heval : (mappages ⟨[7], false⟩ (PgDir.empty 6) 0xFFFFE000 8192 0xFE000 { w := true }).toOption.map
        Prod.fst = some true := rfl
    rw [h] at heval
    exact Option.some.inj heval
  refine ⟨d', a', htrue ▸ h, ?_⟩
  rw [he, hok.mp htrue]
  rfl

/-- The flat map `e` with the present pages of `vs` cleared. -/
def clearPages (e : Nat → Pte) (vs : List Nat) (u : Nat) : Pte :=
  if u ∈ vs ∧ (e u).p then Pte.zero else e u

section
variable {e : Nat → Pte} {v : Nat} {vs : List Nat}

theorem clearPages_nil (e : Nat → Pte) : clearPages e [] = e := by
  simp [clearPages, funext_iff]

theorem clearPages_absent (h : (e v).p = false) : clearPages e (v :: vs) = clearPages e vs := by
  funext u
  by_cases hu : u = v
  · simp [clearPages, hu, h]
  · simp [clearPages, hu]

theorem clearPages_present (h : (e v).p = true) :
    clearPages e (v :: vs) = clearPages (update e v Pte.zero) vs := by
  funext u
  by_cases hu : u = v
  · simp [clearPages, hu, h]
  · simp [clearPages, hu]

end

section
variable {σ : Type} {dir : σ → PgDir} {body : σ → Nat → Pte → Except Halt (σ × Bool)}
  {s s' : σ} {go : Bool} {vs : List Nat}

/-- A visit whose turns clear their entries clears the pages it came to: all of them, unless
a turn ended it. -/
theorem visit_clears (h : visit dir body vs s = .ok (s', go)) (hvs : ∀ v ∈ vs, v < 0x100000)
    (hturn : ∀ s v s' go, v < 0x100000 → ((dir s).entry v).p = true →
      body s (v * 4096) ((dir s).entry v) = .ok (s', go) →
      (dir s').entry = if go then update (dir s).entry v Pte.zero else (dir s).entry) :
    ∃ ws, ws <+: vs ∧ (go = true → ws = vs) ∧ (dir s').entry = clearPages (dir s).entry ws := by
  induction vs generalizing s with
  | nil =>
    cases h
    exact ⟨[], List.nil_prefix, fun _ => rfl, (clearPages_nil _).symm⟩
  | cons v vs ih =>
    have hrest : ∀ u ∈ vs, u < 0x100000 := fun u hu => hvs u (List.mem_cons_of_mem v hu)
    rw [visit] at h
    split at h
    · rename_i hp
      obtain ⟨⟨s1, go1⟩, hb, h⟩ := bind_eq_ok.mp h
      have hclear := hturn s v s1 go1 (hvs v (by simp)) hp hb
      cases go1 with
      | true =>
        obtain ⟨ws, hpre, hall, he⟩ := ih h hrest
        refine ⟨v :: ws, List.cons_prefix_cons.mpr ⟨rfl, hpre⟩, fun hgo => by rw [hall hgo], ?_⟩
        rw [he, hclear, clearPages_present hp, if_pos rfl]
      | false =>
        cases h
        exact ⟨[], List.nil_prefix, by simp, by rw [hclear, clearPages_nil]; rfl⟩
    · rename_i hp
      obtain ⟨ws, hpre, hall, he⟩ := ih h hrest
      refine ⟨v :: ws, List.cons_prefix_cons.mpr ⟨rfl, hpre⟩, fun hgo => by rw [hall hgo], ?_⟩
      rw [he, clearPages_absent (Bool.eq_false_iff.mpr hp)]

theorem visit_error {e : Halt} (h : visit dir body vs s = .error e) :
    ∃ s v, body s (v * 4096) ((dir s).entry v) = .error e := by
  induction vs generalizing s with
  | nil => cases h
  | cons v vs ih =>
    rw [visit] at h
    split at h
    · rcases bind_eq_error.mp h with h | ⟨⟨s1, go⟩, -, h⟩
      · exact ⟨s, v, h⟩
      · cases go with
        | true => exact ih h
        | false => cases h
    · exact ih h

end

theorem deallocPage_clears (s : Machine × PgDir) (v : Nat) (s' : Machine × PgDir) (go : Bool)
    (hv : v < 0x100000) (hp : (s.2.entry v).p = true)
    (h : deallocPage s (v * 4096) (s.2.entry v) = .ok (s', go)) :
    s'.2.entry = if go then update s.2.entry v Pte.zero else s.2.entry := by
  unfold deallocPage at h
  split at h
  · cases h
  · obtain ⟨m, -, h⟩ := bind_eq_ok.mp h
    cases h
    exact PgDir.entry_clear hv hp

theorem unmapPage_clears {p : Fin NPROC} {i : Fin MAX_WMMAP_INFO} (k : Kernel) (v : Nat) (k' : Kernel)
    (go : Bool) (hv : v < 0x100000) (hp : ((k.proc p).pgdir.entry v).p = true)
    (h : unmapPage p i k (v * 4096) ((k.proc p).pgdir.entry v) = .ok (k', go)) :
    (k'.proc p).pgdir.entry =
      if go then update (k.proc p).pgdir.entry v Pte.zero else (k.proc p).pgdir.entry := by
  unfold unmapPage at h
  split at h
  · cases h
  obtain ⟨⟨ok, fs⟩, -, h⟩ := bind_eq_ok.mp h
  dsimp only at h
  split at h
  · obtain ⟨m, -, h⟩ := bind_eq_ok.mp h
    cases h
    rw [Kernel.proc_setProc_self]
    exact PgDir.entry_clear hv hp
  · cases h
    rfl

theorem deallocPage_error {s : Machine × PgDir} {a : Nat} {pte : Pte} {e : Halt}
    (h : deallocPage s a pte = .error e) : e = .panic "kfree" := by
  unfold deallocPage kfreeUnless kfree at h
  split at h
  · cases h
    rfl
  rcases bind_eq_error.mp h with h | ⟨m, -, h⟩
  · split at h
    · cases h
    · split at h <;> cases h
      rfl
  · cases h

/-- `deallocuvm` as a visit to every page from `newsz` to `oldsz`. -/
def deallocByPage (m : Machine) (d : PgDir) (oldsz newsz : Nat) :
    Except Halt (Nat × PgDir × Machine) := do
  let ((m, d), _) ← visit Prod.snd deallocPage (pageRange (pgroundup newsz) oldsz) (m, d)
  pure (newsz, d, m)

/-- The loop of `dellocateAndUnmap` as a visit to every page of the region. -/
def unmapByPage (k : Kernel) (p : Fin NPROC) (addr bound : Nat) (i : Fin MAX_WMMAP_INFO) :
    Except Halt (Kernel × Bool) :=
  visit (fun k => (k.proc p).pgdir) (unmapPage p i) (pageRange addr bound) k

theorem pageRange_lt {a bound : Nat} (ha : a % 4096 = 0) (hb : bound ≤ 0x80000000) :
    ∀ v ∈ pageRange a bound, v < 0x100000 := by
  intro v hv
  have := (mem_pageRange ha).mp hv
  omega

/-- Jumping over absent page tables changes nothing: both loops end, do what the visit to
every page does, and clear exactly the present entries of the pages they came to. An error of
`deallocuvm` is its panic, one of `dellocateAndUnmap` comes from the turn at some page. -/
theorem skipping_exact :
    (∀ (m : Machine) (d : PgDir) (oldsz newsz : Nat), newsz < oldsz → oldsz ≤ 0x80000000 →
      deallocuvm m d oldsz newsz = deallocByPage m d oldsz newsz ∧
      (∀ e, deallocuvm m d oldsz newsz = .error e → e = .panic "kfree") ∧
      ∀ sz d' m', deallocuvm m d oldsz newsz = .ok (sz, d', m') →
        d'.entry = clearPages d.entry (pageRange (pgroundup newsz) oldsz)) ∧
    ∀ (k : Kernel) (p : Fin NPROC) (i : Fin MAX_WMMAP_INFO) (addr : Nat) (length : Int),
      0x60000000 ≤ addr → addr % 4096 = 0 → 0 < length → addr + length ≤ 0x80000000 →
      0 < ((k.proc p).wmap.slot i).nLoaded →
      unmapPages k p addr (addInt addr length) i = unmapByPage k p addr (addr + length).toNat i ∧
      (∀ e, unmapPages k p addr (addInt addr length) i = .error e →
        ∃ k1 v, unmapPage p i k1 (v * 4096) ((k1.proc p).pgdir.entry v) = .error e) ∧
      ∀ k' go, unmapPages k p addr (addInt addr length) i = .ok (k', go) →
        ∃ vs, vs <+: pageRange addr (addr + length).toNat ∧
          (go = true → vs = pageRange addr (addr + length).toNat) ∧
          (k'.proc p).pgdir.entry = clearPages (k.proc p).pgdir.entry vs := by
  refine ⟨fun m d oldsz newsz hlt hold => ?_, fun k p i addr length hlo hal hpos hhi hn => ?_⟩
  · have hrange := pageRange_lt (pgroundup_aligned newsz) hold
    have heq : deallocuvm m d oldsz newsz = deallocByPage m d oldsz newsz := by
      unfold deallocuvm deallocByPage
      rw [if_neg (by omega)]
      dsimp only
      rw [sweep_eq_visit (by omega) _ _ _ (pgroundup_aligned newsz) le_rfl]
      rfl
    rw [heq]
    refine ⟨rfl, fun e h => ?_, fun sz d' m' h => ?_⟩
    · rcases bind_eq_error.mp h with h | ⟨r, -, h⟩
      · obtain ⟨s, v, hb⟩ := visit_error h
        exact deallocPage_error hb
      · cases h
    · obtain ⟨⟨⟨m1, d1⟩, go⟩, hv, h⟩ := bind_eq_ok.mp h
      cases h
      have hgo := (visit_dealloc_spec hrange List.nodup_range' hv).1
      obtain ⟨ws, -, hall, he⟩ := visit_clears hv hrange deallocPage_clears
      rw [← hall hgo]
      exact he
  · have hbound : addInt addr length = (addr + length).toNat := by
      unfold addInt
      omega
    have heq : unmapPages k p addr (addInt addr length) i =
        unmapByPage k p addr (addr + length).toNat i := by
      unfold unmapPages
      rw [if_pos hn, hbound, sweep_eq_visit (by omega) _ _ _ hal (by omega)]
      rfl
    rw [heq]
    refine ⟨rfl, fun e h => visit_error h, fun k' go h => ?_⟩
    exact (visit_clears h (pageRange_lt hal (by omega)) unmapPage_clears :)

end Xv6
