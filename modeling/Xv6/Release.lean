import Xv6.Mapping
import Xv6.Sweep

/-!
What `deallocuvm` and `freevm` give back. A user frame goes to the free list when its
count is 0 and stays out of it otherwise; its entry is cleared in both cases. Page
tables follow the same rule, the directory itself is always freed.
-/

namespace Xv6

open Lib Multiset

variable {m m' : Machine} {d d' : PgDir} {newsz oldsz v : Nat} {x : Frame} {S T : Nat → Prop}
  {vs : List Nat} {go : Bool}

structure Freed (m : Machine) (xs : Multiset Frame) (m' : Machine) : Prop where
  image : m'.image = m.image
  counts : m'.counts = m.counts
  cr3 : m'.cr3 = m.cr3
  failed : m'.kmem.failed = m.kmem.failed
  free : m'.kmem.free = m.kmem.free + xs
  mem : ∀ x, x ∉ xs → m'.mem x = m.mem x
  usable : ∀ x ∈ xs, m.image.kend ≤ x ∧ x < 0xE000

theorem Freed.refl (m : Machine) : Freed m 0 m :=
  ⟨rfl, rfl, rfl, rfl, by simp, fun _ _ => rfl, by simp⟩

theorem Freed.trans {m1 m2 m3 : Machine} {xs ys : Multiset Frame} (h : Freed m1 xs m2)
    (k : Freed m2 ys m3) : Freed m1 (xs + ys) m3 := by
  refine ⟨k.image.trans h.image, k.counts.trans h.counts, k.cr3.trans h.cr3,
    k.failed.trans h.failed, ?_, ?_, ?_⟩
  · rw [k.free, h.free, add_assoc]
  · intro x hx
    rw [mem_add, not_or] at hx
    rw [k.mem x hx.2, h.mem x hx.1]
  · intro x hx
    rcases mem_add.mp hx with hx | hx
    · exact h.usable x hx
    · simpa [h.image] using k.usable x hx

theorem kfree_spec (h : kfree m x = .ok m') : Freed m {x} m' := by
  unfold kfree at h
  split at h
  · cases h
  rename_i hx
  cases h
  refine ⟨rfl, rfl, rfl, rfl, ?_, ?_, ?_⟩
  · rw [add_comm, singleton_add]
    rfl
  · intro y hy
    simp only [mem_singleton] at hy
    simp [Machine.memset, hy]
  · intro y hy
    rw [mem_singleton.mp hy]
    exact ⟨not_lt.mp (not_or.mp hx).1, not_le.mp (not_or.mp hx).2⟩

theorem kfree_total (hlo : m.image.kend ≤ x) (hhi : x < 0xE000) : ∃ m', kfree m x = .ok m' := by
  unfold kfree
  rw [if_neg (not_or.mpr ⟨not_lt.mpr hlo, not_le.mpr hhi⟩)]
  exact ⟨_, rfl⟩

theorem Image.kend_pos (i : Image) : 0 < i.kend := lt_trans (by decide) (lt_trans i.text i.order)

/-- The directory after the present entries of the pages in `S` were cleared. -/
structure Cleared (d : PgDir) (S : Nat → Prop) (d' : PgDir) : Prop where
  frame : d'.frame = d.frame
  tables : d'.tables = d.tables
  walks : ∀ va, (d'.walk va).isSome = (d.walk va).isSome
  cleared : ∀ v, S v → (d'.entry v).p = false
  kept : ∀ v, ¬ S v → d'.entry v = d.entry v

theorem Cleared.refl (d : PgDir) : Cleared d (fun _ => False) d :=
  ⟨rfl, rfl, fun _ => rfl, fun _ h => h.elim, fun _ _ => rfl⟩

theorem PgDir.entry_clear (hv : v < 0x100000) (hp : (d.entry v).p = true) :
    (d.setPte (v * 4096) Pte.zero).entry = Function.update d.entry v Pte.zero := by
  have hdiv : v * 4096 / 4096 = v := by omega
  have hw := PgDir.walk_of_present (d := d) (show v * 4096 < 0x100000000 by omega)
  rw [hdiv] at hw
  funext u
  rw [PgDir.entry_setPte (by omega) (hw hp), hdiv, Function.update_apply]

theorem Cleared.setPte (hv : v < 0x100000) (hp : (d.entry v).p = true) :
    Cleared d (· = v) (d.setPte (v * 4096) Pte.zero) := by
  refine ⟨by simp, by simp, fun va => PgDir.walk_isSome_setPte .., ?_, ?_⟩
  · rintro u rfl
    rw [PgDir.entry_clear hv hp, Function.update_self]
    rfl
  · intro u hu
    rw [PgDir.entry_clear hv hp, Function.update_of_ne hu]

theorem Cleared.trans {d1 d2 d3 : PgDir} (h : Cleared d1 S d2) (k : Cleared d2 T d3) :
    Cleared d1 (fun v => S v ∨ T v) d3 := by
  refine ⟨k.frame.trans h.frame, k.tables.trans h.tables,
    fun va => (k.walks va).trans (h.walks va), ?_, ?_⟩
  · intro v hv
    by_cases ht : T v
    · exact k.cleared v ht
    · rw [k.kept v ht]
      exact h.cleared v (hv.resolve_right ht)
  · intro v hv
    rw [not_or] at hv
    rw [k.kept v hv.2, h.kept v hv.1]

theorem Cleared.congr (h : Cleared d S d') (hst : ∀ v, S v → T v)
    (hts : ∀ v, T v → S v ∨ (d.entry v).p = false) : Cleared d T d' := by
  refine ⟨h.frame, h.tables, h.walks, ?_, ?_⟩
  · intro v hv
    by_cases hs : S v
    · exact h.cleared v hs
    · rw [h.kept v hs]
      exact (hts v hv).resolve_left hs
  · intro v hv
    exact h.kept v fun hs => hv (hst v hs)

def PgDir.released (d : PgDir) (counts : Frame → Nat) (vs : List Nat) : List Frame :=
  (vs.filter fun v => (d.entry v).p && counts (d.entry v).ppn == 0).map fun v => (d.entry v).ppn

theorem PgDir.released_congr {counts : Frame → Nat} (h : ∀ v ∈ vs, d'.entry v = d.entry v) :
    d'.released counts vs = d.released counts vs := by
  unfold released
  rw [List.filter_congr (q := fun v => (d.entry v).p && counts (d.entry v).ppn == 0)
    fun v hv => by rw [h v hv]]
  apply List.map_congr_left
  intro v hv
  rw [h v (List.mem_of_mem_filter hv)]

theorem kfreeUnless_spec {keep : Bool} (h : kfreeUnless keep m x = .ok m') :
    Freed m (if keep then 0 else {x}) m' := by
  unfold kfreeUnless at h
  split at h
  · rename_i hk
    cases h
    rw [if_pos hk]
    exact Freed.refl m
  · rename_i hk
    rw [if_neg hk]
    exact kfree_spec h

theorem deallocPage_spec (hv : v < 0x100000) (hp : (d.entry v).p = true)
    (h : deallocPage (m, d) (v * 4096) (d.entry v) = .ok ((m', d'), go)) :
    go = true ∧ Freed m (d.released m.counts [v]) m' ∧ Cleared d (· = v) d' := by
  unfold deallocPage at h
  split at h
  · cases h
  obtain ⟨m1, hm, h⟩ := bind_eq_ok.mp h
  cases h
  refine ⟨rfl, ?_, Cleared.setPte hv hp⟩
  have hf := kfreeUnless_spec hm
  by_cases hc : m.counts (d.entry v).ppn = 0
  · simpa [PgDir.released, Machine.getCount, hp, hc] using hf
  · simpa [PgDir.released, Machine.getCount, hp, hc] using hf

theorem visit_dealloc_spec (hvs : ∀ v ∈ vs, v < 0x100000) (hnodup : vs.Nodup)
    (h : visit Prod.snd deallocPage vs (m, d) = .ok ((m', d'), go)) :
    go = true ∧ Freed m (d.released m.counts vs) m' ∧ Cleared d (· ∈ vs) d' := by
  induction vs generalizing m d with
  | nil =>
    cases h
    exact ⟨rfl, Freed.refl m', (Cleared.refl d').congr (by simp) (by simp)⟩
  | cons v vs ih =>
    obtain ⟨hv, hrest⟩ := List.nodup_cons.mp hnodup
    have hlt := hvs v (by simp)
    have hlts : ∀ u ∈ vs, u < 0x100000 := fun u hu => hvs u (List.mem_cons_of_mem v hu)
    rw [visit] at h
    have hsplit : d.released m.counts (v :: vs) =
        d.released m.counts [v] ++ d.released m.counts vs := by
      simp only [PgDir.released, ← List.map_append, ← List.filter_append, List.singleton_append]
    split at h
    · rename_i hp
      obtain ⟨⟨⟨m1, d1⟩, go1⟩, hb, h⟩ := bind_eq_ok.mp h
      obtain ⟨rfl, hf, hc⟩ := deallocPage_spec hlt hp hb
      simp only [if_true] at h
      obtain ⟨hgo, hf', hc'⟩ := ih hlts hrest h
      rw [hf.counts, PgDir.released_congr (d := d) fun u hu => hc.kept u ?_] at hf'
      · refine ⟨hgo, ?_, (hc.trans hc').congr (by simp) (by simp; tauto)⟩
        rw [hsplit, ← coe_add]
        exact hf.trans hf'
      · rintro rfl
        exact hv hu
    · rename_i hp
      have hp' : (d.entry v).p = false := by simpa using hp
      obtain ⟨hgo, hf, hc⟩ := ih hlts hrest h
      have hnone : d.released m.counts [v] = [] := by simp [PgDir.released, hp']
      rw [hsplit, hnone, List.nil_append]
      refine ⟨hgo, hf, hc.congr (fun u hu => List.mem_cons_of_mem v hu) ?_⟩
      intro u hu
      rcases List.mem_cons.mp hu with rfl | hu
      · exact Or.inr hp'
      · exact Or.inl hu

/-- The pages `deallocuvm(pgdir, oldsz, newsz)` visits. -/
def deallocRange (oldsz newsz : Nat) : List Nat :=
  if oldsz ≤ newsz then []
  else List.range' (pgroundup newsz / 4096) (pagesTo (pgroundup newsz) oldsz)

theorem pgroundup_aligned (n : Nat) : pgroundup n % 4096 = 0 := by
  unfold pgroundup
  omega

theorem mem_deallocRange : v ∈ deallocRange oldsz newsz ↔
      newsz < oldsz ∧ pgroundup newsz / 4096 ≤ v ∧ v * 4096 < oldsz := by
  have := pgroundup_aligned newsz
  unfold deallocRange
  split
  · simp
    omega
  · rw [List.mem_range'_1]
    unfold pagesTo
    omega

theorem deallocRange_lt (h : oldsz ≤ 0x80000000) (hv : v ∈ deallocRange oldsz newsz) :
    v < 0x80000 := by
  have := mem_deallocRange.mp hv
  omega

theorem deallocRange_nodup (oldsz newsz : Nat) : (deallocRange oldsz newsz).Nodup := by
  unfold deallocRange
  split
  · simp
  · exact List.nodup_range'

theorem deallocuvm_spec {sz : Nat} (hold : oldsz ≤ 0x80000000)
    (h : deallocuvm m d oldsz newsz = .ok (sz, d', m')) :
    sz = (if oldsz ≤ newsz then oldsz else newsz) ∧
      Freed m (d.released m.counts (deallocRange oldsz newsz)) m' ∧
      Cleared d (· ∈ deallocRange oldsz newsz) d' := by
  have hlt : ∀ v ∈ deallocRange oldsz newsz, v < 0x80000 := fun v hv => deallocRange_lt hold hv
  have hnodup := deallocRange_nodup oldsz newsz
  unfold deallocuvm at h
  unfold deallocRange at hlt hnodup ⊢
  by_cases hle : oldsz ≤ newsz
  · simp only [if_pos hle] at h ⊢
    cases h
    exact ⟨rfl, Freed.refl m, (Cleared.refl d).congr (by simp) (by simp)⟩
  simp only [if_neg hle] at h hlt hnodup ⊢
  obtain ⟨⟨⟨m1, d1⟩, go⟩, hs, h⟩ := bind_eq_ok.mp h
  cases h
  rw [sweep_eq_visit (by omega) _ _ _ (pgroundup_aligned newsz) le_rfl] at hs
  obtain ⟨-, hf, hc⟩ := visit_dealloc_spec (fun v hv => by have := hlt v hv; omega) hnodup hs
  exact ⟨rfl, hf, hc⟩

def untracked (counts : Frame → Nat) (xs : List Frame) : List Frame :=
  xs.filter fun x => counts x == 0

theorem freeTables_spec {xs : List Frame} (h : freeTables xs m = .ok m') :
    Freed m (untracked m.counts xs) m' := by
  induction xs generalizing m with
  | nil =>
    cases h
    exact Freed.refl m'
  | cons x xs ih =>
    obtain ⟨m1, hm, h⟩ := bind_eq_ok.mp h
    have hf := kfreeUnless_spec hm
    have hf' := hf.trans (ih h)
    rw [hf.counts] at hf'
    by_cases hc : m.counts x = 0
    · have hx : untracked m.counts (x :: xs) = x :: untracked m.counts xs := by
        simp [untracked, hc]
      rw [hx, ← cons_coe, ← singleton_add]
      simpa [Machine.getCount, hc] using hf'
    · have hx : untracked m.counts (x :: xs) = untracked m.counts xs := by
        simp [untracked, hc]
      rw [hx]
      simpa [Machine.getCount, hc, Nat.pos_iff_ne_zero] using hf'

def userPages : List Nat := List.range' 0 0x80000

def PgDir.freed (d : PgDir) (counts : Frame → Nat) : Multiset Frame :=
  d.released counts userPages + (untracked counts d.tables + {d.frame})

theorem freevm_spec (h : freevm m d = .ok m') : Freed m (d.freed m.counts) m' := by
  obtain ⟨⟨sz, d1, m1⟩, hd, h⟩ := bind_eq_ok.mp h
  obtain ⟨m2, ht, h⟩ := bind_eq_ok.mp h
  obtain ⟨-, hf, hc⟩ := deallocuvm_spec (by omega) hd
  have hrange : deallocRange 0x80000000 0 = userPages := rfl
  have hf2 := freeTables_spec ht
  have hf3 := kfree_spec h
  rw [hc.tables, hf.counts] at hf2
  rw [hc.frame] at hf3
  rw [hrange] at hf
  exact hf.trans (hf2.trans hf3)

end Xv6
