import Xv6.Share
import Xv6.Exec

/-!
The address space `exec` builds. Its pages have frames of their own, all with count 1;
`freevm` therefore never returns them, neither on the error path nor when the process
replaces its image again.
-/

namespace Xv6

variable {addr n newsz off offset sz : Nat} {l l' : Loading} {b w : Bool} {ys : List Frame}

/-- Two directories that map the same pages to the same frames, with the same kernel half. -/
structure SameMap (d d' : PgDir) : Prop where
  frame : d'.frame = d.frame
  tables : d'.tables = d.tables
  present : ∀ v, (d'.entry v).p = (d.entry v).p
  ppn : ∀ v, (d'.entry v).ppn = (d.entry v).ppn
  kernel : ∀ v, 0x80000 ≤ v → d'.entry v = d.entry v

theorem SameMap.refl (d : PgDir) : SameMap d d :=
  ⟨rfl, rfl, fun _ => rfl, fun _ => rfl, fun _ _ => rfl⟩

theorem SameMap.setPte {d : PgDir} {va : Nat} {e e' : Pte} (hva : va < 0x80000000)
    (hw : d.walk va = some e) (hp : e'.p = e.p) (hppn : e'.ppn = e.ppn) :
    SameMap d (d.setPte va e') := by
  have hva' : va < 0x100000000 := by omega
  have he := PgDir.entry_of_walk hva' hw
  refine ⟨by simp, by simp, ?_, ?_, ?_⟩ <;> intro v <;> rw [PgDir.entry_setPte hva' hw] <;> split
  · rename_i hv
    rw [hv, he, hp]
  · rfl
  · rename_i hv
    rw [hv, he, hppn]
  · rfl
  · intro hlo
    omega
  · exact fun _ => rfl

/-- The address space under construction: page `i` has frame `xs[i]`, and the frames `lost`
were taken from the free list and are mapped nowhere. -/
structure Built (own : Frame) (m0 m : Machine) (d : PgDir) (xs lost : List Frame) : Prop where
  image : m.image = m0.image
  free : m0.kmem.free = m.kmem.free + d.frames + xs + lost
  counts : ∀ x, m.counts x = if x ∈ xs ∨ x ∈ lost then 1 else m0.counts x
  length : xs.length ≤ 0x80000
  present : ∀ v, v < 0x80000 → ((d.entry v).p = true ↔ v < xs.length)
  ppn : ∀ i (h : i < xs.length), (d.entry i).ppn = xs.get ⟨i, h⟩
  kernel : d.MapsKernel m0.image
  cr3 : m.cr3 = m0.cr3 ∨ m.cr3 = own ∨ m.cr3 = d.frame

section
variable {own : Frame} {m0 m m' : Machine} {d d' : PgDir} {xs lost : List Frame}

theorem Built.base (h : Built own m0 m d xs lost) : d.KernelBase := h.kernel.base

theorem Built.congr (h : Built own m0 m d xs lost) (hd : SameMap d d')
    (himage : m'.image = m.image) (hcounts : m'.counts = m.counts) (hfree : m'.kmem = m.kmem)
    (hcr3 : m'.cr3 = m.cr3 ∨ m'.cr3 = own ∨ m'.cr3 = d.frame) : Built own m0 m' d' xs lost := by
  refine ⟨himage.trans h.image, ?_, ?_, h.length, ?_, ?_, ?_, ?_⟩
  · rw [hfree, PgDir.frames, hd.frame, hd.tables]
    exact h.free
  · rw [hcounts]
    exact h.counts
  · intro v hv
    rw [hd.present]
    exact h.present v hv
  · intro i hi
    rw [hd.ppn]
    exact h.ppn i hi
  · exact h.kernel.congr hd.kernel
  · rw [hd.frame]
    rcases hcr3 with he | he | he
    · rw [he]
      exact h.cr3
    · exact Or.inr (Or.inl he)
    · exact Or.inr (Or.inr he)

/-- The new frames carry counts, so `freevm` gives back only the page tables. -/
theorem Built.freed (h : Built own m0 m d xs lost) :
    ∃ kept : Multiset Frame, d.frames = d.freed m.counts + kept ∧ ∀ x ∈ kept, 0 < m.counts x := by
  apply PgDir.frames_eq_freed
  intro v hv hp
  have hlt := (h.present v hv).mp hp
  rw [h.ppn v hlt, h.counts, if_pos (Or.inl (List.get_mem ..))]
  omega

theorem Built.grown (h : Built own m0 m d xs []) (hg : Grown m d xs.length ys m' d')
    (hlen : xs.length + ys.length ≤ 0x80000) : Built own m0 m' d' (xs ++ ys) [] := by
  refine ⟨hg.image.trans h.image, ?_, ?_, by simpa using hlen, ?_, ?_, ?_, ?_⟩
  · rw [h.free, hg.balance, ← Multiset.coe_add]
    abel
  · intro x
    rw [hg.counts, h.counts]
    by_cases h1 : x ∈ xs <;> by_cases h2 : x ∈ ys <;> simp [h1, h2]
  · intro v hv
    rw [List.length_append]
    by_cases h1 : v < xs.length
    · rw [hg.kept v (Or.inl h1), h.present v hv]
      omega
    by_cases h2 : v < xs.length + ys.length
    · have hm := hg.mapped (v - xs.length) (by omega)
      rw [show xs.length + (v - xs.length) = v by omega] at hm
      rw [hm]
      simp [h2]
    · rw [hg.kept v (by omega), h.present v hv]
      omega
  · intro i hi
    by_cases h1 : i < xs.length
    · rw [hg.kept i (Or.inl h1), h.ppn i h1]
      simp [List.getElem_append_left h1]
    have hlt : i - xs.length < ys.length := by
      rw [List.length_append] at hi
      omega
    have hm := hg.mapped (i - xs.length) hlt
    rw [show xs.length + (i - xs.length) = i by omega] at hm
    rw [hm]
    simp [List.getElem_append_right (Nat.le_of_not_lt h1)]
  · exact h.kernel.congr fun v hv => hg.kept v (Or.inr (by omega))
  · rw [hg.cr3, hg.frame]
    exact h.cr3

/-- An `allocuvm` that ran out of memory: the pages are as before, the new frames are
lost. -/
theorem Built.abandoned {vs : List Nat} {m1 : Machine} {d1 : PgDir} (h : Built own m0 m d xs [])
    (ha : Abandoned m d xs.length vs m' d' ys m1 d1) (hlo : ∀ v ∈ vs, xs.length ≤ v ∧ v < 0x80000)
    (hhi : ∀ v, xs.length ≤ v → v < xs.length + ys.length → v ∈ vs)
    (hlen : xs.length + ys.length ≤ 0x80000) : Built own m0 m' d' xs ys := by
  have hb := h.grown ha.grown hlen
  have hnone : d1.released m1.counts vs = [] := by
    apply released_eq_nil
    intro v hv hp
    have hlt := (hb.present v (hlo v hv).2).mp hp
    rw [hb.ppn v hlt, hb.counts, if_pos (Or.inl (List.get_mem ..))]
    omega
  refine ⟨ha.image.trans hb.image, ?_, ?_, h.length, ?_, ?_, ?_, ?_⟩
  · rw [hb.free, ha.free, hnone, PgDir.frames, PgDir.frames, ha.cleared.frame, ha.cleared.tables,
      ← Multiset.coe_add, Multiset.coe_nil]
    abel
  · intro x
    rw [ha.counts, hb.counts]
    simp [List.mem_append]
  · intro v hv
    by_cases hvs : v ∈ vs
    · rw [ha.cleared.cleared v hvs]
      have := (hlo v hvs).1
      simp
      omega
    · rw [ha.cleared.kept v hvs, hb.present v hv, List.length_append]
      have := hhi v
      constructor
      · intro hlt
        by_contra hge
        exact hvs (this (by omega) hlt)
      · omega
  · intro i hi
    have hnot : i ∉ vs := fun hv => by have := (hlo i hv).1; omega
    rw [ha.cleared.kept i hnot, hb.ppn i (by rw [List.length_append]; omega)]
    simp [List.getElem_append_left hi]
  · refine hb.kernel.congr fun v hv => ha.cleared.kept v fun hmem => ?_
    have := (hlo v hmem).2
    omega
  · rw [ha.cr3, ha.cleared.frame]
    exact hb.cr3

theorem sizePages_eq (h : sz ≤ 0x80000000) : pgroundup sz / 4096 = sizePages sz := by
  unfold pgroundup sizePages pagesTo
  omega

@[simp] theorem sizePages_zero : sizePages 0 = 0 := by
  unfold sizePages pagesTo
  omega

theorem sizePages_add (h : sz ≤ newsz) (hnew : newsz ≤ 0x80000000) :
    sizePages sz + allocPages sz newsz = sizePages newsz := by
  unfold allocPages sizePages pagesTo pgroundup
  omega

theorem sizePages_le (h : sz ≤ 0x80000000) : sizePages sz ≤ 0x80000 := by
  unfold sizePages pagesTo
  omega

theorem Built.allocuvm {sz' : Nat} (h : Built own m0 m d xs []) (hxs : xs.length = sizePages sz)
    (hsz : sz ≤ 0x80000000) (ha : allocuvm m d sz newsz = .ok (sz', d', m')) :
    ∃ xs' lost', Built own m0 m' d' xs' lost' ∧
      (sz' ≠ 0 → lost' = [] ∧ xs'.length = sizePages sz' ∧ newsz < 0x80000000 ∧
        sz' = max sz newsz) := by
  rcases allocuvm_spec hsz ha with
    ⟨rfl, rfl, h1 | h1⟩ | ⟨hle, hlt, rfl, ys, hys, hg⟩ | ⟨hle, hlt, rfl, ys, m1, d1, hys, hab⟩
  · exact ⟨xs, [], h, fun h0 => (h0 h1.2).elim⟩
  · obtain ⟨h1, rfl⟩ := h1
    exact ⟨xs, [], h, fun _ => ⟨rfl, hxs, by omega, by omega⟩⟩
  · have hadd := sizePages_add hle (by omega)
    have hle' := sizePages_le (show sz' ≤ 0x80000000 by omega)
    rw [sizePages_eq (by omega), ← hxs] at hg
    refine ⟨xs ++ ys, [], h.grown hg (by omega), fun _ => ⟨rfl, ?_, hlt, by omega⟩⟩
    rw [List.length_append]
    omega
  · have hadd := sizePages_add hle (by omega)
    have hle' := sizePages_le (show newsz ≤ 0x80000000 by omega)
    have heq := sizePages_eq (show sz ≤ 0x80000000 by omega)
    rw [heq, ← hxs] at hab
    refine ⟨xs, ys, h.abandoned hab ?_ ?_ (by omega), fun h0 => (h0 rfl).elim⟩
    · intro v hv
      have := mem_deallocRange.mp hv
      omega
    · intro v h1 h2
      rw [mem_deallocRange]
      unfold allocPages sizePages pagesTo pgroundup at *
      omega

end

section
variable {own : Frame} {slept : Nat → Bool} {ip : Option Nat} {m0 : Machine} {xs : List Frame}

theorem Built.read {bytes : Option (List UInt8)} {lost : List Frame}
    (h : Built own m0 l.mach l.d xs lost) (hr : l.read own slept ip off n = (bytes, l')) :
    Built own m0 l'.mach l'.d xs lost ∧ l'.sz = l.sz ∧ l'.d = l.d := by
  cases hr
  refine ⟨h.congr (SameMap.refl _) ?_ ?_ ?_ ?_, rfl, rfl⟩ <;> dsimp only <;> split
  · rfl
  · rfl
  · rfl
  · rfl
  · rfl
  · rfl
  · exact Or.inr (Or.inl rfl)
  · exact Or.inl rfl

/-- A page of a segment is in the frame of `pte`, and the new directory in CR3. -/
def Loading.paged (l : Loading) (va : Nat) (pte : Pte) (w : Bool) (bytes : List UInt8) : Loading :=
  { l with
    d := l.d.setPte va { pte with w := w }
    mach := (l.mach.write pte.ppn 0 bytes).lcr3 (l.d.setPte va { pte with w := w }).frame }

theorem Built.paged {va : Nat} {pte : Pte} {bytes : List UInt8}
    (h : Built own m0 l.mach l.d xs []) (hva : va < 0x80000000) (hw : l.d.walk va = some pte) :
    Built own m0 (l.paged va pte w bytes).mach (l.paged va pte w bytes).d xs [] :=
  h.congr (SameMap.setPte hva hw rfl rfl) rfl rfl rfl (Or.inr (Or.inr (PgDir.frame_setPte ..)))

theorem loadPages_succ {i : Nat} (hva : addr + i < 0x100000000)
    (h : loadPages own slept ip addr offset sz w (n + 1) l i = .ok (true, l')) :
    ∃ pte bytes l1, l.d.walk (addr + i) = some pte ∧
      l.read own slept ip (offset + i) (min (sz - i) 4096) = (some bytes, l1) ∧
      bytes.length = min (sz - i) 4096 ∧ loadPages own slept ip addr offset sz w n
        (l1.paged (addr + i) pte w bytes) (i + 4096) = .ok (true, l') := by
  rw [loadPages, Nat.mod_eq_of_lt hva] at h
  split at h
  · cases h
  rename_i pte hw
  rcases hr : l.read own slept ip (offset + i) (min (sz - i) 4096) with ⟨bytes, l1⟩
  simp only [hr] at h
  split at h
  · cases h
  rename_i hlen
  cases bytes with
  | none => simp at hlen
  | some bytes => exact ⟨pte, bytes, l1, hw, rfl, by simpa using hlen, h⟩

theorem loadPages_spec {i : Nat} (hb : Built own m0 l.mach l.d xs [])
    (hfit : n = 0 ∨ addr + i + (n - 1) * 4096 < 0x80000000)
    (h : loadPages own slept ip addr offset sz w n l i = .ok (b, l')) :
    Built own m0 l'.mach l'.d xs [] ∧ l'.sz = l.sz := by
  induction n generalizing l i with
  | zero =>
    cases h
    exact ⟨hb, rfl⟩
  | succ n ih =>
    rw [loadPages] at h
    split at h
    · cases h
    rename_i pte hw
    rcases hr : l.read own slept ip (offset + i) (min (sz - i) 4096) with ⟨bytes, l1⟩
    obtain ⟨hb1, hsz, hd⟩ := hb.read hr
    simp only [hr] at h
    split at h
    · cases h
      exact ⟨hb1.congr (SameMap.refl _) rfl rfl rfl (Or.inl rfl), hsz⟩
    obtain ⟨hb', hsz'⟩ := ih (hb1.paged (by omega) (by rw [hd]; exact hw)) (by omega) h
    exact ⟨hb', hsz'.trans hsz⟩

theorem loaduvm_spec (hb : Built own m0 l.mach l.d xs []) (hfit : addr + sz < 0x80000000)
    (h : loaduvm own slept ip addr offset sz w l = .ok (b, l')) :
    Built own m0 l'.mach l'.d xs [] ∧ l'.sz = l.sz := by
  unfold loaduvm at h
  split at h
  · cases h
  · refine loadPages_spec hb ?_ h
    unfold pagesTo
    omega

/-- A header that `exec` gets past: it names no segment, or one that was loaded. -/
theorem loadSegments_succ (h : loadSegments own slept ip (n + 1) l off = .ok (true, l')) :
    ∃ ph l1, l.read own slept ip off 32 = (some ph, l1) ∧ ph.length = 32 ∧
      ((field ph 0 4 ≠ 1 ∧ loadSegments own slept ip n l1 (off + 32) = .ok (true, l')) ∨
        (field ph 0 4 = 1 ∧ field ph 16 4 ≤ field ph 20 4 ∧ field ph 8 4 % 4096 = 0 ∧
          ∃ sz d m l2, allocuvm l1.mach l1.d l1.sz (field ph 8 4 + field ph 20 4) =
              .ok (sz, d, m) ∧ sz ≠ 0 ∧
            loaduvm own slept ip (field ph 8 4) (field ph 4 4) (field ph 16 4)
              (field ph 24 4 &&& 2 ≠ 0) ⟨m, l1.fs, d, sz, l1.reads⟩ = .ok (true, l2) ∧
            loadSegments own slept ip n l2 (off + 32) = .ok (true, l'))) := by
  rw [loadSegments] at h
  cases hr : l.read own slept ip off 32 with
  | mk bytes l1 =>
    rw [hr] at h
    cases bytes with
    | none => cases h
    | some ph =>
      refine ⟨ph, l1, rfl, ?_⟩
      dsimp only at h
      split at h
      · cases h
      rename_i hlen
      refine ⟨by omega, ?_⟩
      split at h
      · rename_i htype
        exact Or.inl ⟨htype, h⟩
      rename_i htype
      split at h
      · cases h
      rename_i hmem
      split at h
      · cases h
      obtain ⟨⟨sz, d, m⟩, ha, h⟩ := Lib.bind_eq_ok.mp h
      dsimp only at h
      split at h
      · cases h
      rename_i hne
      split at h
      · cases h
      rename_i hal
      obtain ⟨⟨ok, l2⟩, hl, h⟩ := Lib.bind_eq_ok.mp h
      cases ok with
      | false => cases h
      | true =>
        exact Or.inr ⟨by omega, by omega, by omega, sz, d, m, l2, ha, hne, hl, h⟩

theorem loadSegments_spec (hb : Built own m0 l.mach l.d xs []) (hxs : xs.length = sizePages l.sz)
    (hsz : l.sz < 0x80000000) (h : loadSegments own slept ip n l off = .ok (b, l')) :
    ∃ xs' lost', Built own m0 l'.mach l'.d xs' lost' ∧
      (b = true → lost' = [] ∧ xs'.length = sizePages l'.sz ∧ l'.sz < 0x80000000) := by
  induction n generalizing l off xs with
  | zero =>
    cases h
    exact ⟨xs, [], hb, fun _ => ⟨rfl, hxs, hsz⟩⟩
  | succ n ih =>
    rw [loadSegments] at h
    cases hr : l.read own slept ip off 32 with
    | mk bytes l1 =>
      obtain ⟨hb1, hsz1, -⟩ := hb.read hr
      rw [← hsz1] at hxs hsz
      rw [hr] at h
      cases bytes with
      | none =>
        cases h
        exact ⟨xs, [], hb1, by simp⟩
      | some ph =>
        dsimp only at h
        split at h
        · cases h
          exact ⟨xs, [], hb1, by simp⟩
        split at h
        · exact ih hb1 hxs hsz h
        split at h
        · cases h
          exact ⟨xs, [], hb1, by simp⟩
        split at h
        · cases h
          exact ⟨xs, [], hb1, by simp⟩
        obtain ⟨⟨sz2, d2, m2⟩, ha, h⟩ := Lib.bind_eq_ok.mp h
        obtain ⟨xs2, lost2, hb2, hok⟩ := hb1.allocuvm hxs (by omega) ha
        dsimp only at h
        split at h
        · cases h
          exact ⟨xs2, lost2, hb2, by simp⟩
        rename_i hne
        obtain ⟨rfl, hxs2, hnew, hmax⟩ := hok hne
        split at h
        · cases h
          exact ⟨xs2, [], hb2, by simp⟩
        obtain ⟨⟨ok, l3⟩, hl, h⟩ := Lib.bind_eq_ok.mp h
        obtain ⟨hb3, hsz3⟩ := loaduvm_spec (l := ⟨m2, l1.fs, d2, sz2, l1.reads⟩)
          hb2 (by omega) hl
        dsimp only at h hsz3
        split at h
        · refine ih hb3 (by rw [hsz3]; exact hxs2) ?_ h
          omega
        · cases h
          exact ⟨xs2, [], hb3, by simp⟩

end

end Xv6
