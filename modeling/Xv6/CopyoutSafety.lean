import Xv6.ExecInput
import Xv6.RegionCalls
import Xv6.UserMemory

/-!
`copyout` into the address spaces that `exec` builds. It copies everything or returns -1, and
writes only to user pages of the range, unless the first address outside the user pages has no
page table: `uva2ka` then reads through the null pointer that `walkpgdir` returned.
-/

namespace Xv6

open Lib Multiset

/-- Page directories made by `setupkvm` and `allocuvm` from the machine `m0`, with the size they
have been grown to. `loaduvm` and `clearpteu` change permissions and contents; `own` is the
directory of the process, which a switch loads again. -/
inductive Made (own : Frame) (m0 : Machine) : Machine → PgDir → Nat → Prop where
  | setup {m : Machine} {d : PgDir} (h : setupkvm m0 = .ok (some d, m)) : Made own m0 m d 0
  | grow {m m' : Machine} {d d' : PgDir} {sz oldsz newsz sz' : Nat} (hd : Made own m0 m d sz)
      (hold : sizePages oldsz = sizePages sz) (hle : oldsz ≤ 0x80000000)
      (h : allocuvm m d oldsz newsz = .ok (sz', d', m')) (hok : sz' ≠ 0) : Made own m0 m' d' sz'
  | adjust {m m' : Machine} {d d' : PgDir} {sz : Nat} (hd : Made own m0 m d sz)
      (hmap : SameMap d d') (himage : m'.image = m.image) (hcounts : m'.counts = m.counts)
      (hkmem : m'.kmem = m.kmem) (hcr3 : m'.cr3 = m.cr3 ∨ m'.cr3 = own ∨ m'.cr3 = d.frame) :
      Made own m0 m' d' sz

/-- A call of `copyout` that returns: it has copied all bytes if it returns 0, and has written
to user pages of the range only. -/
def CopyoutSafe (m : Machine) (d : PgDir) (va : Nat) (bytes : List UInt8) : Prop :=
  ∃ b m', copyout m d va bytes = .ok (b, m') ∧
    (b = true → ∀ i (hi : i < bytes.length),
      m'.byteAt d ((va + i) % 0x100000000) = bytes.get ⟨i, hi⟩) ∧
    ∀ x o, m'.mem x o ≠ m.mem x o → ∃ i < bytes.length,
      d.user ((va + i) % 0x100000000) = true ∧ d.place ((va + i) % 0x100000000) = (x, o)

section
variable {own : Frame} {m0 m : Machine} {d : PgDir} {va sz : Nat} {bytes : List UInt8}

theorem Made.built (h : Made own m0 m d sz) :
    ∃ xs, Built own m0 m d xs [] ∧ xs.length = sizePages sz := by
  induction h with
  | setup h => exact ⟨[], built_setupkvm h, rfl⟩
  | grow hd hold hle h hok ih =>
    obtain ⟨xs, hb, hxs⟩ := ih
    obtain ⟨xs', lost, hb', hgrown⟩ := hb.allocuvm (hxs.trans hold.symm) hle h
    obtain ⟨rfl, hxs', -, -⟩ := hgrown hok
    exact ⟨xs', hb', hxs'⟩
  | adjust hd hmap himage hcounts hkmem hcr3 ih =>
    obtain ⟨xs, hb, hxs⟩ := ih
    exact ⟨xs, hb.congr hmap himage hcounts hkmem hcr3, hxs⟩

theorem Built.user {xs : List Frame} (h : Built own m0 m d xs []) (hva : va < 0x100000000)
    (hu : d.user va = true) :
    ∃ hlt : va / 4096 < xs.length, (d.place va).1 = xs.get ⟨va / 4096, hlt⟩ := by
  obtain ⟨hp, hu⟩ := Bool.and_eq_true_iff.mp hu
  have hlow : va / 4096 < 0x80000 := by
    by_contra hge
    rw [h.kernel _ (by omega) (by omega), kernelPte_user] at hu
    cases hu
  have hlt := (h.present _ hlow).mp hp
  exact ⟨hlt, h.ppn _ hlt⟩

theorem Built.nodup {xs lost : List Frame} (h : Built own m0 m d xs lost)
    (hfree : m0.kmem.freelist.Nodup) : xs.Nodup := by
  have hall : m0.kmem.free.Nodup := hfree
  rw [h.free] at hall
  exact coe_nodup.mp
    (nodup_of_le ((le_add_left _ _).trans (le_add_right _ _)) hall)

theorem Built.apart {xs : List Frame} (h : Built own m0 m d xs []) (hxs : xs.Nodup) {n : Nat}
    (hn : n ≤ 0x100000000) (hu : ∀ i < n, d.user ((va + i) % 0x100000000) = true) : d.Apart va n := by
  intro i hi j hj he
  obtain ⟨hfirst, hoff⟩ := Prod.ext_iff.mp he
  obtain ⟨hlt1, h1⟩ := h.user (Nat.mod_lt _ (by decide)) (hu i hi)
  obtain ⟨hlt2, h2⟩ := h.user (Nat.mod_lt _ (by decide)) (hu j hj)
  rw [h1, h2] at hfirst
  have hpage := Fin.val_eq_of_eq (List.nodup_iff_injective_get.mp hxs hfirst)
  dsimp only at hpage
  have hsame : (va + i) % 0x100000000 % 4096 = (va + j) % 0x100000000 % 4096 := hoff
  omega

/-- `copyout` is safe exactly when the first address of the range outside the user pages, if
there is one, has a page table. -/
theorem copyout_safe_iff (hd : Made own m0 m d sz) (hfree : m0.kmem.freelist.Nodup)
    (hva : va < 0x100000000) (hlen : bytes.length ≤ 0x100000000) :
    CopyoutSafe m d va bytes ↔ ∀ n < bytes.length,
      (∀ i < n, d.user ((va + i) % 0x100000000) = true) →
      d.user ((va + n) % 0x100000000) = false → (d.walk ((va + n) % 0x100000000)).isSome := by
  obtain ⟨xs, hb, -⟩ := hd.built
  obtain ⟨j, huser, hr⟩ := copyout_run m d bytes hva
  constructor
  · rintro ⟨b, m', hcall, -⟩ n hn hbefore hbad
    rcases hr with ⟨hj, -⟩ | ⟨hj, hbad', hr⟩
    · have := huser n (by omega)
      rw [hbad] at this
      cases this
    -- both `n` and `j` are the first address outside the user pages
    have hnj : n = j := by
      rcases Nat.lt_trichotomy n j with hlt | he | hlt
      · have := huser n hlt
        rw [hbad] at this
        cases this
      · exact he
      · have := hbefore j hlt
        rw [hbad'] at this
        cases this
    subst hnj
    by_contra hnone
    rw [hcall, if_neg hnone] at hr
    cases hr
  · intro hwalk
    have hwrites : ∀ n, n ≤ bytes.length → (∀ i < n, d.user ((va + i) % 0x100000000) = true) →
        ∀ x o, (m.store d va (bytes.take n)).mem x o ≠ m.mem x o → ∃ i < bytes.length,
          d.user ((va + i) % 0x100000000) = true ∧ d.place ((va + i) % 0x100000000) = (x, o) := by
      intro n hn hu x o hne
      by_contra hnone
      refine hne (Machine.store_frame (fun i hi he => hnone ?_) hva)
      rw [List.length_take] at hi
      exact ⟨i, by omega, hu i (by omega), he⟩
    rcases hr with ⟨hj, hr⟩ | ⟨hj, hbad, hr⟩
    · refine ⟨true, _, hr, fun _ i hi => ?_, ?_⟩
      · exact Machine.store_byteAt hva
          (hb.apart (hb.nodup hfree) hlen (by rw [← hj]; exact huser)) hi
      · have := hwrites bytes.length le_rfl (by rw [← hj]; exact huser)
        rwa [List.take_length] at this
    · rw [if_pos (hwalk j hj huser hbad)] at hr
      exact ⟨false, _, hr, nofun, hwrites j (by omega) huser⟩

end

/-! Page tables exist only where a page has been mapped. -/

section
variable {a a' : Kmem} {d d' : PgDir} {perm : Flags} {b : Bool} {va w : Nat} {pa : Frame}

theorem walk_setPte_of_ne (d : PgDir) (e : Pte) (hne : pdx w ≠ pdx va) :
    (d.setPte va e).walk w = d.walk w := by
  unfold PgDir.walk PgDir.setPte
  split
  · rfl
  · dsimp only
    rw [Function.update_of_ne hne]

theorem walk_walkpgdir_of_ne {r : Option Pte} (hne : pdx w ≠ pdx va)
    (h : walkpgdir a d va = (r, d', a')) : d'.walk w = d.walk w := by
  unfold walkpgdir at h
  split at h
  · cases h
    rfl
  split at h
  · cases h
    rfl
  · cases h
    unfold PgDir.walk
    dsimp only
    rw [Function.update_of_ne hne]

theorem walk_mapPage (hne : pdx w ≠ pdx va)
    (h : mapLoop perm 0 a d va pa = .ok (b, d', a')) : d'.walk w = d.walk w := by
  rw [mapLoop_eq] at h
  generalize hr : walkpgdir a d va = r at h
  obtain ⟨_ | pte, d1, a1⟩ := r
  · cases h
    exact walk_walkpgdir_of_ne hne hr
  dsimp only at h
  split at h
  · cases h
  · cases h
    rw [walk_setPte_of_ne _ _ hne]
    exact walk_walkpgdir_of_ne hne hr

theorem walk_mapLoop {n : Nat} (hal : va % 4096 = 0) (hfit : va / 4096 + n < 0x100000)
    (hne : ∀ v, va / 4096 ≤ v → v ≤ va / 4096 + n → v / 1024 ≠ pdx w)
    (h : mapLoop perm n a d va pa = .ok (b, d', a')) : d'.walk w = d.walk w := by
  have hfirst : pdx w ≠ pdx va := by
    rw [pdx_eq (show va < 0x100000000 by omega)]
    exact (hne (va / 4096) le_rfl (by omega)).symm
  induction n generalizing a d va pa with
  | zero => exact walk_mapPage hfirst h
  | succ n ih =>
    rw [mapLoop_succ] at h
    obtain ⟨⟨b1, d1, a1⟩, h1, h⟩ := bind_eq_ok.mp h
    dsimp only at h
    split at h
    · rw [show (va + 4096) % 0x100000000 = va + 4096 by omega] at h
      rw [← walk_mapPage hfirst h1]
      refine ih (by omega) (by omega) (fun v h1 h2 => hne v (by omega) (by omega)) h ?_
      rw [pdx_eq (show va + 4096 < 0x100000000 by omega)]
      exact (hne _ (by omega) (by omega)).symm
    · cases h
      exact walk_mapPage hfirst h1

end

section
variable {m m' : Machine} {d d' : PgDir} {w : Nat}

theorem walk_mapKernel {ks : List Kmap} (hks : ∀ k ∈ ks, k.Fits)
    (hne : ∀ k ∈ ks, ∀ v, k.Covers v → v / 1024 ≠ pdx w)
    (h : mapKernel ks m d = .ok (some d', m')) : d'.walk w = d.walk w := by
  induction ks generalizing m d with
  | nil =>
    cases h
    rfl
  | cons k ks ih =>
    obtain ⟨⟨ok, d1, a1⟩, hm, h⟩ := bind_eq_ok.mp h
    obtain ⟨hal, hlo, hsz, hpos, hfit, -⟩ := hks k (by simp)
    dsimp only at h
    split at h
    · have hm' : mappages m.kmem d k.virt k.size (k.physStart / 4096) k.perm = .ok (ok, d1, a1) := hm
      rw [mappages_eq _ _ _ _ hal hpos hfit] at hm'
      rw [ih (fun k' hk' => hks k' (List.mem_cons_of_mem k hk'))
        (fun k' hk' => hne k' (List.mem_cons_of_mem k hk')) h]
      refine walk_mapLoop hal (by omega) (fun v h1 h2 => hne k (by simp) v ?_) hm'
      exact ⟨by omega, by omega⟩
    · obtain ⟨m2, -, h⟩ := bind_eq_ok.mp h
      cases h

theorem walk_setupkvm (hw : pdx w ∉ kernelTables) (h : setupkvm m = .ok (some d, m')) :
    d.walk w = none := by
  unfold setupkvm at h
  split at h
  · cases h
  · rw [walk_mapKernel (fun k hk => kmap_fits m.image hk)
      (fun k hk v hv he => hw (he ▸ kmap_tables m.image hk hv)) h]
    rfl

theorem walk_allocLoop {oldsz newsz n a sz : Nat} (hw : 512 ≤ pdx w) (hal : a % 4096 = 0)
    (hfit : a / 4096 + n ≤ 0x80000) (hsz : sz ≠ 0)
    (h : allocLoop oldsz newsz n m d a = .ok (sz, d', m')) : d'.walk w = d.walk w := by
  induction n generalizing m d a with
  | zero =>
    cases h
    rfl
  | succ n ih =>
    rw [allocLoop] at h
    split at h
    · obtain ⟨r, -, h⟩ := bind_eq_ok.mp h
      cases h
      exact (hsz rfl).elim
    obtain ⟨⟨ok, d1, k1⟩, hm, h⟩ := bind_eq_ok.mp h
    rw [mappages_page _ _ _ _ (by omega) hal] at hm
    dsimp only at h
    split at h
    · rw [ih (a := a + 4096) (by omega) (by omega) h]
      exact walk_mapLoop hal (by omega) (fun v h1 h2 => by omega) hm
    · obtain ⟨r, -, h⟩ := bind_eq_ok.mp h
      obtain ⟨r', -, h⟩ := bind_eq_ok.mp h
      cases h
      exact (hsz rfl).elim

theorem walk_allocuvm {oldsz newsz sz : Nat} (hw : 512 ≤ pdx w) (hsz : sz ≠ 0)
    (h : allocuvm m d oldsz newsz = .ok (sz, d', m')) : d'.walk w = d.walk w := by
  unfold allocuvm at h
  split at h
  · cases h
    rfl
  split at h
  · cases h
    rfl
  · refine walk_allocLoop hw (pgroundup_aligned oldsz) ?_ hsz h
    unfold pgroundup pagesTo
    omega

end

/-- A machine with 50000 free frames. -/
def Machine.roomy : Machine := { Kernel.fresh.mach with kmem := ⟨List.range' 2000 50000, false⟩ }

theorem Machine.card_roomy : Machine.roomy.kmem.free.card = 50000 :=
  (coe_card _).trans List.length_range'

theorem Machine.roomy_made (newsz : Nat) (hpos : 0 < newsz) (hnew : newsz ≤ 0x10000) :
    ∃ d0 m0 d m, setupkvm Machine.roomy = .ok (some d0, m0) ∧
      allocuvm m0 d0 0 newsz = .ok (newsz, d, m) ∧ Made 0 Machine.roomy m d newsz := by
  obtain ⟨d0, m0, hs⟩ := setupkvm_total (m := Machine.roomy) (by rw [Machine.card_roomy]; decide)
  have hmade : Made 0 Machine.roomy m0 d0 0 := .setup hs
  have hpages : sizePages newsz ≤ 16 := by
    unfold sizePages pagesTo
    omega
  have hbuilt : Built 0 Machine.roomy m0 d0 [] [] := built_setupkvm hs
  obtain ⟨d, m, ha⟩ := hbuilt.allocuvm_total newsz sizePages_zero.symm (by omega)
    (by rw [Nat.zero_max, Machine.card_roomy]; omega)
  rw [Nat.zero_max] at ha
  exact ⟨d0, m0, d, m, hs, ha, hmade.grow rfl (by decide) ha (by omega)⟩

theorem copyout_safe_first_page :
    ∃ m d, Made 0 Machine.roomy m d 4096 ∧ CopyoutSafe m d 0 [7] := by
  obtain ⟨d0, m0, d, m, hs, ha, hmade⟩ := Machine.roomy_made 4096 (by decide) (by decide)
  have huser : d.user 0 = true := by
    rcases allocuvm_spec (by decide) ha with
      ⟨-, -, ⟨-, hz⟩ | ⟨hlt, -⟩⟩ | ⟨-, -, -, ys, hys, hg⟩ | ⟨-, -, hz, -⟩
    · cases hz
    · cases hlt
    · have hfirst : d.entry 0 = _ := hg.mapped 0 (by rw [hys]; decide)
      rw [PgDir.user, hfirst]
      rfl
    · cases hz
  refine ⟨m, d, hmade, (copyout_safe_iff hmade List.nodup_range' (by decide) (by decide)).mpr ?_⟩
  intro n hn _ hbad
  obtain rfl : n = 0 := Nat.lt_one_iff.mp hn
  rw [huser] at hbad
  cases hbad

theorem copyout_null {m : Machine} {d : PgDir} {va : Nat} {bytes : List UInt8}
    (hne : bytes ≠ []) (hw : d.walk va = none) : copyout m d va bytes = .error .undefined := by
  unfold copyout
  rw [copyLoopOut, if_neg (by simpa using hne)]
  dsimp only
  rw [uva2ka, walk_pgrounddown, hw]
  rfl

/-- An argument of 32 MB and 16 KB: the stack pointer of `exec` wraps to an address between the
kernel's memory and its devices, which has no page table. -/
theorem copyout_null_entry : ∃ m d, Made 0 Machine.roomy m d 0x2000 ∧
    ∀ s : List UInt8, s.length = 0x2004000 → pushArgs [s] m d 0x2000 [] = .error .undefined ∧
      ¬ CopyoutSafe m d 0xFDFFDFFC (s ++ [0]) := by
  obtain ⟨d0, m0, d, m, hs, ha, hmade⟩ := Machine.roomy_made 0x2000 (by decide) (by decide)
  have hw : d.walk 0xFDFFDFFC = none := by
    rw [walk_allocuvm (by decide) (by decide) ha]
    refine walk_setupkvm ?_ hs
    simp [kernelTables, pdx]
  refine ⟨m, d, hmade, fun s hlen => ?_⟩
  have hcall : copyout m d 0xFDFFDFFC (s ++ [0]) = .error .undefined := copyout_null (by simp) hw
  constructor
  · rw [pushArgs, if_neg (by decide), hlen]
    exact bind_eq_error.mpr (Or.inl hcall)
  · rintro ⟨b, m', hok, -⟩
    rw [hcall] at hok
    cases hok

end Xv6
