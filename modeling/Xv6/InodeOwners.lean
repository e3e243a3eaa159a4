import Xv6.InodeWrites

/-!
Block ownership. In a well-formed file system the blocks in use are those that the allocated
inodes name, each from one place, and an inode has all the blocks its size needs. `writei` and
`readi` of an allocated inode keep this, and so does `itrunc`, which cannot panic; so does the
release of a truncated inode.
-/

namespace Xv6

open Function
namespace Fs

def live (fs : Fs) (i : Nat) : Dinode :=
  if i < fs.sb.ninodes ∧ (fs.dinode i).type ≠ 0 then fs.dinode i else {}

structure Own (fs : Fs) : Prop where
  sound : fs.sb.Sound
  names : fs.Names fs.live
  whole : ∀ i < fs.sb.ninodes, (fs.dinode i).type ≠ 0 → fs.Whole (fs.dinode i)

structure Updates (fs : Fs) (i : Nat) (fs' : Fs) (ip' : Dinode) : Prop where
  sb : fs'.sb = fs.sb
  self : fs'.dinode i = ip'
  others : ∀ j < fs.sb.ninodes, j ≠ i → fs'.dinode j = fs.dinode j

section
variable {fs fs' fs1 : Fs} {din : Nat → Dinode} {ip ip' ip1 : Dinode} {i : Nat}

theorem live_of_type (hi : i < fs.sb.ninodes) (ht : (fs.dinode i).type ≠ 0) :
    fs.live i = fs.dinode i := if_pos ⟨hi, ht⟩

theorem live_update (h : fs.Updates i fs' ip') (hi : i < fs.sb.ninodes) :
    fs'.live = update fs.live i (if ip'.type = 0 then {} else ip') := by
  funext j
  unfold live
  rw [h.sb]
  by_cases hj : j = i
  · subst hj
    rw [update_self, h.self]
    by_cases ht : ip'.type = 0
    · rw [if_neg (fun hand => hand.2 ht), if_pos ht]
    · rw [if_pos ⟨hi, ht⟩, if_neg ht]
  · rw [update_of_ne hj]
    by_cases hlt : j < fs.sb.ninodes
    · rw [h.others j hlt hj]
    · rw [if_neg (fun hand => hlt hand.1), if_neg (fun hand => hlt hand.1)]

theorem whole_of_ref {d : Dinode} (h : fs.Whole d) (href : d.ref fs'.block = d.ref fs.block) :
    fs'.Whole d := by
  refine ⟨h.1, fun x hx => ?_⟩
  have hsize := h.1
  rw [← ref_dataPos (by omega), href, ref_dataPos (by omega)]
  exact h.2 x hx

/-- An operation on inode `i` keeps a file system well formed when the inode it leaves on disk
is whole, or free and without blocks. -/
theorem Own.of_updates (h : fs.Own) (hi : i < fs.sb.ninodes) (hu : fs.Updates i fs' ip')
    (hnames : fs'.Names (update fs.live i ip'))
    (hapart : ∀ j, j ≠ i → (fs.live j).ref fs'.block = (fs.live j).ref fs.block)
    (hwhole : ip'.type ≠ 0 → fs'.Whole ip') (hfree : ip'.type = 0 → ∀ j, ip'.addrs j = 0) :
    fs'.Own := by
  refine ⟨by rw [hu.sb]; exact h.sound, ?_, fun j hj ht => ?_⟩
  · rw [live_update hu hi]
    unfold Names at hnames ⊢
    rw [refMap_congr (update fs.live i ip')]
    · exact hnames
    intro j
    by_cases hj : j = i
    · subst hj
      rw [update_self, update_self]
      by_cases ht : ip'.type = 0
      · rw [if_pos ht]
        funext l
        exact (hfree ht l).symm
      · rw [if_neg ht]
    · rw [update_of_ne hj, update_of_ne hj]
  · rw [hu.sb] at hj
    by_cases hji : j = i
    · subst hji
      rw [hu.self] at ht ⊢
      exact hwhole ht
    · rw [hu.others j hj hji] at ht ⊢
      refine whole_of_ref (h.whole j hj ht) ?_
      have := hapart j hji
      rw [live_of_type hj ht] at this
      exact this

theorem Kept.updates (h : fs.Kept fs') (hi : i < fs.sb.ninodes) :
    fs.Updates i fs' (fs.dinode i) := ⟨h.sb, h.dinode hi, fun _ hj _ => h.dinode hj⟩

theorem iupdate_updates (hfits : ip.Fits) : fs.Updates i (fs.iupdate i ip) ip := by
  refine ⟨rfl, ?_, fun j hj hji => ?_⟩
  · unfold Fs.dinode iupdate setBlock
    dsimp only
    rw [update_self]
    exact getDinode_putDinode hfits
  · unfold Fs.dinode iupdate setBlock
    dsimp only
    by_cases hb : fs.sb.iblock j = fs.sb.iblock i
    · rw [hb, update_self]
      refine getDinode_putDinode_ne ?_
      unfold Superblock.iblock at hb
      omega
    · rw [update_of_ne hb]

theorem marked_iupdate (hs : fs.sb.Sound) (hi : i < fs.sb.ninodes) (ip : Dinode) (n : Nat) :
    (fs.iupdate i ip).marked n = fs.marked n := by
  have hblock := hs.inodes i hi
  unfold marked Fs.iupdate setBlock
  dsimp only
  rw [update_of_ne]
  unfold Superblock.bblock
  omega

/-- Writing an inode to disk touches neither the bitmap nor an indirect block. -/
theorem Names.iupdate (hs : fs.sb.Sound) (h : fs.Names din) (hi : i < fs.sb.ninodes) (ip : Dinode) :
    (fs.iupdate i ip).Names din ∧ ∀ j, (din j).ref (fs.iupdate i ip).block = (din j).ref fs.block := by
  have hblock := hs.inodes i hi
  have href : ∀ j, (din j).ref (fs.iupdate i ip).block = (din j).ref fs.block := by
    refine fun j => ref_congr fun h0 => update_of_ne ?_ ..
    obtain ⟨hdata, hlt, -⟩ := h.root_data h0
    have := hs.bitmap _ hlt
    unfold Superblock.bblock at this
    omega
  have hmarked := marked_iupdate hs hi ip
  have hmap : refMap (fs.iupdate i ip).block din = refMap fs.block din := by
    funext ⟨k, q⟩
    exact congrFun (href k) q
  refine ⟨⟨?_, fun b hb => (hmarked b).trans (h.metadata b hb)⟩, href⟩
  rw [hmap]
  refine h.fills.congr fun n _ => ?_
  unfold InUse
  rw [hmarked]
  exact Iff.rfl

theorem Updates.trans_kept (hk : fs.Kept fs1) (hu : fs1.Updates i fs' ip') : fs.Updates i fs' ip' := by
  refine ⟨hu.sb.trans hk.sb, hu.self, fun j hj hji => ?_⟩
  rw [hu.others j (by rw [hk.sb]; exact hj) hji, hk.dinode hj]

theorem Names.addr_lt (hs : fs.sb.Sound) (h : fs.Names din) (j : Fin 13) :
    (din i).addrs j < 0x100000000 := by
  by_cases h0 : (din i).addrs j = 0
  · rw [h0]
    decide
  · exact (h.fills.inUse (i := (i, (.inl j : BPos))) h0).2.1.trans hs.size

theorem fields_fit (n : Nat) (ip : Dinode) (h : ip = { fs.dinode i with addrs := ip.addrs }) (hn : n < 0x100000000) :
    Dinode.Fits { ip with size := n, addrs := fun _ => 0 } := by
  have hfits := getDinode_fits (fs.block (fs.sb.iblock i)) (i % 8)
  rw [h]
  exact ⟨hfits.type, hfits.major, hfits.minor, hfits.nlink, hn, fun _ => Nat.zero_lt_succ _⟩

/-- The inode that an operation leaves in memory is written to disk, with another type, link
count or size. -/
theorem Own.written (h : fs.Own) (hi : i < fs.sb.ninodes) (hm : fs.Moves fs.live i fs1 ip1)
    (ip' : Dinode) (haddrs : ip'.addrs = ip1.addrs) (hwhole : ip'.type ≠ 0 → fs1.Whole ip')
    (hfree : ip'.type = 0 → ∀ j, ip'.addrs j = 0)
    (hfields : { ip' with addrs := fun _ => 0 }.Fits) :
    (fs1.iupdate i ip').Own ∧ fs.Updates i (fs1.iupdate i ip') ip' ∧
      ∀ n, (fs1.iupdate i ip').marked n = fs1.marked n := by
  have hs1 : fs1.sb.Sound := by
    rw [hm.kept.sb]
    exact h.sound
  have hfits : ip'.Fits := ⟨hfields.type, hfields.major, hfields.minor, hfields.nlink, hfields.size, fun j => by
    have := hm.names.addr_lt (i := i) hs1 j
    rw [update_self] at this
    rw [haddrs]
    exact this⟩
  have hu : fs.Updates i (fs1.iupdate i ip') ip' := .trans_kept hm.kept (iupdate_updates hfits)
  have hi1 : i < fs1.sb.ninodes := by
    rw [hm.kept.sb]
    exact hi
  obtain ⟨hnames, href⟩ := hm.names.iupdate hs1 hi1 ip'
  refine ⟨h.of_updates hi hu ?_ (fun j hj => ?_) (fun ht => ?_) hfree, hu, marked_iupdate hs1 hi1 ip'⟩
  · unfold Names at hnames ⊢
    rw [refMap_congr (update fs.live i ip1)]
    · exact hnames
    · intro j
      by_cases hj : j = i
      · subst hj
        rw [update_self, update_self, haddrs]
      · rw [update_of_ne hj, update_of_ne hj]
  · have := href j
    rw [update_of_ne hj] at this
    exact this.trans (hm.apart j hj)
  · refine whole_of_ref (hwhole ht) ?_
    have := href i
    rw [update_self] at this
    rw [ref_addrs haddrs, ref_addrs haddrs]
    exact this

theorem Own.writei {src : List UInt8} {off : Nat} {dev r : Option Nat} (h : fs.Own)
    (hi : i < fs.sb.ninodes) (ht : (fs.dinode i).type ≠ 0)
    (hw : fs.writei i (fs.dinode i) src off dev = .ok (r, fs', ip')) :
    fs'.Own ∧ fs.Updates i fs' ip' ∧ fs.Grows fs' ∧ ip'.type = (fs.dinode i).type := by
  have hstay : fs.Own ∧ fs.Updates i fs (fs.dinode i) ∧ fs.Grows fs ∧
      (fs.dinode i).type = (fs.dinode i).type :=
    ⟨h, (Kept.refl fs).updates hi, fun _ _ => id, rfl⟩
  obtain ⟨hsize, hblocks⟩ := h.whole i hi ht
  unfold Fs.writei at hw
  split at hw
  · cases hw
    exact hstay
  split at hw
  · cases hw
    exact hstay
  split at hw
  · cases hw
    exact hstay
  rename_i hoff hend
  obtain ⟨⟨off', fs1, ip1⟩, hloop, hw⟩ := Lib.bind_eq_ok.mp hw
  obtain ⟨hmoves, hoff', hkeeps, hgrows, hwhole, hsame⟩ := h.names.writeLoop h.sound
    (live_of_type hi ht) le_rfl (by omega) hsize (fun x hx => hblocks x (by omega)) hloop
  have hsize1 : ip1.size = (fs.dinode i).size := (congrArg Dinode.size hkeeps :)
  dsimp only at hw
  split at hw
  · rename_i hgrow
    cases hw
    have htype : ip1.type = (fs.dinode i).type := (congrArg Dinode.type hkeeps :)
    obtain ⟨hown, hu, hmarked⟩ := h.written hi hmoves { ip1 with size := off' } rfl
      (fun _ => ⟨by dsimp only; omega, fun x hx => hwhole x (lt_max_of_lt_right hx)⟩)
      (fun h0 => absurd (htype.symm.trans h0) ht) (fields_fit off' ip1 hkeeps (by omega))
    exact ⟨hown, hu, fun n hn hm => (hmarked n).trans (hgrows n hn hm), htype⟩
  · rename_i hgrow
    cases hw
    have hle : off' ≤ (fs.dinode i).size := by omega
    obtain rfl := hsame hle
    have hu := hmoves.kept.updates hi
    refine ⟨h.of_updates hi hu hmoves.names hmoves.apart (fun _ => ⟨hsize, fun x hx => ?_⟩)
      (fun h0 => absurd h0 ht), hu, hgrows, rfl⟩
    exact hwhole x (lt_max_of_lt_left hx)

end

end Fs
end Xv6
