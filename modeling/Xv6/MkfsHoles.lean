import Xv6.MkfsImage
import Xv6.InodeReads

/-!
Whether a fresh image has holes. `main` rounds the size of the root directory up by a formula
of its own: when the entries end at the end of a block, the size takes in one block more than
`iappend` has written. Every other inode has all its blocks.
-/

namespace Xv6
namespace Mkfs

/-- Every inode has the blocks its size needs, in the bitmap, and no read of it changes
anything. -/
structure NoHoles (img : Blocks) : Prop where
  blocks : ∀ inum < 200, ∀ k < (((Fs.mount img).dinode inum).size + 511) / 512,
    ((Fs.mount img).dinode inum).blockAt img k ≠ 0 ∧
      ((Fs.mount img).dinode inum).blockAt img k < 1000 ∧
      (Fs.mount img).marked (((Fs.mount img).dinode inum).blockAt img k)
  reads : ∀ inum < 200, ∀ d, (Fs.mount img).load inum = .ok d → ∀ off n dev,
    ∃ r, (Fs.mount img).readi d off n dev = .ok (r, Fs.mount img, d)

section
variable {img : Blocks} {files : List Input} {fb : Nat} {din : Nat → Dinode} {c : Nat → List UInt8}
  {inum k : Nat}

section
variable (h : Built img files fb din c)
include h

theorem Built.mount : Fs.mount img = ⟨sb, img⟩ :=
  congrArg (Fs.mk · img) h.super

theorem Built.dinode (hi : inum < 208) : (Fs.mount img).dinode inum = din inum := by
  rw [h.mount]
  exact h.disk inum hi

theorem Built.length_root : (c 1).length = 16 * (files.length + 2) := by
  rw [h.root, List.length_append, length_dots, length_entries]
  omega

theorem Built.marks {b : Nat} (hb : b < 4096) : (Fs.mount img).marked b = decide (b < fb) := by
  rw [h.mount]
  change Lib.bitAt (img (b / 4096 + 58)) _ = _
  rw [Nat.div_eq_of_lt hb, Nat.mod_eq_of_lt hb, Nat.zero_add, h.bitmap _ hb]

theorem Built.marked {b : Nat} (hb : b < fb) : (Fs.mount img).marked b := by
  have hbound := h.bound
  rw [h.marks (by omega)]
  exact decide_eq_true hb

theorem Built.named (hk : k < 140) (h0 : (din inum).blockAt img k ≠ 0) :
    (din inum).blockAt img k < 1000 ∧ (Fs.mount img).marked ((din inum).blockAt img k) := by
  have hused := h.laid.fills.inUse (i := (inum, dataPos k)) (by rw [refMap, ref_dataPos hk]; exact h0)
  rw [refMap, ref_dataPos hk] at hused
  exact ⟨lt_of_lt_of_le hused.2 h.bound, h.marked hused.2⟩

/-- The blocks of an inode reach as far as its size, the root directory apart when its entries
fill their last block. -/
theorem Built.whole (inum : Nat) (hk : k < ((din inum).size + 511) / 512)
    (hroot : inum = 1 → (files.length + 2) % 32 ≠ 0) :
    k < 140 ∧ (din inum).blockAt img k ≠ 0 := by
  have hstores := h.laid.stores inum
  have hshort := hstores.short
  have hlt : 512 * k < (c inum).length ∧ k < 140 := by
    by_cases hi : inum = 1
    · subst hi
      have hlen := h.length_root
      rw [h.rootSize] at hk
      have := hroot rfl
      omega
    · rw [h.size inum hi] at hk
      omega
  exact ⟨hlt.2, (hstores.block k hlt.2).mpr hlt.1⟩

theorem Built.noHoles (hroot : (files.length + 2) % 32 ≠ 0) : NoHoles img := by
  refine ⟨fun inum hi k hk => ?_, fun inum hi d hd off n dev => ?_⟩
  · rw [h.dinode (by omega)] at hk ⊢
    obtain ⟨hlt, h0⟩ := h.whole inum hk fun _ => hroot
    exact ⟨h0, h.named hlt h0⟩
  unfold Fs.load at hd
  split at hd
  · cases hd
  obtain rfl : (Fs.mount img).dinode inum = d := Except.ok.inj hd
  rw [h.dinode (by omega)]
  refine Fs.readi_stays ⟨?_, fun x hx => ?_⟩ off n dev
  · by_contra hlarge
    exact absurd (h.whole inum (k := 140) (by omega) fun _ => hroot).1 (by omega)
  · exact (h.whole inum (k := x / 512) (by omega) fun _ => hroot).2

theorem Built.hole (hroot : (files.length + 2) % 32 = 0) (hn : files.length + 2 ≤ 200) :
    (files.length + 2) / 32 < ((din 1).size + 511) / 512 ∧
      (din 1).blockAt img ((files.length + 2) / 32) = 0 := by
  have hlen := h.length_root
  have hblock := (h.laid.stores 1).block ((files.length + 2) / 32) (by omega)
  refine ⟨?_, ?_⟩
  · rw [h.rootSize]
    omega
  · by_contra h0
    have := hblock.mp h0
    omega

end

end

theorem no_holes_iff {files : List Input} (h : Fits files) :
    ∃ img, mkfs files = some img ∧ (NoHoles img ↔ (files.length + 2) % 32 ≠ 0) := by
  obtain ⟨img, fb, din, c, himg, hbuilt⟩ := mkfs_built h
  refine ⟨img, himg, fun hholes hroot => ?_, hbuilt.noHoles⟩
  obtain ⟨hk, h0⟩ := hbuilt.hole hroot h.inodes
  have := (hholes.blocks 1 (by decide) _ (by rw [hbuilt.dinode (by decide)]; exact hk)).1
  rw [hbuilt.dinode (by decide)] at this
  exact this h0

def emptyFiles (n : Nat) : List Input := List.replicate n ⟨[], []⟩

theorem emptyFiles_fits {n : Nat} (hn : n + 2 ≤ 200) : Fits (emptyFiles n) := by
  have hempty : ∀ f ∈ emptyFiles n, f = ⟨[], []⟩ := fun f hf => List.eq_of_mem_replicate hf
  have hsum : fileBlocks (emptyFiles n) = 0 := by
    rw [fileBlocks, emptyFiles, List.map_replicate, List.sum_replicate]
    exact Nat.mul_zero n
  refine ⟨fun f hf => ?_, ?_, fun f hf => ?_, ?_⟩
  · rw [hempty f hf]
    exact List.not_mem_nil
  · rw [emptyFiles, List.length_replicate]
    exact hn
  · rw [hempty f hf]
    exact Nat.zero_le _
  · rw [hsum, emptyFiles, List.length_replicate, blocksFor, if_neg (by omega)]
    omega

theorem no_holes_one_file : Fits (emptyFiles 1) ∧ ∃ img, mkfs (emptyFiles 1) = some img ∧ NoHoles img := by
  obtain ⟨img, himg, h⟩ := no_holes_iff (emptyFiles_fits (n := 1) (by decide))
  exact ⟨emptyFiles_fits (by decide), img, himg, h.mpr (by decide)⟩

/-- With 30 files the entries of the root directory fill its first block; the size is two
blocks, and the second has no address. -/
theorem root_hole_thirty_files : ∃ img, mkfs (emptyFiles 30) = some img ∧
    ((Fs.mount img).dinode 1).size = 1024 ∧ ((Fs.mount img).dinode 1).blockAt img 1 = 0 ∧
    ¬ NoHoles img := by
  have hlen : (emptyFiles 30).length = 30 := List.length_replicate ..
  obtain ⟨img, fb, din, c, himg, hbuilt⟩ := mkfs_built (emptyFiles_fits (n := 30) (by decide))
  obtain ⟨hk, h0⟩ := hbuilt.hole (by rw [hlen]) (by rw [hlen]; decide)
  have hsize : ((Fs.mount img).dinode 1).size = 1024 := by
    rw [hbuilt.dinode (by decide), hbuilt.rootSize, hbuilt.length_root, hlen]
  have hhole : ((Fs.mount img).dinode 1).blockAt img 1 = 0 := by
    rw [hlen] at h0
    rw [hbuilt.dinode (by decide)]
    exact h0
  exact ⟨img, himg, hsize, hhole, fun h => (h.blocks 1 (by decide) 1 (by rw [hsize]; decide)).1 hhole⟩

end Mkfs
end Xv6
