import Xv6.InodeReads

/-!
The bitmap and the places that name blocks. The blocks before the data are marked, and the
marked blocks behind them are those that the places name, each from one place. `balloc` returns
a block that no place names, `bfree` of a named block never finds its bit clear, and both touch
nothing but the bitmap and the block that is allocated.
-/

namespace Xv6

open Function Lib

def Superblock.nmeta (sb : Superblock) : Nat := sb.size - sb.nblocks

/-- The inodes come before the bitmap, and the bitmap before the data. -/
structure Superblock.Sound (sb : Superblock) : Prop where
  size : sb.size < 0x100000000
  inodes : ∀ i < sb.ninodes, sb.iblock i < sb.bmapstart
  bitmap : ∀ b < sb.size, sb.bblock b < sb.nmeta

namespace Fs

def InUse (fs : Fs) (n : Nat) : Prop := fs.sb.nmeta ≤ n ∧ n < fs.sb.size ∧ fs.marked n = true

structure Marks (fs : Fs) (r : Nat × BPos → Nat) : Prop where
  fills : Lib.Fills r fs.InUse
  metadata : ∀ b < fs.sb.nmeta, fs.marked b = true

structure Kept (fs fs' : Fs) : Prop where
  sb : fs'.sb = fs.sb
  inodes : ∀ i < fs.sb.ninodes, fs'.block (fs.sb.iblock i) = fs.block (fs.sb.iblock i)

structure Took (fs : Fs) (b : Nat) (fs' : Fs) : Prop where
  kept : fs.Kept fs'
  data : fs.sb.nmeta ≤ b
  range : b < fs.sb.size
  free : fs.marked b = false
  zero : fs'.block b = fun _ => 0
  others : ∀ c, fs.sb.nmeta ≤ c → c ≠ b → fs'.block c = fs.block c
  marks : ∀ n < fs.sb.size, fs'.marked n = (fs.marked n || decide (n = b))

section
variable {fs fs' fs'' : Fs} {b n : Nat} {r : Nat × BPos → Nat} {p : Nat × BPos}

theorem Kept.refl (fs : Fs) : fs.Kept fs := ⟨rfl, fun _ _ => rfl⟩

theorem Kept.trans (h : fs.Kept fs') (h' : fs'.Kept fs'') : fs.Kept fs'' := by
  refine ⟨h'.sb.trans h.sb, fun i hi => ?_⟩
  have := h'.inodes i (by rw [h.sb]; exact hi)
  rw [h.sb] at this
  exact this.trans (h.inodes i hi)

theorem Kept.dinode (h : fs.Kept fs') {i : Nat} (hi : i < fs.sb.ninodes) :
    fs'.dinode i = fs.dinode i := by
  unfold Fs.dinode
  rw [h.sb, h.inodes i hi]

theorem kept_setBlock (fs : Fs) (hs : fs.sb.Sound) (hb : fs.sb.nmeta ≤ b) (hlt : b < fs.sb.size)
    (x : Nat → UInt8) : fs.Kept (fs.setBlock b x) := by
  refine ⟨rfl, fun i hi => update_of_ne ?_ ..⟩
  have h1 := hs.inodes i hi
  have h2 := hs.bitmap b hlt
  unfold Superblock.bblock at h2
  omega

theorem marked_setBlock (fs : Fs) (hs : fs.sb.Sound) (hb : fs.sb.nmeta ≤ b) (hn : n < fs.sb.size)
    (x : Nat → UInt8) : (fs.setBlock b x).marked n = fs.marked n := by
  have := hs.bitmap n hn
  unfold marked setBlock
  dsimp only
  rw [update_of_ne (by omega)]

theorem Marks.setBlock (hs : fs.sb.Sound) (h : fs.Marks r) (hb : fs.sb.nmeta ≤ b)
    (hlt : b < fs.sb.size) (x : Nat → UInt8) : (fs.setBlock b x).Marks r := by
  refine ⟨h.fills.congr fun n _ => ?_, fun n hn => ?_⟩
  · constructor
    · rintro ⟨h1, h2, h3⟩
      exact ⟨h1, h2, (marked_setBlock fs hs hb h2 x).symm.trans h3⟩
    · rintro ⟨h1, h2, h3⟩
      exact ⟨h1, h2, (marked_setBlock fs hs hb h2 x).trans h3⟩
  · exact (marked_setBlock fs hs hb (lt_of_lt_of_le hn (hb.trans hlt.le)) x).trans (h.metadata n hn)

theorem kept_setBitmap (hs : fs.sb.Sound) (b : Nat) (x : Nat → UInt8) :
    fs.Kept (fs.setBlock (fs.sb.bblock b) x) := by
  refine ⟨rfl, fun i hi => update_of_ne ?_ ..⟩
  have := hs.inodes i hi
  unfold Superblock.bblock
  omega

theorem block_setBitmap (hs : fs.sb.Sound) (hb : b < fs.sb.size) (x : Nat → UInt8)
    (hn : fs.sb.nmeta ≤ n) : (fs.setBlock (fs.sb.bblock b) x).block n = fs.block n := by
  have := hs.bitmap b hb
  exact update_of_ne (by omega) ..

theorem marked_setBitmap (x : Nat → UInt8) (f : Bool → Bool → Bool)
    (hf : ∀ v, f v false = v)
    (hx : ∀ m, bitAt x m = f (bitAt (fs.block (fs.sb.bblock b)) m) (decide (m = b % 4096))) :
    (fs.setBlock (fs.sb.bblock b) x).marked n = f (fs.marked n) (decide (n = b)) := by
  unfold marked setBlock Superblock.bblock
  dsimp only
  by_cases hd : n / 4096 = b / 4096
  · rw [hd, update_self, hx]
    unfold Superblock.bblock
    congr 1
    exact decide_eq_decide.mpr ⟨fun h => by omega, fun h => by rw [h]⟩
  · rw [update_of_ne (by omega), decide_eq_false (by rintro rfl; exact hd rfl), hf]

theorem firstFree_spec (h : fs.firstFree = some b) : b < fs.sb.size ∧ fs.marked b = false := by
  obtain ⟨k, -, hk⟩ := List.exists_of_findSome?_eq_some h
  obtain ⟨bi, hbi, rfl⟩ := Option.map_eq_some_iff.mp hk
  unfold freeBit at hbi
  have hmem := List.mem_of_find?_eq_some hbi
  have htest := List.find?_some hbi
  rw [List.mem_range] at hmem
  rw [Bool.and_eq_true, decide_eq_true_eq, Bool.not_eq_true'] at htest
  refine ⟨htest.1, ?_⟩
  unfold marked Superblock.bblock
  have hbit := htest.2
  unfold Superblock.bblock at hbit
  rw [Nat.mul_div_cancel k (by decide)] at hbit
  rw [show (k * 4096 + bi) / 4096 = k by omega, show (k * 4096 + bi) % 4096 = bi by omega]
  exact hbit

theorem balloc_ok (hb : b < fs.sb.size) (hfree : fs.marked b = false) : ∃ r, fs.balloc = .ok r := by
  unfold balloc
  cases hnone : fs.firstFree with
  | some c => exact ⟨_, rfl⟩
  | none =>
    have hk := List.findSome?_eq_none_iff.mp hnone (b / 4096) (List.mem_range.mpr (by omega))
    have hbit := List.find?_eq_none.mp (Option.map_eq_none_iff.mp hk) (b % 4096)
      (List.mem_range.mpr (Nat.mod_lt b (by decide)))
    unfold marked Superblock.bblock at hfree
    unfold Superblock.bblock at hbit
    rw [Nat.mul_div_cancel _ (by decide), hfree] at hbit
    simp only [Bool.not_false, Bool.and_true, decide_eq_true_eq] at hbit
    omega

theorem Marks.balloc (hs : fs.sb.Sound) (h : fs.Marks r) (hb : fs.balloc = .ok (b, fs')) :
    fs.Took b fs' := by
  unfold Fs.balloc at hb
  split at hb
  · cases hb
  rename_i b' hfree
  obtain ⟨hlt, hmarked⟩ := firstFree_spec hfree
  cases hb
  have hdata : fs.sb.nmeta ≤ b := by
    by_contra hlow
    rw [h.metadata b (by omega)] at hmarked
    cases hmarked
  have hbb := hs.bitmap b hlt
  refine ⟨?_, hdata, hlt, hmarked, update_self .., fun c hc hne => ?_, fun n hn => ?_⟩
  · exact (kept_setBitmap hs _ _).trans (kept_setBlock (fs.setBlock _ _) hs hdata hlt _)
  · exact (update_of_ne hne ..).trans (block_setBitmap hs hlt _ hc)
  · refine (marked_setBlock (fs.setBlock _ _) hs hdata hn _).trans ?_
    exact marked_setBitmap _ (· || ·) Bool.or_false fun m => bitAt_setBit ..

theorem Marks.assign (hs : fs.sb.Sound) (h : fs.Marks r) (ht : fs.Took b fs') (hp : r p = 0) :
    fs'.Marks (update r p b) := by
  have hsb := ht.kept.sb
  have hdata := ht.data
  have hbb := hs.bitmap b ht.range
  refine ⟨h.fills.assign hp (by omega) ?_ fun n _ => ?_, fun n hn => ?_⟩
  · rintro ⟨-, -, hm⟩
    rw [ht.free] at hm
    cases hm
  · unfold InUse
    rw [hsb]
    constructor
    · rintro ⟨h1, h2, h3⟩
      rw [ht.marks n h2, Bool.or_eq_true, decide_eq_true_eq] at h3
      exact h3.imp (fun h3 => ⟨h1, h2, h3⟩) id
    · rintro (⟨h1, h2, h3⟩ | rfl)
      · exact ⟨h1, h2, by rw [ht.marks n h2, h3, Bool.true_or]⟩
      · exact ⟨hdata, ht.range, by rw [ht.marks n ht.range, decide_eq_true rfl, Bool.or_true]⟩
  · rw [hsb] at hn
    rw [ht.marks n (by have := ht.range; omega), h.metadata n hn, Bool.true_or]

theorem Marks.bfree (hs : fs.sb.Sound) (h : fs.Marks r) (hp : r p ≠ 0) :
    ∃ fs', fs.bfree (r p) = .ok fs' ∧ fs.Kept fs' ∧
      (∀ c, fs.sb.nmeta ≤ c → fs'.block c = fs.block c) ∧ fs'.Marks (update r p 0) := by
  obtain ⟨hdata, hlt, hmarked⟩ := h.fills.inUse hp
  refine ⟨_, if_pos hmarked, kept_setBitmap hs _ _, fun c hc => block_setBitmap hs hlt _ hc, ?_⟩
  have hmarks : ∀ n, (fs.setBlock (fs.sb.bblock (r p))
      (clearBit (fs.block (fs.sb.bblock (r p))) (r p % 4096))).marked n =
        (fs.marked n && !decide (n = r p)) := fun n =>
    marked_setBitmap _ (fun v w => v && !w) (fun v => by simp) fun m => bitAt_clearBit ..
  refine ⟨h.fills.clear hp fun n _ => ?_, fun n hn => ?_⟩
  · unfold InUse
    rw [hmarks n, Bool.and_eq_true, Bool.not_eq_true', decide_eq_false_iff_not]
    constructor
    · rintro ⟨h1, h2, h3, h4⟩
      exact ⟨⟨h1, h2, h3⟩, h4⟩
    · rintro ⟨⟨h1, h2, h3⟩, h4⟩
      exact ⟨h1, h2, h3, h4⟩
  · change n < fs.sb.nmeta at hn
    rw [hmarks n, h.metadata n hn, decide_eq_false (by omega)]
    rfl

end

end Fs
end Xv6
