import Xv6.Inodes
import Xv6.BlockRefs

/-!
Reading an inode that has all the blocks its size needs. `bmap` then finds every block, so
that `readi` and `dirlookup` leave the blocks and the inode as they are and return the bytes
that stand in them.
-/

namespace Xv6
namespace Fs

def marked (fs : Fs) (b : Nat) : Bool := Lib.bitAt (fs.block (fs.sb.bblock b)) (b % 4096)

def Whole (fs : Fs) (d : Dinode) : Prop :=
  d.size ≤ 71680 ∧ ∀ x < d.size, d.blockAt fs.block (x / 512) ≠ 0

def byteAt (fs : Fs) (d : Dinode) (x : Nat) : UInt8 :=
  fs.block (d.blockAt fs.block (x / 512)) (x % 512)

def bytes (fs : Fs) (d : Dinode) (off n : Nat) : List UInt8 :=
  (List.range n).map fun i => fs.byteAt d (off + i)

section
variable {fs : Fs} {d : Dinode} {off n k bn : Nat}

theorem length_bytes (fs : Fs) (d : Dinode) (off n : Nat) : (fs.bytes d off n).length = n := by
  rw [bytes, List.length_map, List.length_range]

theorem bytes_add (fs : Fs) (d : Dinode) (off m n : Nat) :
    fs.bytes d off (m + n) = fs.bytes d off m ++ fs.bytes d (off + m) n := by
  simp only [bytes, List.range_add, List.map_append, List.map_map, Function.comp_def, Nat.add_assoc]

theorem bmap_found (hbn : bn < 140) (h : d.blockAt fs.block bn ≠ 0) :
    fs.bmap d bn = .ok (d.blockAt fs.block bn, fs, d) := by
  unfold Dinode.blockAt at h ⊢
  unfold bmap
  by_cases hlt : bn < 12
  · simp only [dif_pos hlt] at h ⊢
    rw [if_neg h]
    rfl
  simp only [dif_neg hlt] at h ⊢
  have hroot : d.addrs 12 ≠ 0 := fun h0 => h (if_pos h0)
  rw [if_neg hroot] at h
  rw [if_pos (by omega), indirect, if_neg hroot, if_neg hroot]
  change (if wordAt (fs.block (d.addrs 12)) (bn - 12) = 0 then _ else _) = _
  rw [if_neg h]
  rfl

theorem bytes_block (h : off % 512 + n ≤ 512) :
    fs.bytes d off n =
      (List.range n).map fun i => fs.block (d.blockAt fs.block (off / 512)) (off % 512 + i) := by
  refine List.map_congr_left fun i hi => ?_
  have hi := List.mem_range.mp hi
  rw [byteAt, show (off + i) / 512 = off / 512 by omega, show (off + i) % 512 = off % 512 + i by omega]

theorem readLoop_found (hk : n ≤ k) (hend : off + n ≤ 71680)
    (h : ∀ x, off ≤ x → x < off + n → d.blockAt fs.block (x / 512) ≠ 0) :
    readLoop k fs d off n = .ok (fs.bytes d off n, fs, d) := by
  induction k generalizing off n with
  | zero =>
    obtain rfl : n = 0 := by omega
    rfl
  | succ k ih =>
    unfold readLoop
    by_cases hn : n = 0
    · subst hn
      rw [if_pos rfl]
      rfl
    rw [if_neg hn, bmap_found (by omega) (h off le_rfl (by omega))]
    change (readLoop k fs d (off + min n (512 - off % 512)) (n - min n (512 - off % 512)) >>= _) = _
    rw [ih (by omega) (by omega) fun x h1 h2 => h x (by omega) (by omega)]
    change Except.ok (_ ++ _, fs, d) = _
    rw [← bytes_block (by omega), ← bytes_add, show min n (512 - off % 512) +
      (n - min n (512 - off % 512)) = n by omega]

theorem readi_found (ht : d.type ≠ 3) (hsize : off + n ≤ d.size) (hend : off + n ≤ 71680)
    (h : ∀ x, off ≤ x → x < off + n → d.blockAt fs.block (x / 512) ≠ 0)
    (dev : Option (List UInt8)) : fs.readi d off n dev = .ok (some (fs.bytes d off n), fs, d) := by
  unfold readi
  rw [if_neg ht, if_neg (by rw [Nat.mod_eq_of_lt (by omega)]; omega)]
  dsimp only
  rw [if_neg (by omega), readLoop_found le_rfl hend h]
  rfl

theorem readi_stays (h : fs.Whole d) (off n : Nat) (dev : Option (List UInt8)) :
    ∃ r, fs.readi d off n dev = .ok (r, fs, d) := by
  obtain ⟨hsize, hblock⟩ := h
  unfold readi
  by_cases ht : d.type = 3
  · exact ⟨dev, if_pos ht⟩
  by_cases hoff : d.size < off ∨ (off + n) % 0x100000000 < off
  · exact ⟨none, by rw [if_neg ht, if_pos hoff]; rfl⟩
  have hend : off + (if d.size < off + n then d.size - off else n) ≤ d.size := by
    split <;> omega
  rw [if_neg ht, if_neg hoff]
  dsimp only
  rw [readLoop_found le_rfl (hend.trans hsize) fun x _ hx => hblock x (by omega)]
  exact ⟨_, rfl⟩

end

/-- The first entries of a directory, each with the number of an inode and a name. -/
structure Lists (fs : Fs) (dp : Dinode) (es : List (Nat × List UInt8)) : Prop where
  dir : dp.type = 1
  size : 16 * es.length ≤ dp.size
  short : 16 * es.length ≤ 71680
  blocks : ∀ x < 16 * es.length, dp.blockAt fs.block (x / 512) ≠ 0
  entry : ∀ j (h : j < es.length), fs.bytes dp (16 * j) 16 = direntBytes es[j].1 es[j].2
  inum : ∀ e ∈ es, e.1 ≠ 0 ∧ e.1 < 65536

section
variable {fs : Fs} {dp : Dinode} {es : List (Nat × List UInt8)} {name : List UInt8} {i j n : Nat}

section
variable (h : fs.Lists dp es) (hj : j < es.length) (hname : cname 14 name = cname 14 es[j].2)
  (hfirst : ∀ i (hi : i < es.length), i < j → cname 14 name ≠ cname 14 es[i].2)
include h hj hname hfirst

theorem Lists.lookupLoop (hi : i ≤ j) (hn : j < i + n) :
    Fs.lookupLoop name n fs dp (16 * i) = .ok (some (16 * j, es[j].1), fs, dp) := by
  induction n generalizing i with
  | zero => omega
  | succ n ih =>
    have hlen : i < es.length := by omega
    have hsize := h.size
    have hshort := h.short
    obtain ⟨h0, hlt⟩ := h.inum es[i] (List.getElem_mem hlen)
    unfold Fs.lookupLoop
    rw [readi_found (by rw [h.dir]; decide) (by omega) (by omega) fun x _ hx =>
      h.blocks x (by omega), h.entry i hlen]
    change (if (direntBytes es[i].1 es[i].2).length ≠ 16 then _ else _) = _
    rw [if_neg (not_not.mpr (length_direntBytes ..)), direntInum_direntBytes hlt, if_neg h0,
      strncmpZero_direntBytes]
    by_cases hij : i = j
    · subst hij
      rw [decide_eq_true hname]
      rfl
    · rw [decide_eq_false (hfirst i hlen (by omega))]
      change Fs.lookupLoop name n fs dp (16 * (i + 1)) = _
      exact ih (by omega) (by omega)

theorem Lists.dirlookup : fs.dirlookup dp name = .ok (some (16 * j, es[j].1), fs, dp) := by
  have hsize := h.size
  unfold Fs.dirlookup
  rw [if_neg (not_not.mpr h.dir)]
  exact h.lookupLoop hj hname hfirst (Nat.zero_le j) (by omega)

end

end

end Fs
end Xv6
