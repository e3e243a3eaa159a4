import Xv6.Lib.Copying
import Mathlib.Data.List.Nodup

/-!
`memmove` of the kernel and of the user library, on a memory of 2^32 bytes whose addresses
wrap around. The kernel's copies downwards when the destination begins inside the source; the
user library's always copies upwards.
-/

namespace Xv6

open Lib Function

abbrev Memory := BitVec 32 → UInt8

/-- `while(n-- > 0) *d++ = *s++` -/
def copyUp : Nat → Memory → BitVec 32 → BitVec 32 → Memory
  | 0, m, _, _ => m
  | n + 1, m, d, s => copyUp n (update m d (m s)) (d + 1) (s + 1)

/-- `while(n-- > 0) *--d = *--s` -/
def copyDown : Nat → Memory → BitVec 32 → BitVec 32 → Memory
  | 0, m, _, _ => m
  | n + 1, m, d, s => copyDown n (update m (d - 1) (m (s - 1))) (d - 1) (s - 1)

/-- `memmove` of the kernel: the memory it leaves and the pointer it returns. -/
def memmove (m : Memory) (dst src n : BitVec 32) : Memory × BitVec 32 :=
  if src < dst ∧ dst < src + n then (copyDown n.toNat m (dst + n) (src + n), dst)
  else (copyUp n.toNat m dst src, dst)

/-- `memmove` of the user library, where `n` is an `int`. -/
def Ulib.memmove (m : Memory) (vdst vsrc n : BitVec 32) : Memory × BitVec 32 :=
  (copyUp n.toInt.toNat m vdst vsrc, vdst)

variable {m : Memory} {dst src : BitVec 32} {n : Nat}

/-- The bytes `dst[0..n)` of `m'` are those that `src[0..n)` held in `m`, and every other byte
is as in `m`. -/
structure Moved (m : Memory) (dst src : BitVec 32) (n : Nat) (m' : Memory) : Prop where
  copied : ∀ i < n, m' (dst + .ofNat 32 i) = m (src + .ofNat 32 i)
  others : ∀ a, (∀ i < n, a ≠ dst + .ofNat 32 i) → m' a = m a

/-- A byte of the source that is also an earlier byte of the destination holds what the copy
upwards puts there before reading it. -/
def UpSafe (m : Memory) (dst src : BitVec 32) (n : Nat) : Prop :=
  ∀ i j, i < j → j < n → src + .ofNat 32 j = dst + .ofNat 32 i →
    m (src + .ofNat 32 j) = m (src + .ofNat 32 i)

/-- The same for a later byte of the destination and the copy downwards. -/
def DownSafe (m : Memory) (dst src : BitVec 32) (n : Nat) : Prop :=
  ∀ i j, i < j → j < n → src + .ofNat 32 i = dst + .ofNat 32 j →
    m (src + .ofNat 32 i) = m (src + .ofNat 32 j)

theorem copyUp_eq (n : Nat) (m : Memory) (d s : BitVec 32) : copyUp n m d s =
    copyEach (d + .ofNat 32 ·) (s + .ofNat 32 ·) m (List.range n) := by
  induction n generalizing m d s with
  | zero => rfl
  | succ n ih =>
    have hnext : ∀ (a : BitVec 32) i, a + 1#32 + .ofNat 32 i = a + .ofNat 32 (i + 1) := fun a i => by
      bv_omega
    rw [copyUp, ih, List.range_succ_eq_map]
    simp [copyEach, List.foldl_map, hnext]

theorem copyDown_eq (n : Nat) (m : Memory) (d s : BitVec 32) :
    copyDown n m (d + .ofNat 32 n) (s + .ofNat 32 n) =
      copyEach (d + .ofNat 32 ·) (s + .ofNat 32 ·) m (List.range n).reverse := by
  induction n generalizing m with
  | zero => rfl
  | succ n ih =>
    have hprev : ∀ a : BitVec 32, a + .ofNat 32 (n + 1) - 1 = a + .ofNat 32 n := fun a => by
      bv_omega
    rw [copyDown, hprev, hprev, ih, List.range_succ, List.reverse_append]
    rfl

section
variable (hn : n ≤ 0x100000000)
include hn

theorem nodup_offsets (dst : BitVec 32) : ((List.range n).map (dst + .ofNat 32 ·)).Nodup := by
  refine List.Nodup.map_on (fun i hi j hj h => ?_) List.nodup_range
  rw [List.mem_range] at hi hj
  bv_omega

theorem moved_iff {is : List Nat} (h : is.Perm (List.range n)) :
    Moved m dst src n (copyEach (dst + .ofNat 32 ·) (src + .ofNat 32 ·) m is) ↔
      is.Pairwise fun i j => src + .ofNat 32 j = dst + .ofNat 32 i →
        m (src + .ofNat 32 j) = m (src + .ofNat 32 i) := by
  have hmem : ∀ i, i ∈ is ↔ i < n := fun i => h.mem_iff.trans List.mem_range
  rw [← copyEach_iff ((h.map _).nodup_iff.mpr (nodup_offsets hn dst))]
  constructor
  · intro hm i hi
    exact hm.copied i ((hmem i).mp hi)
  · intro hc
    exact ⟨fun i hi => hc i ((hmem i).mpr hi),
      fun a ha => copyEach_of_ne fun i hi => ha i ((hmem i).mp hi)⟩

theorem moved_up : Moved m dst src n (copyUp n m dst src) ↔ UpSafe m dst src n := by
  rw [copyUp_eq, moved_iff hn (List.Perm.refl _), List.pairwise_iff_getElem]
  simp only [List.length_range, List.getElem_range]
  exact ⟨fun h i j hij hj => h i j (by omega) hj hij, fun h i j _ hj hij => h i j hij hj⟩

theorem moved_down :
    Moved m dst src n (copyDown n m (dst + .ofNat 32 n) (src + .ofNat 32 n)) ↔ DownSafe m dst src n := by
  rw [copyDown_eq, moved_iff hn (List.reverse_perm _), List.pairwise_reverse, List.pairwise_iff_getElem]
  simp only [List.length_range, List.getElem_range]
  exact ⟨fun h i j hij hj => h i j (by omega) hj hij, fun h i j _ hj hij => h i j hij hj⟩

end

theorem memmove_moved_iff (m : Memory) (dst src n : BitVec 32) :
    Moved m dst src n.toNat (memmove m dst src n).1 ↔
      if src < dst ∧ dst < src + n then DownSafe m dst src n.toNat else UpSafe m dst src n.toNat := by
  have hn : n.toNat ≤ 0x100000000 := Nat.le_of_lt n.isLt
  unfold memmove
  split
  · rw [← moved_down hn, BitVec.ofNat_toNat, BitVec.setWidth_eq]
  · exact moved_up hn

/-- The kernel's `memmove` is right on all ranges that end below the top of the address space. -/
theorem memmove_moved (m : Memory) {dst src n : BitVec 32} (hsrc : src.toNat + n.toNat < 0x100000000)
    (hdst : dst.toNat + n.toNat ≤ 0x100000000) : Moved m dst src n.toNat (memmove m dst src n).1 := by
  rw [memmove_moved_iff]
  split
  · intro i j hij hj h
    bv_omega
  · intro i j hij hj h
    bv_omega

theorem memmove_moved_two : Moved (fun a => .ofNat a.toNat) 0x1001 0x1000 2
    (memmove (fun a => .ofNat a.toNat) 0x1001 0x1000 2).1 :=
  memmove_moved (n := 2) _ (by decide) (by decide)

/-- Both functions move the bytes if and only if no byte of the source that is overwritten
before it is read changes by that. -/
theorem memmove_iff (m : Memory) (dst src n : BitVec 32) :
    (Moved m dst src n.toNat (memmove m dst src n).1 ∧
      Moved m dst src n.toInt.toNat (Ulib.memmove m dst src n).1) ↔
    (if src < dst ∧ dst < src + n then DownSafe m dst src n.toNat else UpSafe m dst src n.toNat) ∧
      UpSafe m dst src n.toInt.toNat := by
  have hn : n.toInt.toNat ≤ 0x100000000 := by
    have := n.toInt_lt
    omega
  rw [memmove_moved_iff]
  exact and_congr_right fun _ => moved_up hn

/-- Two bytes moved up by one: the user library's copies the first of them twice. -/
theorem memmove_overlap : ¬ Moved (fun a => .ofNat a.toNat) 0x1001 0x1000 (2#32).toInt.toNat
    (Ulib.memmove (fun a => .ofNat a.toNat) 0x1001 0x1000 2).1 := fun h =>
  absurd (h.copied 1 (by decide)) (by decide)

end Xv6
