import Xv6.FsLayout
import Xv6.Lib.Slots

/-!
The places from which an inode names blocks: the 13 entries of the inode and the 128 of the
block that the last of them names. What the updates of inodes and of blocks do to the map of
all these places is stated here for `mkfs` and the kernel alike.
-/

namespace Xv6

open Function

/-- A place in an inode, or in its indirect block. -/
abbrev BPos := Fin 13 ⊕ Fin 128

def Dinode.ref (img : Blocks) (d : Dinode) : BPos → Nat
  | .inl i => d.addrs i
  | .inr j => if d.addrs 12 = 0 then 0 else wordAt (img (d.addrs 12)) j.val

def dataPos (k : Nat) : BPos :=
  if h : k < 12 then .inl ⟨k, direct_lt h⟩ else .inr (Fin.ofNat 128 (k - 12))

def refMap (img : Blocks) (din : Nat → Dinode) (r : Nat × BPos) : Nat := (din r.1).ref img r.2

section
variable {img : Blocks} {d : Dinode} {din : Nat → Dinode} {i k l v b : Nat}

theorem ref_dataPos (hk : k < 140) : d.ref img (dataPos k) = d.blockAt img k := by
  unfold dataPos Dinode.blockAt
  split
  · rfl
  · rw [Dinode.ref]
    split
    · rfl
    · rw [show (Fin.ofNat 128 (k - 12)).val = k - 12 from Nat.mod_eq_of_lt (by omega)]

theorem dataPos_inj (hk : k < 140) (hl : l < 140) (h : dataPos k = dataPos l) : k = l := by
  unfold dataPos at h
  split at h
  · split at h
    · exact Fin.mk.inj (Sum.inl.inj h)
    · cases h
  split at h
  · cases h
  · have := congrArg Fin.val (Sum.inr.inj h)
    rw [show (Fin.ofNat 128 (k - 12)).val = k - 12 from Nat.mod_eq_of_lt (by omega),
      show (Fin.ofNat 128 (l - 12)).val = l - 12 from Nat.mod_eq_of_lt (by omega)] at this
    omega

theorem dataPos_ne_root (k : Nat) : dataPos k ≠ .inl 12 := by
  unfold dataPos
  split
  · intro h
    have := congrArg Fin.val (Sum.inl.inj h)
    dsimp only at this
    omega
  · exact Sum.inr_ne_inl

/-- An entry that is new stands at place `dataPos k` and nothing else has moved. -/
theorem blockAt_of_ref {img' : Blocks} {d' : Dinode} (img : Blocks) {r : BPos → Nat} (hk : k < 140)
    (h : d'.ref img' = update r (dataPos k) v)
    (hr : ∀ l < 140, l ≠ k → r (dataPos l) = d.blockAt img l) :
    d'.blockAt img' k = v ∧ ∀ l < 140, l ≠ k → d'.blockAt img' l = d.blockAt img l := by
  refine ⟨?_, fun l hl hlk => ?_⟩
  · rw [← ref_dataPos hk, h, update_self]
  · rw [← ref_dataPos hl, h, update_of_ne fun he => hlk (dataPos_inj hl hk he), hr l hl hlk]

theorem wordAt_eq_blockAt (h0 : d.addrs 12 ≠ 0) (hk : ¬ k < 12) :
    wordAt (img (d.addrs 12)) (k - 12) = d.blockAt img k := by
  rw [Dinode.blockAt, dif_neg hk, if_neg h0]

theorem wordAt_zero (j : Nat) : wordAt (fun _ => 0) j = 0 := by
  unfold wordAt
  simp [Lib.leAt]

theorem ref_congr {img' : Blocks} (h : d.addrs 12 ≠ 0 → img' (d.addrs 12) = img (d.addrs 12)) :
    d.ref img' = d.ref img := by
  funext p
  cases p with
  | inl i => rfl
  | inr j =>
    by_cases h0 : d.addrs 12 = 0
    · simp [Dinode.ref, h0]
    · simp only [Dinode.ref, if_neg h0, h h0]

theorem ref_addrs {d' : Dinode} (h : d'.addrs = d.addrs) : d'.ref img = d.ref img := by
  funext p
  cases p with
  | inl j => exact congrFun h j
  | inr j => simp only [Dinode.ref, h]

theorem refMap_congr (din : Nat → Dinode) {din' : Nat → Dinode}
    (h : ∀ j, (din' j).addrs = (din j).addrs) : refMap img din' = refMap img din := by
  funext ⟨k, q⟩
  exact congrFun (ref_addrs (h k)) q

theorem ref_setAddr (img : Blocks) {j : Fin 13} (hj : j ≠ 12) (v : Nat) :
    { d with addrs := update d.addrs j v }.ref img =
      update (d.ref img) (.inl j) v := by
  funext p
  cases p with
  | inl i =>
    by_cases hi : i = j
    · subst hi
      simp [Dinode.ref]
    · simp [Dinode.ref, hi]
  | inr i => simp [Dinode.ref, Ne.symm hj]

theorem ref_setRoot (img : Blocks) (h0 : d.addrs 12 = 0) (hv : ∀ j, wordAt (img v) j = 0) :
    { d with addrs := update d.addrs 12 v }.ref img =
      update (d.ref img) (.inl 12) v := by
  funext p
  cases p with
  | inl i =>
    by_cases hi : i = 12
    · subst hi
      simp [Dinode.ref]
    · simp [Dinode.ref, hi]
  | inr j => simp [Dinode.ref, h0, hv]

theorem ref_putWord (img : Blocks) (h0 : d.addrs 12 ≠ 0) (j : Fin 128) (hv : v < 0x100000000) :
    d.ref (update img (d.addrs 12) (putWord (img (d.addrs 12)) j.val v)) =
      update (d.ref img) (.inr j) v := by
  funext p
  cases p with
  | inl i => simp [Dinode.ref]
  | inr i =>
    by_cases hi : i = j
    · subst hi
      simp only [Dinode.ref, if_neg h0, update_self]
      exact wordAt_putWord _ _ hv
    · have hval : i.val ≠ j.val := fun h => hi (Fin.ext h)
      rw [update_of_ne (by simpa using hi)]
      simp only [Dinode.ref, if_neg h0, update_self]
      exact wordAt_putWord_ne _ _ hval

theorem refMap_setInode (din : Nat → Dinode) (p : BPos) (h : d.ref img = update ((din i).ref img) p v) :
    refMap img (update din i d) = update (refMap img din) (i, p) v := by
  funext ⟨k, q⟩
  unfold refMap
  by_cases hk : k = i
  · subst hk
    rw [update_self, h]
    by_cases hq : q = p
    · subst hq
      simp
    · rw [update_of_ne hq, update_of_ne (by simpa using hq)]
  · rw [update_of_ne hk, update_of_ne (by simp [hk])]

theorem refMap_setBlock (img : Blocks) (x : Nat → UInt8) (h : ∀ k, (din k).addrs 12 ≠ 0 → (din k).addrs 12 ≠ b) :
    refMap (update img b x) din = refMap img din := by
  funext ⟨k, q⟩
  exact congrFun (ref_congr fun h0 => update_of_ne (h k h0) ..) q

theorem refMap_putWord (img : Blocks) (h0 : (din i).addrs 12 ≠ 0) (j : Fin 128) (hv : v < 0x100000000)
    (hne : ∀ k, k ≠ i → (din k).addrs 12 ≠ (din i).addrs 12) :
    refMap (update img ((din i).addrs 12) (putWord (img ((din i).addrs 12)) j.val v)) din =
      update (refMap img din) (i, .inr j) v := by
  funext ⟨k, q⟩
  unfold refMap
  by_cases hk : k = i
  · subst hk
    rw [ref_putWord img h0 j hv]
    by_cases hq : q = .inr j
    · subst hq
      simp
    · rw [update_of_ne hq, update_of_ne (by simpa using hq)]
  · rw [update_of_ne (by simp [hk])]
    exact congrFun (ref_congr fun _ => update_of_ne (hne k hk) ..) q

end

end Xv6
