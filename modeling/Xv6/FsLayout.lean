import Xv6.Lib.Bytes
import Mathlib.Data.Fin.Basic
import Mathlib.Data.List.TakeWhile
import Mathlib.Tactic.FinCases

/-!
The format of a file system on disk, as `fs.h` gives it: the superblock, inodes packed
eight to a block, blocks of 128 block numbers, directory entries. Numbers are stored in
little-endian order. The fields of type `short` are taken as their 16-bit patterns.
-/

namespace Xv6

open Lib

/-- What the blocks of a disk hold. -/
abbrev Blocks := Nat → Nat → UInt8

@[ext] structure Superblock where
  size : Nat
  nblocks : Nat
  ninodes : Nat
  nlog : Nat
  logstart : Nat
  inodestart : Nat
  bmapstart : Nat
deriving DecidableEq, Repr

def getSuperblock (b : Nat → UInt8) : Superblock where
  size := leAt b 0 4
  nblocks := leAt b 4 4
  ninodes := leAt b 8 4
  nlog := leAt b 12 4
  logstart := leAt b 16 4
  inodestart := leAt b 20 4
  bmapstart := leAt b 24 4

def Superblock.words (sb : Superblock) : List Nat :=
  [sb.size, sb.nblocks, sb.ninodes, sb.nlog, sb.logstart, sb.inodestart, sb.bmapstart]

def putSuperblock (b : Nat → UInt8) (sb : Superblock) (i : Nat) : UInt8 :=
  if i < 28 then leByte (sb.words.getD (i / 4) 0) (i % 4) else b i

def Superblock.iblock (sb : Superblock) (i : Nat) : Nat := i / 8 + sb.inodestart

def Superblock.bblock (sb : Superblock) (b : Nat) : Nat := b / 4096 + sb.bmapstart

theorem direct_lt {bn : Nat} (h : bn < 12) : bn < 13 := by
  omega

instance neZeroThirteen : @NeZero Nat Zero.ofOfNat0 13 := ⟨by decide⟩

@[ext] structure Dinode where
  type : Nat := 0
  major : Nat := 0
  minor : Nat := 0
  nlink : Nat := 0
  size : Nat := 0
  addrs : Fin 13 → Nat := fun _ => 0

def Dinode.byte (d : Dinode) (j : Nat) : UInt8 :=
  if j < 2 then leByte d.type j
  else if j < 4 then leByte d.major (j - 2)
  else if j < 6 then leByte d.minor (j - 4)
  else if j < 8 then leByte d.nlink (j - 6)
  else if j < 12 then leByte d.size (j - 8)
  else leByte (d.addrs (Fin.ofNat 13 ((j - 12) / 4))) ((j - 12) % 4)

def getDinode (b : Nat → UInt8) (k : Nat) : Dinode where
  type := leAt b (64 * k) 2
  major := leAt b (64 * k + 2) 2
  minor := leAt b (64 * k + 4) 2
  nlink := leAt b (64 * k + 6) 2
  size := leAt b (64 * k + 8) 4
  addrs := fun i => leAt b (64 * k + 12 + 4 * i.val) 4

def putDinode (b : Nat → UInt8) (k : Nat) (d : Dinode) (i : Nat) : UInt8 :=
  if 64 * k ≤ i ∧ i < 64 * k + 64 then d.byte (i - 64 * k) else b i

structure Dinode.Fits (d : Dinode) : Prop where
  type : d.type < 65536
  major : d.major < 65536
  minor : d.minor < 65536
  nlink : d.nlink < 65536
  size : d.size < 0x100000000
  addrs : ∀ i, d.addrs i < 0x100000000

def wordAt (b : Nat → UInt8) (j : Nat) : Nat := leAt b (4 * j) 4

def putWord (b : Nat → UInt8) (j v : Nat) : Nat → UInt8 := putLe b (4 * j) 4 v

/-- The number of block `bn` of a file, 0 when it has none: the first 12 are in the inode, the
others in the block that `addrs[12]` names. -/
def Dinode.blockAt (img : Blocks) (d : Dinode) (bn : Nat) : Nat :=
  if h : bn < 12 then d.addrs ⟨bn, by omega⟩
  else if d.addrs 12 = 0 then 0
  else wordAt (img (d.addrs 12)) (bn - 12)

/-- `strncpy(de.name, name, DIRSIZ)`: the 14 bytes of the field. -/
def dirName (name : List UInt8) : List UInt8 :=
  let s := (name.takeWhile (· ≠ 0)).take 14
  s ++ List.replicate (14 - s.length) 0

def direntBytes (inum : Nat) (name : List UInt8) : List UInt8 :=
  [leByte inum 0, leByte inum 1] ++ dirName name

def direntInum (de : List UInt8) : Nat := leAt (fun i => de.getD i 0) 0 2

/-- `strncmp(p, q, n) == 0`; a string ends with its list or at a byte 0. -/
def strncmpZero : Nat → List UInt8 → List UInt8 → Bool
  | 0, _, _ => true
  | n + 1, p, q =>
    if p.headD 0 ≠ 0 ∧ p.headD 0 = q.headD 0 then strncmpZero n p.tail q.tail
    else p.headD 0 = q.headD 0

/-- The part of a name that an entry of `n` bytes keeps. -/
def cname (n : Nat) (name : List UInt8) : List UInt8 := (name.takeWhile (· ≠ 0)).take n

theorem cname_cons (n : Nat) (x : UInt8) (p : List UInt8) :
    cname (n + 1) (x :: p) = if x = 0 then [] else x :: cname n p := by
  by_cases hx : x = 0
  · simp [cname, hx]
  · simp [cname, hx]

theorem strncmpZero_eq (n : Nat) (p q : List UInt8) :
    strncmpZero n p q = decide (cname n p = cname n q) := by
  induction n generalizing p q with
  | zero => simp [strncmpZero, cname]
  | succ n ih =>
    have hnil : cname (n + 1) [] = [] := rfl
    cases p with
    | nil =>
      cases q with
      | nil => simp [strncmpZero]
      | cons y q =>
        by_cases hy : y = 0
        · simp [strncmpZero, hnil, cname_cons, hy]
        · simp [strncmpZero, hnil, cname_cons, hy, Ne.symm hy]
    | cons x p =>
      cases q with
      | nil =>
        by_cases hx : x = 0
        · simp [strncmpZero, hnil, cname_cons, hx]
        · simp [strncmpZero, hnil, cname_cons, hx]
      | cons y q =>
        by_cases hx : x = 0
        · by_cases hy : y = 0
          · simp [strncmpZero, cname_cons, hx, hy]
          · simp [strncmpZero, cname_cons, hx, hy, Ne.symm hy]
        by_cases hxy : x = y
        · subst hxy
          simp [strncmpZero, cname_cons, hx, ih]
        · by_cases hy : y = 0
          · simp [strncmpZero, cname_cons, hx, hy]
          · simp [strncmpZero, cname_cons, hx, hy, hxy]

theorem cname_dirName (q : List UInt8) : cname 14 (dirName q) = cname 14 q := by
  have hne : ∀ a ∈ cname 14 q, (fun x : UInt8 => decide (x ≠ 0)) a = true := by
    intro a ha
    exact List.mem_takeWhile_imp (p := fun x : UInt8 => decide (x ≠ 0)) (List.mem_of_mem_take ha)
  change ((cname 14 q ++ List.replicate (14 - (cname 14 q).length) 0).takeWhile _).take 14 = _
  rw [List.takeWhile_append_of_pos hne, List.takeWhile_replicate, if_neg (by simp), List.append_nil]
  exact List.take_of_length_le (by rw [cname, List.length_take]; omega)

theorem length_direntBytes (inum : Nat) (name : List UInt8) : (direntBytes inum name).length = 16 := by
  simp only [direntBytes, dirName, List.length_append, List.length_replicate, List.length_cons,
    List.length_nil, List.length_take]
  omega

theorem direntInum_direntBytes {inum : Nat} (h : inum < 65536) (name : List UInt8) :
    direntInum (direntBytes inum name) = inum := by
  rw [direntInum, leAt_of_bytes (v := inum)]
  · exact Nat.mod_eq_of_lt h
  · intro i hi
    obtain rfl | rfl : i = 0 ∨ i = 1 := by omega
    · rfl
    · rfl

theorem strncmpZero_direntBytes (name : List UInt8) (inum : Nat) (q : List UInt8) :
    strncmpZero 14 name ((direntBytes inum q).drop 2) = decide (cname 14 name = cname 14 q) := by
  rw [strncmpZero_eq]
  exact decide_eq_decide.mpr (by rw [← cname_dirName q]; rfl)

section
variable {b : Nat → UInt8} {k : Nat} {d : Dinode}

theorem getSuperblock_put {sb : Superblock} (h : ∀ x ∈ sb.words, x < 0x100000000) :
    getSuperblock (putSuperblock b sb) = sb := by
  have hword : ∀ j x, sb.words[j]? = some x → leAt (putSuperblock b sb) (4 * j) 4 = x := by
    intro j x hx
    have hj : j < 7 := (List.getElem?_eq_some_iff.mp hx).1
    rw [leAt_of_bytes (v := x)]
    · exact Nat.mod_eq_of_lt (h x (List.mem_of_getElem? hx))
    · intro i hi
      rw [putSuperblock, if_pos (by omega), show (4 * j + i) / 4 = j by omega,
        show (4 * j + i) % 4 = i by omega, List.getD_eq_getElem?_getD, hx]
      rfl
  ext
  · exact hword 0 _ rfl
  · exact hword 1 _ rfl
  · exact hword 2 _ rfl
  · exact hword 3 _ rfl
  · exact hword 4 _ rfl
  · exact hword 5 _ rfl
  · exact hword 6 _ rfl

theorem getDinode_putDinode_ne {k' : Nat} (h : k' ≠ k) :
    getDinode (putDinode b k d) k' = getDinode b k' := by
  have hfield : ∀ o n, o + n ≤ 64 →
      leAt (putDinode b k d) (64 * k' + o) n = leAt b (64 * k' + o) n := fun o n ho =>
    leAt_congr fun i h1 h2 => by rw [putDinode, if_neg (by omega)]
  ext j
  · exact hfield 0 2 (by omega)
  · exact hfield 2 2 (by omega)
  · exact hfield 4 2 (by omega)
  · exact hfield 6 2 (by omega)
  · exact hfield 8 4 (by omega)
  · have hj := j.isLt
    have haddr := hfield (12 + 4 * j.val) 4 (by omega)
    rwa [← Nat.add_assoc] at haddr

theorem getDinode_putDinode (h : d.Fits) : getDinode (putDinode b k d) k = d := by
  have hfield : ∀ {o n v : Nat}, o + n ≤ 64 → v < 256 ^ n →
      (∀ i < n, d.byte (o + i) = leByte v i) → leAt (putDinode b k d) (64 * k + o) n = v := by
    intro o n v ho hv hbyte
    rw [leAt_of_bytes (v := v), Nat.mod_eq_of_lt hv]
    intro i hi
    rw [putDinode, if_pos ⟨by omega, by omega⟩, show 64 * k + o + i - 64 * k = o + i by omega]
    exact hbyte i hi
  ext j
  · refine hfield (o := 0) (by omega) h.type fun i hi => ?_
    rw [Dinode.byte, if_pos (by omega), Nat.zero_add]
  · refine hfield (by omega) h.major fun i hi => ?_
    rw [Dinode.byte, if_neg (by omega), if_pos (by omega), Nat.add_sub_cancel_left]
  · refine hfield (by omega) h.minor fun i hi => ?_
    rw [Dinode.byte, if_neg (by omega), if_neg (by omega), if_pos (by omega),
      Nat.add_sub_cancel_left]
  · refine hfield (by omega) h.nlink fun i hi => ?_
    rw [Dinode.byte, if_neg (by omega), if_neg (by omega), if_neg (by omega), if_pos (by omega),
      Nat.add_sub_cancel_left]
  · refine hfield (by omega) h.size fun i hi => ?_
    rw [Dinode.byte, if_neg (by omega), if_neg (by omega), if_neg (by omega), if_neg (by omega),
      if_pos (by omega), Nat.add_sub_cancel_left]
  · have hj := j.isLt
    have haddr := hfield (o := 12 + 4 * j.val) (n := 4) (by omega) (h.addrs j) fun i hi => by
      have hidx : Fin.ofNat 13 ((12 + 4 * j.val + i - 12) / 4) = j := by
        rw [show (12 + 4 * j.val + i - 12) / 4 = j.val by omega]
        exact Fin.ofNat_val_eq_self j
      rw [Dinode.byte, if_neg (by omega), if_neg (by omega), if_neg (by omega), if_neg (by omega),
        if_neg (by omega), hidx, show (12 + 4 * j.val + i - 12) % 4 = i by omega]
    rwa [← Nat.add_assoc] at haddr

theorem getDinode_fits (b : Nat → UInt8) (k : Nat) : (getDinode b k).Fits :=
  ⟨leAt_lt .., leAt_lt .., leAt_lt .., leAt_lt .., leAt_lt ..,
    fun _ => leAt_lt ..⟩

theorem wordAt_putWord (b : Nat → UInt8) (j : Nat) {v : Nat} (h : v < 0x100000000) :
    wordAt (putWord b j v) j = v := by
  rw [wordAt, putWord, leAt_putLe]
  exact Nat.mod_eq_of_lt h

theorem wordAt_putWord_ne (b : Nat → UInt8) {i j : Nat} (v : Nat) (h : i ≠ j) :
    wordAt (putWord b j v) i = wordAt b i :=
  leAt_putLe_of_le (by omega)

end

end Xv6
