import Xv6.MkfsHoles

/-!
The kernel reads what `mkfs` wrote. Each file is found in the root directory under its name
and holds its bytes, unless the name, without the `_` that `main` drops, is that of one of the
two entries `main` makes before: `dirlookup` then finds the root directory itself.
-/

namespace Xv6
namespace Mkfs

def dirents (files : List Input) : List (Nat × List UInt8) :=
  (1, [46]) :: (1, [46, 46]) :: (files.zipIdx 2).map fun e => (e.2, e.1.entry)

/-- The kernel finds every file under its name, a regular file with the bytes; no two places
name one block, and the blocks in use are marked. -/
structure Agrees (img : Blocks) (files : List Input) : Prop where
  found : ∀ j (h : j < files.length), ∃ root off inum d, (Fs.mount img).load 1 = .ok root ∧
    (Fs.mount img).dirlookup root files[j].entry = .ok (some (off, inum), Fs.mount img, root) ∧
    (Fs.mount img).load inum = .ok d ∧ d.type = 2 ∧
    (Fs.mount img).readi d 0 d.size none = .ok (some files[j].bytes, Fs.mount img, d)
  apart : ∀ r s : Nat × BPos, r.1 < 200 → s.1 < 200 → refMap img (Fs.mount img).dinode r ≠ 0 →
    refMap img (Fs.mount img).dinode r = refMap img (Fs.mount img).dinode s → r = s
  named : ∀ r : Nat × BPos, r.1 < 200 → refMap img (Fs.mount img).dinode r ≠ 0 →
    (Fs.mount img).marked (refMap img (Fs.mount img).dinode r)
  metadata : ∀ b < nmeta, (Fs.mount img).marked b

def NoDots (files : List Input) : Prop :=
  ∀ f ∈ files, cname 14 f.entry ≠ [46] ∧ cname 14 f.entry ≠ [46, 46]

instance (files : List Input) : Decidable (NoDots files) :=
  inferInstanceAs (Decidable (∀ f ∈ files, cname 14 f.entry ≠ [46] ∧ cname 14 f.entry ≠ [46, 46]))

section
variable {img : Blocks} {files : List Input} {fb : Nat} {din : Nat → Dinode} {c : Nat → List UInt8}
  {d : Dinode} {j : Nat}

theorem entries_eq (n : Nat) (files : List Input) :
    entries n files = ((files.zipIdx n).map fun e => (e.2, e.1.entry)).flatMap fun e =>
      direntBytes e.1 e.2 := by
  induction files generalizing n with
  | nil => rfl
  | cons f files ih => rw [entries, ih, List.zipIdx_cons, List.map_cons, List.flatMap_cons]

theorem length_dirents (files : List Input) : (dirents files).length = files.length + 2 := by
  simp [dirents]

theorem dirents_file (hj : j < files.length) (h : j + 2 < (dirents files).length) :
    (dirents files)[j + 2] = (2 + j, files[j].entry) := by
  simp [dirents]

theorem Stores.bytes {s : Superblock} {x : List UInt8} {off n : Nat} (h : Stores img d x)
    (hn : off + n ≤ x.length) : Fs.bytes ⟨s, img⟩ d off n = (x.drop off).take n := by
  refine List.ext_getElem ?_ fun i hi _ => ?_
  · rw [Fs.length_bytes, List.length_take, List.length_drop]
    omega
  · rw [Fs.length_bytes] at hi
    simp only [Fs.bytes, List.getElem_map, List.getElem_range, List.getElem_take, List.getElem_drop]
    exact h.data (off + i) (by omega)

theorem Stores.block_ne {x : List UInt8} {o : Nat} (h : Stores img d x) (ho : o < x.length) :
    d.blockAt img (o / 512) ≠ 0 := by
  have hshort := h.short
  exact (h.block (o / 512) (by omega)).mpr (by omega)

section
variable (h : Built img files fb din c)
include h

theorem Built.lists (hn : files.length + 2 ≤ 200) :
    (Fs.mount img).Lists (din 1) (dirents files) := by
  have hlen := h.length_root
  have hstores := h.laid.stores 1
  have hroot : c 1 = (dirents files).flatMap fun e => direntBytes e.1 e.2 := by
    rw [h.root, entries_eq]
    simp only [dirents, List.flatMap_cons, dots, List.append_assoc]
  rw [h.mount]
  refine ⟨h.rootType, ?_, ?_, fun x hx => ?_, fun j hj => ?_, fun e he => ?_⟩
  · rw [length_dirents, h.rootSize]
    omega
  · rw [length_dirents]
    omega
  · rw [length_dirents] at hx
    exact hstores.block_ne (by omega)
  · rw [hstores.bytes (by rw [length_dirents] at hj; omega), hroot]
    exact Lib.take_drop_flatMap (fun e => length_direntBytes e.1 e.2) hj
  · obtain ⟨i, hi, rfl⟩ := List.getElem_of_mem he
    rw [length_dirents] at hi
    rcases i with _ | _ | i
    · exact ⟨Nat.one_ne_zero, show 1 < 65536 by decide⟩
    · exact ⟨Nat.one_ne_zero, show 1 < 65536 by decide⟩
    · rw [dirents_file (by omega)]
      exact ⟨by omega, by omega⟩

theorem Built.load {i : Nat} (hi : i < 208) (ht : (din i).type ≠ 0) :
    (Fs.mount img).load i = .ok (din i) := by
  rw [Fs.load, h.dinode hi, if_neg ht]
  rfl

theorem Built.readFile (hj : j < files.length) :
    (Fs.mount img).readi (din (2 + j)) 0 (din (2 + j)).size .none =
      .ok (some files[j].bytes, Fs.mount img, din (2 + j)) := by
  obtain ⟨hc, ht⟩ := h.file j hj
  have hstores := h.laid.stores (2 + j)
  have hshort := hstores.short
  have hsize := h.size (2 + j) (by omega)
  rw [hc] at hstores hshort hsize
  rw [h.mount, Fs.readi_found (by rw [ht]; decide) (by omega) (by omega) fun x _ hx =>
    hstores.block_ne (by omega), hstores.bytes (by omega), hsize, List.drop_zero, List.take_length]

theorem Built.refMap (r : Nat × BPos) (hr : r.1 < 200) :
    Xv6.refMap img (Fs.mount img).dinode r = Xv6.refMap img din r := by
  unfold Xv6.refMap
  rw [h.dinode (by omega)]

theorem Built.agrees (hn : files.length + 2 ≤ 200)
    (hnames : (files.map fun f => cname 14 f.entry).Nodup) (hdots : NoDots files) :
    Agrees img files := by
  refine ⟨fun j hj => ?_, fun r s hr hs h0 he => ?_, fun r hr h0 => ?_, fun b hb => ?_⟩
  · obtain ⟨hc, ht⟩ := h.file j hj
    have hlen := length_dirents files
    refine ⟨din 1, 16 * (j + 2), 2 + j, din (2 + j), h.load (by decide) (by rw [h.rootType]; decide),
      ?_, h.load (by omega) (by rw [ht]; decide), ht, h.readFile hj⟩
    obtain ⟨hdot, hdotdot⟩ := hdots files[j] (List.getElem_mem hj)
    have hfirst : ∀ i (hi : i < (dirents files).length), i < j + 2 →
        cname 14 files[j].entry ≠ cname 14 (dirents files)[i].2 := by
      intro i _ hi
      match i with
      | 0 => exact hdot
      | 1 => exact hdotdot
      | i + 2 =>
        rw [dirents_file (by omega)]
        have := List.pairwise_iff_getElem.mp hnames i j (by simp; omega) (by simpa using hj) (by omega)
        simpa using Ne.symm this
    have := (h.lists hn).dirlookup (j := j + 2) (by omega) (by rw [dirents_file hj]) hfirst
    rw [dirents_file hj] at this
    exact this
  · rw [h.refMap r hr] at h0 he
    rw [h.refMap s hs] at he
    exact h.laid.fills.apart r s h0 he
  · rw [h.refMap r hr] at h0 ⊢
    exact h.marked (h.laid.fills.inUse h0).2
  · exact h.marked (lt_of_lt_of_le hb h.laid.base)

theorem Built.dots (hn : files.length + 2 ≤ 200) {name : List UInt8}
    (hname : cname 14 name = [46] ∨ cname 14 name = [46, 46]) :
    ∃ off, (Fs.mount img).dirlookup (din 1) name = .ok (some (off, 1), Fs.mount img, din 1) := by
  have hlen := length_dirents files
  rcases hname with hname | hname
  · exact ⟨_, (h.lists hn).dirlookup (j := 0) (by omega) hname (by simp)⟩
  · refine ⟨_, (h.lists hn).dirlookup (j := 1) (by omega) hname fun i _ hi => ?_⟩
    obtain rfl : i = 0 := by omega
    rw [hname]
    change [46, 46] ≠ cname 14 [46]
    decide

end

end

theorem mkfs_agrees_iff {files : List Input} (h : Fits files)
    (hnames : (files.map fun f => cname 14 f.entry).Nodup) :
    ∃ img, mkfs files = some img ∧ (Agrees img files ↔ NoDots files) := by
  obtain ⟨img, fb, din, c, himg, hbuilt⟩ := mkfs_built h
  refine ⟨img, himg, fun hagrees f hf => ?_, hbuilt.agrees h.inodes hnames⟩
  obtain ⟨j, hj, rfl⟩ := List.getElem_of_mem hf
  obtain ⟨root, off, inum, d, hroot, hlookup, hload, ht, -⟩ := hagrees.found j hj
  have hone := hbuilt.load (i := 1) (by decide) (by rw [hbuilt.rootType]; decide)
  obtain rfl : din 1 = root := Except.ok.inj (hone.symm.trans hroot)
  rw [← not_or]
  intro hdot
  obtain ⟨off', hoff⟩ := hbuilt.dots h.inodes hdot
  rw [hoff] at hlookup
  obtain ⟨-, rfl⟩ : off' = off ∧ 1 = inum := by simpa using hlookup
  obtain rfl : din 1 = d := Except.ok.inj (hone.symm.trans hload)
  rw [hbuilt.rootType] at ht
  cases ht

def dotFile : Input := ⟨[95, 46], [[65]]⟩

def plainFile : Input := ⟨[97], [[65]]⟩

theorem plainFile_fits : Fits [plainFile] := ⟨by decide, by decide, by decide, by decide⟩

theorem mkfs_agrees_plain : Fits [plainFile] ∧ ∃ img, mkfs [plainFile] = some img ∧
    Agrees img [plainFile] := by
  obtain ⟨img, himg, h⟩ := mkfs_agrees_iff plainFile_fits (List.nodup_singleton _)
  exact ⟨plainFile_fits, img, himg, h.mpr (by decide)⟩

/-- The name `.` of a file `_.` is that of the root directory, which is no file of one byte. -/
theorem dot_file_lost : Fits [dotFile] ∧ ∃ img root bytes, mkfs [dotFile] = some img ∧
    (Fs.mount img).load 1 = .ok root ∧
    (Fs.mount img).dirlookup root dotFile.entry = .ok (some (0, 1), Fs.mount img, root) ∧
    (Fs.mount img).readi root 0 root.size none = .ok (some bytes, Fs.mount img, root) ∧
    bytes ≠ dotFile.bytes := by
  have hfits : Fits [dotFile] := ⟨by decide, by decide, by decide, by decide⟩
  obtain ⟨img, fb, din, c, himg, hbuilt⟩ := mkfs_built hfits
  have hsize : (din 1).size = 512 := by
    rw [hbuilt.rootSize, hbuilt.length_root]
    rfl
  refine ⟨hfits, img, din 1, (Fs.mount img).bytes (din 1) 0 (din 1).size, himg,
    hbuilt.load (by decide) (by rw [hbuilt.rootType]; decide), ?_, ?_, fun he => ?_⟩
  · exact (hbuilt.lists (by decide)).dirlookup (j := 0) (by decide) (by decide) (by simp)
  · refine Fs.readi_found (by rw [hbuilt.rootType]; decide) (by omega) (by omega) (fun x _ hx => ?_) _
    exact (hbuilt.whole 1 (k := x / 512) (by omega) fun _ => by decide).2
  · have := congrArg List.length he
    rw [Fs.length_bytes, hsize] at this
    cases this

end Mkfs
end Xv6
