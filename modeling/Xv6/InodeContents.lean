import Xv6.BlockOwnership

/-!
The contents of inodes. In a well-formed file system `readi` returns the part of the contents
that it is asked for, and `writei` replaces a part of them, behind the old end where it has to;
the contents of all other inodes are the same. A write that would leave a gap or pass the end
of the largest file is refused and changes nothing.
-/

namespace Xv6

open Function Lib
namespace Fs

def content (fs : Fs) (d : Dinode) : List UInt8 := fs.bytes d 0 d.size

def overwrite (data : List UInt8) (off : Nat) (src : List UInt8) : List UInt8 :=
  data.take off ++ src ++ data.drop (off + src.length)

section
variable {fs fs' fs1 : Fs} {d d' ip ip' ip1 : Dinode} {din : Nat → Dinode} {i off m n o x : Nat}
  {src : List UInt8}

theorem drop_take_bytes (h : o ≤ n) (m : Nat) :
    ((fs.bytes d 0 n).drop o).take m = fs.bytes d o (min m (n - o)) := by
  have hsplit : fs.bytes d 0 n = fs.bytes d 0 o ++ fs.bytes d o (n - o) := by
    have := fs.bytes_add d 0 o (n - o)
    rwa [Nat.add_sub_cancel' h, Nat.zero_add] at this
  rw [hsplit, List.drop_left' (fs.length_bytes d 0 o), bytes, bytes, ← List.map_take, List.take_range]

theorem readi_content (h : fs.Whole d) (ht : d.type ≠ 3) (o : Nat) (hm : m < 0x100000000)
    (dev : Option (List UInt8)) :
    fs.readi d o m dev = .ok (if d.size < o ∨ 0x100000000 ≤ o + m then none
      else some (((fs.content d).drop o).take m), fs, d) := by
  obtain ⟨hsize, hblock⟩ := h
  have htest : (d.size < o ∨ (o + m) % 0x100000000 < o) ↔ (d.size < o ∨ 0x100000000 ≤ o + m) := by
    omega
  unfold readi
  rw [if_neg ht]
  by_cases hbad : d.size < o ∨ 0x100000000 ≤ o + m
  · rw [if_pos (htest.mpr hbad), if_pos hbad]
    rfl
  rw [if_neg (mt htest.mp hbad), if_neg hbad]
  dsimp only
  have hn : (if d.size < o + m then d.size - o else m) = min m (d.size - o) := by
    split_ifs <;> omega
  rw [hn, readLoop_found le_rfl (by omega) fun x _ hx => hblock x (by omega), content,
    drop_take_bytes (by omega)]
  rfl

theorem byteAt_congr (href : d'.ref fs'.block = d.ref fs.block) (hx : x < 71680)
    (hblock : fs'.block (d.ref fs.block (dataPos (x / 512))) = fs.block (d.ref fs.block (dataPos (x / 512)))) :
    fs'.byteAt d' x = fs.byteAt d x := by
  have hx512 : x / 512 < 140 := by omega
  rw [byteAt, byteAt, ← ref_dataPos hx512, ← ref_dataPos hx512, href, hblock]

theorem content_overwrite (hoff : off ≤ d.size) (hsize : d'.size = max d.size (off + src.length))
    (hbytes : ∀ x < d'.size, fs'.byteAt d' x = splice (fs.byteAt d) off src x) :
    fs'.content d' = overwrite (fs.content d) off src := by
  have hsame : fs'.content d' = (List.range d'.size).map (splice (fs.byteAt d) off src) :=
    List.map_congr_left fun x hx => by
      rw [Nat.zero_add]
      exact hbytes x (List.mem_range.mp hx)
  have hold : fs.content d = (List.range d.size).map (fs.byteAt d) :=
    List.map_congr_left fun x _ => by rw [Nat.zero_add]
  rw [hsame, hold, hsize, overwrite, map_range_splice _ _ hoff]

/-- A write that `writei` refuses: it begins behind the end, or its end is no number of 32 bits,
or is behind that of the largest file. -/
def Refused (size off n : Nat) : Prop := size < off ∨ 0x100000000 ≤ off + n ∨ 140 * 512 < off + n

theorem writei_refused (ht : ip.type ≠ 3) (dev : Option Nat) (h : Refused ip.size off src.length) :
    fs.writei i ip src off dev = .ok (none, fs, ip) := by
  unfold Refused at h
  unfold writei
  rw [if_neg ht]
  split_ifs with h1 h2
  · rfl
  · rfl
  · omega

theorem writei_eq (ht : ip.type ≠ 3) (dev : Option Nat) (h : ¬ Refused ip.size off src.length) :
    fs.writei i ip src off dev = writeLoop src.length fs ip src off >>= fun r =>
      if 0 < src.length ∧ r.2.2.size < r.1 then
        .ok (some src.length, r.2.1.iupdate i { r.2.2 with size := r.1 }, { r.2.2 with size := r.1 })
      else .ok (some src.length, r.2.1, r.2.2) := by
  unfold Refused at h
  unfold writei
  rw [if_neg ht, if_neg (by omega), if_neg (by omega)]
  rfl

structure Written (fs : Fs) (i : Nat) (src : List UInt8) (off : Nat) (fs' : Fs) (ip' : Dinode) : Prop where
  bytes : ∃ fs1 ip1, fs.Wrote fs.live i (fs.dinode i) src off fs1 ip1 ∧ ip'.addrs = ip1.addrs ∧
    ∀ c, fs1.InUse c → fs'.block c = fs1.block c
  size : ip'.size = max (fs.dinode i).size (off + src.length)
  type : ip'.type = (fs.dinode i).type

theorem Own.writei_written (h : fs.Own) (hi : i < fs.sb.ninodes) (ht : (fs.dinode i).type ≠ 0)
    (hdev : (fs.dinode i).type ≠ 3) (dev : Option Nat)
    (hfit : ¬ Refused (fs.dinode i).size off src.length)
    (hfree : (fs.lacking (fs.dinode i) (touched off src.length)).card ≤ fs.freeBlocks.card) :
    ∃ fs' ip', fs.writei i (fs.dinode i) src off dev = .ok (some src.length, fs', ip') ∧
      fs.Written i src off fs' ip' := by
  have hlive := live_of_type hi ht
  have hend : off ≤ (fs.dinode i).size ∧ off + src.length ≤ 71680 := by
    unfold Refused at hfit
    omega
  obtain ⟨⟨off', fs1, ip1⟩, hloop⟩ := h.names.writeLoop_total h.sound hlive le_rfl hend.2 hfree
  obtain ⟨rfl, hwrote⟩ := h.names.wrote h.sound hlive le_rfl hend.2 hloop
  have hsize : ip1.size = (fs.dinode i).size := (congrArg Dinode.size hwrote.keeps :)
  have htype : ip1.type = (fs.dinode i).type := (congrArg Dinode.type hwrote.keeps :)
  rw [writei_eq hdev dev hfit]
  simp only [hloop, bind, Except.bind]
  split_ifs with hgrow
  · refine ⟨_, _, rfl, ⟨fs1, ip1, hwrote, rfl, fun c hc => update_of_ne ?_ ..⟩, ?_, htype⟩
    · -- the inodes come before the data
      have hs1 : fs1.sb.Sound := by
        rw [hwrote.moves.kept.sb]
        exact h.sound
      have h1 := hs1.inodes i (by rw [hwrote.moves.kept.sb]; exact hi)
      have h2 := hs1.bitmap c hc.2.1
      have h3 := hc.1
      unfold Superblock.bblock at h2
      omega
    · dsimp only
      omega
  · exact ⟨_, _, rfl, ⟨fs1, ip1, hwrote, rfl, fun _ _ => rfl⟩, by omega, htype⟩

theorem Written.byteAt (h : fs.Written i src off fs' ip') (hx : x < 71680)
    (hor : (fs.dinode i).blockAt fs.block (x / 512) ≠ 0 ∨ off ≤ x ∧ x < off + src.length) :
    fs'.byteAt ip' x = splice (fs.byteAt (fs.dinode i)) off src x := by
  obtain ⟨fs1, ip1, hwrote, haddrs, hblocks⟩ := h.bytes
  rw [← hwrote.bytes x hx hor]
  have hinUse : ∀ p, ip1.ref fs1.block p ≠ 0 → fs1.InUse (ip1.ref fs1.block p) := by
    intro p hp
    have := hwrote.moves.names.fills.inUse (i := (i, p)) (by rw [refMap, update_self]; exact hp)
    rwa [refMap, update_self] at this
  have hx512 : x / 512 < 140 := by omega
  refine byteAt_congr ?_ hx (hblocks _ (hinUse _ ?_))
  · rw [ref_addrs haddrs]
    exact ref_congr fun h0 => hblocks _ (hinUse (.inl 12) h0)
  · rw [ref_dataPos hx512]
    rcases hor with h0 | hr
    · rw [hwrote.blockAt hx512 h0]
      exact h0
    · exact hwrote.filled x hr.1 hr.2

theorem Written.byteAt_ne (h : fs.Written i src off fs' ip') (hown : fs.Own) {j : Nat} (hji : j ≠ i)
    (hj : j < fs.sb.ninodes) (ht : (fs.dinode j).type ≠ 0) (hx : x < (fs.dinode j).size) :
    fs'.byteAt (fs.dinode j) x = fs.byteAt (fs.dinode j) x := by
  obtain ⟨fs1, ip1, hwrote, -, hblocks⟩ := h.bytes
  have hlive := live_of_type hj ht
  obtain ⟨hsize, hwhole⟩ := hown.whole j hj ht
  have hsame : (fs.dinode j).ref fs1.block = (fs.dinode j).ref fs.block := by
    have := hwrote.moves.apart j hji
    rwa [hlive] at this
  -- a block that inode `j` names is in use and is not written
  have hblock : ∀ p, (fs.dinode j).ref fs.block p ≠ 0 →
      fs'.block ((fs.dinode j).ref fs.block p) = fs.block ((fs.dinode j).ref fs.block p) := by
    intro p hp
    have hother := hwrote.others j hji p (by rw [hlive]; exact hp)
    rw [hlive] at hother
    rw [← hother]
    refine hblocks _ ?_
    have := hwrote.moves.names.fills.inUse (i := (j, p))
      (by rw [refMap, update_of_ne hji, hlive, hsame]; exact hp)
    rwa [refMap, update_of_ne hji, hlive, hsame] at this
  refine byteAt_congr ?_ (by omega) (hblock _ ?_)
  · exact ref_congr fun h0 => hblock (.inl 12) h0
  · rw [ref_dataPos (by omega)]
    exact hwhole x hx

/-- The law of `writei` and `readi`. A write is refused exactly when it would leave a gap or pass
the end of the largest file, and then nothing changes. Any other write, when there are blocks
for it, returns its length and leaves an inode, on disk as in memory, whose contents are the old
ones with the new bytes written over them; `readi` returns any part of them. No other inode
changes, and neither do its contents. -/
theorem writei_readi (h : fs.Own) (hi : i < fs.sb.ninodes) (ht : (fs.dinode i).type ≠ 0)
    (hdev : (fs.dinode i).type ≠ 3) (src : List UInt8) (off : Nat) (dev : Option Nat) :
    (fs.writei i (fs.dinode i) src off dev = .ok (none, fs, fs.dinode i) ↔
      Refused (fs.dinode i).size off src.length) ∧
    (¬ Refused (fs.dinode i).size off src.length →
      (fs.lacking (fs.dinode i) (touched off src.length)).card ≤ fs.freeBlocks.card →
      ∃ fs' ip', fs.writei i (fs.dinode i) src off dev = .ok (some src.length, fs', ip') ∧
        ip'.size = max (fs.dinode i).size (off + src.length) ∧ fs'.dinode i = ip' ∧
        (∀ o m answer, m < 0x100000000 → fs'.readi ip' o m answer =
          .ok (if ip'.size < o ∨ 0x100000000 ≤ o + m then none
            else some (((overwrite (fs.content (fs.dinode i)) off src).drop o).take m), fs', ip')) ∧
        ∀ j < fs.sb.ninodes, j ≠ i → fs'.dinode j = fs.dinode j ∧
          ((fs.dinode j).type ≠ 0 → fs'.content (fs.dinode j) = fs.content (fs.dinode j))) := by
  refine ⟨⟨fun hw => ?_, writei_refused hdev dev⟩, fun hfit hfree => ?_⟩
  · by_contra hfit
    rw [writei_eq hdev dev hfit] at hw
    obtain ⟨r, -, hw⟩ := bind_eq_ok.mp hw
    split_ifs at hw
    · cases hw
    · cases hw
  obtain ⟨fs', ip', hw, hwritten⟩ := h.writei_written hi ht hdev dev hfit hfree
  obtain ⟨hown, hu, -, htype⟩ := h.writei hi ht hw
  obtain ⟨hsize, hwhole⟩ := h.whole i hi ht
  have hend : off ≤ (fs.dinode i).size ∧ off + src.length ≤ 71680 := by
    unfold Refused at hfit
    omega
  have hcontent : fs'.content ip' = overwrite (fs.content (fs.dinode i)) off src := by
    refine content_overwrite hend.1 hwritten.size fun x hx => ?_
    have hmax := hwritten.size
    refine hwritten.byteAt (by omega) ?_
    by_cases hold : x < (fs.dinode i).size
    · exact Or.inl (hwhole x hold)
    · exact Or.inr (by omega)
  refine ⟨fs', ip', hw, hwritten.size, hu.self, fun o m answer hm => ?_, fun j hj hji => ⟨hu.others j hj hji, fun htj => ?_⟩⟩
  · have hwhole' : fs'.Whole ip' := by
      have := hown.whole i (by rw [hu.sb]; exact hi) (by rw [hu.self, htype]; exact ht)
      rwa [hu.self] at this
    rw [← hcontent]
    exact readi_content hwhole' (by rw [htype]; exact hdev) o hm answer
  · exact List.map_congr_left fun x hx => by
      rw [Nat.zero_add]
      exact hwritten.byteAt_ne h hji hj htj (List.mem_range.mp hx)

end

/-- The file of one byte of an image is overwritten by two bytes. -/
theorem writei_readi_plain : ∃ img, Mkfs.mkfs [Mkfs.plainFile] = some img ∧ (Fs.mount img).Own ∧
    ∃ fs' ip', (Fs.mount img).writei 2 ((Fs.mount img).dinode 2) [66, 67] 0 none = .ok (some 2, fs', ip') ∧
      fs'.readi ip' 0 5 none = .ok (some [66, 67], fs', ip') := by
  obtain ⟨img, fb, din, c, himg, hbuilt⟩ := Mkfs.mkfs_built Mkfs.plainFile_fits
  have heval : (Mkfs.mkfs [Mkfs.plainFile]).any (fun img => decide (2 < (Fs.mount img).sb.ninodes ∧
      ((Fs.mount img).dinode 2).type = 2 ∧ ((Fs.mount img).dinode 2).size = 1 ∧
      ((Fs.mount img).lacking ((Fs.mount img).dinode 2) (touched 0 2)).card ≤
        (Fs.mount img).freeBlocks.card)) = true := by decide +kernel
  rw [himg, Option.any_some, decide_eq_true_iff] at heval
  obtain ⟨hi, htype, hsize, hfree⟩ := heval
  have hown := hbuilt.own (by decide) (by decide)
  obtain ⟨fs', ip', hw, hmax, -, hread, -⟩ := (writei_readi hown hi (by rw [htype]; decide)
    (by rw [htype]; decide) [66, 67] 0 none).2 (by rw [hsize]; unfold Refused; decide) hfree
  refine ⟨img, himg, hown, fs', ip', hw, ?_⟩
  have hshort : ((Fs.mount img).content ((Fs.mount img).dinode 2)).length ≤ 2 := by
    rw [content, length_bytes, hsize]
    decide
  rw [hread 0 5 none (by decide), if_neg (by rw [hmax, hsize]; decide), List.drop_zero, overwrite,
    List.take_zero, List.drop_eq_nil_of_le (by simpa using hshort)]
  rfl

end Fs
end Xv6
