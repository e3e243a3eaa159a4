import Xv6.Lib.Bytes
import Xv6.FileSteps

/-!
`readi`, `writei` and `filewrite` on regular files: what a call finds and leaves, and when it
succeeds. The chunks that `filewrite` makes of a write add up to the whole write.
-/

namespace Xv6

open Function Lib

variable {src : List UInt8} {n off : Nat}

theorem readi_page (fs : Files) (ino : Nat) (htype : (fs.inode ino).type ≠ 3)
    (hoff : off < 0x80000000) : readi fs (some ino) off 4096 =
      (if (fs.inode ino).data.length < off then none
        else some (((fs.inode ino).data.drop off).take 4096), fs) := by
  have hwrap : ¬ (off + 4096) % 0x100000000 < off := by omega
  unfold readi
  simp only [if_neg htype, hwrap, or_false]
  split
  · rfl
  · rfl

theorem ilock_ok (fs : Files) (ino : Nat) (href : 1 ≤ (fs.inode ino).ref)
    (hlock : (fs.inode ino).locked = false) :
    ilock fs (some ino) = .ok (fs.setInode ino { fs.inode ino with locked := true }) := by
  unfold ilock
  dsimp only
  rw [if_neg (by omega), hlock, if_neg (by decide)]
  rfl

theorem iunlock_ok (fs : Files) (ino : Nat) (href : 1 ≤ (fs.inode ino).ref)
    (hlock : (fs.inode ino).locked = true) :
    iunlock fs (some ino) = .ok (fs.setInode ino { fs.inode ino with locked := false }) := by
  unfold iunlock
  dsimp only
  rw [hlock, if_neg (by simp; omega)]
  rfl

section
variable {fs fs' : Files} {f ino : Nat}

theorem ilock_eq (h : ilock fs (some ino) = .ok fs') :
    fs' = fs.setInode ino { fs.inode ino with locked := true } := by
  unfold ilock at h
  dsimp only at h
  split at h
  · cases h
  · split at h
    · cases h
    · cases h
      rfl

theorem iunlock_eq (h : iunlock fs (some ino) = .ok fs') :
    fs' = fs.setInode ino { fs.inode ino with locked := false } := by
  unfold iunlock at h
  dsimp only at h
  split at h
  · cases h
  · cases h
    rfl

theorem writei_some (htype : (fs.inode ino).type ≠ 3)
    (h : writei fs (some ino) src off = (some n, fs')) :
    n = src.length ∧ off ≤ (fs.inode ino).data.length ∧ off + n ≤ 71680 ∧
      fs' = fs.setInode ino { fs.inode ino with
        data := (fs.inode ino).data.take off ++ src ++ (fs.inode ino).data.drop (off + n) } := by
  unfold writei at h
  dsimp only at h
  rw [if_neg htype] at h
  split at h
  · cases h
  · rename_i hoff
    split at h
    · cases h
    · cases h
      exact ⟨rfl, by omega, by omega, rfl⟩

/-- `writei` on a regular file succeeds from inside the file up to the largest size. -/
theorem writei_ok (htype : (fs.inode ino).type ≠ 3) (hoff : off ≤ (fs.inode ino).data.length)
    (hmax : off + src.length ≤ 71680) :
    writei fs (some ino) src off = (some src.length, fs.setInode ino { fs.inode ino with
      data := (fs.inode ino).data.take off ++ src ++ (fs.inode ino).data.drop (off + src.length) }) := by
  unfold writei
  dsimp only
  rw [if_neg htype, if_neg (by omega), if_neg (by omega)]

/-- The bytes of the file after `src` was written at `off`. -/
def Overwritten (data : List UInt8) (off : Nat) (src data' : List UInt8) : Prop :=
  ∀ o, data'[o]? = if off ≤ o ∧ o < off + src.length then src[o - off]? else data[o]?

theorem Overwritten.nil (data : List UInt8) (off : Nat) : Overwritten data off [] data := by
  intro o
  rw [if_neg]
  rw [List.length_nil]
  omega

theorem Overwritten.append {data data1 data2 src1 src2 : List UInt8}
    (h1 : Overwritten data off src1 data1) (h2 : Overwritten data1 (off + src1.length) src2 data2) :
    Overwritten data off (src1 ++ src2) data2 := by
  intro o
  rw [h2 o, h1 o, List.length_append]
  by_cases hlow : off ≤ o
  · by_cases hmid : o < off + src1.length
    · rw [if_neg (by omega), if_pos ⟨hlow, hmid⟩, if_pos (by omega), List.getElem?_append_left (by omega)]
    · by_cases hhigh : o < off + src1.length + src2.length
      · rw [if_pos (by omega), if_pos (by omega), List.getElem?_append_right (by omega)]
        congr 1
        omega
      · rw [if_neg (by omega), if_neg (by omega), if_neg (by omega)]
  · rw [if_neg (by omega), if_neg (by omega), if_neg (by omega)]

theorem writeChunks_overwrites (hip : (fs.file f).ip = some ino) (htype : (fs.inode ino).type ≠ 3)
    (h : writeChunks n fs f src = .ok (true, fs')) : (fs'.inode ino).type = (fs.inode ino).type ∧
      Overwritten (fs.inode ino).data (fs.file f).off src (fs'.inode ino).data := by
  induction n generalizing fs src with
  | zero =>
    rw [writeChunks] at h
    obtain ⟨hnil, rfl⟩ := Prod.ext_iff.mp (Except.ok.inj h)
    rw [List.isEmpty_iff.mp hnil]
    exact ⟨rfl, .nil _ _⟩
  | succ n ih =>
    rw [writeChunks] at h
    split at h
    · rename_i hnil
      cases h
      rw [List.isEmpty_iff.mp hnil]
      exact ⟨rfl, .nil _ _⟩
    dsimp only at h
    rw [hip] at h
    obtain ⟨fs1, h1, h⟩ := bind_eq_ok.mp h
    have h1 := ilock_eq h1
    have hino : fs1.inode ino = { fs.inode ino with locked := true } := by
      rw [h1]
      exact update_self ..
    have hfile : fs1.file = fs.file := by rw [h1]; rfl
    cases hw : writei fs1 (some ino) (src.take 1536) (fs1.file f).off with
    | mk r fs2 =>
      rw [hw] at h
      dsimp only at h
      obtain ⟨fs3, h3, h⟩ := bind_eq_ok.mp h
      cases r with
      | none => cases h
      | some m =>
        obtain ⟨hm, hoff, hmax, h2⟩ := writei_some (by rw [hino]; exact htype) hw
        rw [hino, hfile] at hoff h2
        rw [hfile] at hmax
        have h3 := iunlock_eq h3
        have hino3 : (fs3.inode ino).type = (fs.inode ino).type ∧ (fs3.inode ino).data =
            (fs.inode ino).data.take (fs.file f).off ++ src.take 1536 ++
              (fs.inode ino).data.drop ((fs.file f).off + m) := by
          rw [h3, h2]
          simp [Files.setInode, Files.setFile]
        have hfile3 : (fs3.file f).ip = some ino ∧ (fs3.file f).off = (fs.file f).off + m := by
          rw [h3, h2]
          simp [Files.setInode, Files.setFile, hfile, hip]
          omega
        obtain ⟨htype3, hrest⟩ := ih hfile3.1 (by rw [hino3.1]; exact htype) h
        refine ⟨htype3.trans hino3.1, ?_⟩
        have hfirst : Overwritten (fs.inode ino).data (fs.file f).off (src.take 1536)
            (fs3.inode ino).data := by
          intro o
          rw [hino3.2]
          subst hm
          exact getElem?_overwrite hoff rfl o
        rw [hfile3.2, hm] at hrest
        rw [← List.take_append_drop 1536 src]
        exact hfirst.append hrest

/-- A write from inside the file up to the largest size succeeds, and leaves the inode
unlocked. -/
theorem writeChunks_total (hip : (fs.file f).ip = some ino) (htype : (fs.inode ino).type ≠ 3)
    (href : 1 ≤ (fs.inode ino).ref) (hlock : (fs.inode ino).locked = false)
    (hoff : (fs.file f).off ≤ (fs.inode ino).data.length)
    (hmax : (fs.file f).off + src.length ≤ 71680) (hn : src.length ≤ n * 1536) :
    ∃ fs', writeChunks n fs f src = .ok (true, fs') ∧
      (fs'.inode ino).ref = (fs.inode ino).ref ∧ (fs'.inode ino).locked = false := by
  induction n generalizing fs src with
  | zero =>
    have hnil : src = [] := List.length_eq_zero_iff.mp (by omega)
    subst hnil
    exact ⟨fs, rfl, rfl, hlock⟩
  | succ n ih =>
    rw [writeChunks]
    split
    · exact ⟨fs, rfl, rfl, hlock⟩
    dsimp only
    rw [hip]
    let fs1 := fs.setInode ino { fs.inode ino with locked := true }
    have hino : fs1.inode ino = { fs.inode ino with locked := true } := update_self ..
    have htake : (src.take 1536).length = min 1536 src.length := List.length_take ..
    have hchunk : (fs1.file f).off + (src.take 1536).length ≤ 71680 := by
      change (fs.file f).off + (src.take 1536).length ≤ 71680
      omega
    have hwrite : writei fs1 (some ino) (src.take 1536) (fs1.file f).off = _ :=
      writei_ok (by rw [hino]; exact htype) (by rw [hino]; exact hoff) hchunk
    let fs2 := fs1.setInode ino { fs1.inode ino with
      data := (fs1.inode ino).data.take (fs.file f).off ++ src.take 1536 ++
        (fs1.inode ino).data.drop ((fs.file f).off + (src.take 1536).length) }
    let fs3 := fs2.setFile f { fs.file f with
      off := ((fs.file f).off + (src.take 1536).length) % 0x100000000 }
    have hino3 : fs3.inode ino = { fs.inode ino with
        locked := true
        data := (fs.inode ino).data.take (fs.file f).off ++ src.take 1536 ++
          (fs.inode ino).data.drop ((fs.file f).off + (src.take 1536).length) } :=
      (update_self ..).trans (by rw [hino])
    have hunlock := iunlock_ok fs3 ino (by rw [hino3]; exact href) (by rw [hino3])
    let fs4 := fs3.setInode ino { fs3.inode ino with locked := false }
    have hino4 : fs4.inode ino = { fs3.inode ino with locked := false } := update_self ..
    have hfile4 : fs4.file f = { fs.file f with
        off := ((fs.file f).off + (src.take 1536).length) % 0x100000000 } := update_self ..
    have hoff4 : (fs4.file f).off ≤ (fs4.inode ino).data.length := by
      rw [hino4, hino3, hfile4]
      simp only [List.length_append, List.length_take, List.length_drop]
      omega
    have hmax4 : (fs4.file f).off + (src.drop 1536).length ≤ 71680 := by
      rw [hfile4, List.length_drop]
      dsimp only
      omega
    have hnext : ∃ fs', writeChunks n fs4 f (src.drop 1536) = .ok (true, fs') ∧
        (fs'.inode ino).ref = (fs4.inode ino).ref ∧ (fs'.inode ino).locked = false :=
      ih (by rw [hfile4]; exact hip) (by rw [hino4, hino3]; exact htype)
        (by rw [hino4, hino3]; exact href) (by rw [hino4]) hoff4 hmax4 (by rw [List.length_drop]; omega)
    obtain ⟨fs', hrest, href', hlock'⟩ := hnext
    refine ⟨fs', bind_eq_ok.mpr ⟨fs1, ilock_ok fs ino href hlock, ?_⟩,
      href'.trans (by rw [hino4, hino3]), hlock'⟩
    rw [hwrite]
    exact bind_eq_ok.mpr ⟨fs4, hunlock, hrest⟩

end

end Xv6
