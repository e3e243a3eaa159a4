import Xv6.MkfsSpec

/-!
The image that `mkfs` writes. Every inode on disk describes the file that was stored under its
number, the bitmap marks the blocks up to the first free one, and for input that fits no
assertion fails.
-/

namespace Xv6

open Function Lib
namespace Mkfs

/-- The inodes on disk and the files they store. -/
structure Good (s : State) (din : Nat → Dinode) (c : Nat → List UInt8) : Prop where
  laid : Laid s.img s.freeblock din c
  disk : ∀ i < 208, rinode s.img i = din i
  size : ∀ i, (din i).size = (c i).length
  fresh : ∀ i, s.freeinode ≤ i → din i = {} ∧ c i = []
  super : getSuperblock (s.img 1) = sb

section
variable {s s' : State} {img img' : Blocks} {fb : Nat} {din din' : Nat → Dinode}
  {c : Nat → List UInt8} {i : Nat} {p : List UInt8}

/-- Metadata blocks and the other fields of inodes do not matter for the layout. -/
theorem Laid.setMeta (h : Laid img fb din c) (hb : ∀ b, 59 ≤ b → img' b = img b)
    (ha : ∀ i, (din' i).addrs = (din i).addrs) : Laid img' fb din' c := by
  have hbase := h.base
  have hfar : ∀ r, refMap img din r ≠ 0 → img' (refMap img din r) = img (refMap img din r) :=
    fun r hr => hb _ (h.fills.inUse hr).1
  have hmap : refMap img' din' = refMap img din := by
    funext ⟨i, p⟩
    have hd : (din' i).ref img' p = (din i).ref img' p := by
      cases p <;> simp only [Dinode.ref, ha]
    exact hd.trans (congrFun (ref_congr fun h0 => hfar (i, .inl 12) h0) p)
  refine ⟨hbase, by rw [hmap]; exact h.fills, fun b hfb => ?_, fun i => ?_⟩
  · rw [hb b (by omega)]
    exact h.zero b hfb
  refine (h.stores i).congr (by rw [ha]) (fun l hl => ?_) fun l hl hl0 => ?_
  · rw [← ref_dataPos hl, ← ref_dataPos hl]
    exact congrFun hmap (i, dataPos l)
  · have := hfar (i, dataPos l)
    rw [refMap, ref_dataPos hl] at this
    exact this hl0

theorem iblock_eq (i : Nat) : sb.iblock i = i / 8 + 32 := rfl

theorem rinode_winode {d : Dinode} (h : d.Fits) : rinode (winode img i d) i = d := by
  rw [rinode, winode, update_self, getDinode_putDinode h]

theorem rinode_winode_ne {d : Dinode} {j : Nat} (h : j ≠ i) :
    rinode (winode img i d) j = rinode img j := by
  unfold rinode winode
  by_cases hb : sb.iblock j = sb.iblock i
  · rw [hb, update_self, getDinode_putDinode_ne]
    rw [iblock_eq, iblock_eq] at hb
    omega
  · rw [update_of_ne hb]

theorem winode_of_ne {d : Dinode} {b : Nat} (h : b ≠ i / 8 + 32) : winode img i d b = img b :=
  update_of_ne h ..

theorem Good.iappend (h : Good s din c) (hi : i < 208) (hlen : (c i).length + p.length ≤ 71680)
    (hfb : s.freeblock + blocksFor ((c i).length + p.length) ≤ 0x10000 + blocksFor (c i).length) :
    ∃ s' d', Mkfs.iappend s i p = some s' ∧ s'.freeinode = s.freeinode ∧
      s'.freeblock + blocksFor (c i).length = s.freeblock + blocksFor ((c i).length + p.length) ∧
      d'.type = (din i).type ∧ d'.nlink = (din i).nlink ∧
      (i < s.freeinode → Good s' (update din i d') (update c i (c i ++ p))) := by
  have hbase := h.laid.base
  obtain ⟨img', fb', d', hloop, hcount, hlaid, hkeep, hmeta⟩ :=
    appendLoop_spec (n := p.length) h.laid le_rfl hlen hfb
  have hmono := blocksFor_mono (show (c i).length ≤ (c i).length + p.length by omega)
  have hfits : { d' with size := (c i).length + p.length }.Fits := by
    have hold : (din i).Fits := by
      rw [← h.disk i hi]
      exact getDinode_fits ..
    rw [hkeep]
    refine ⟨hold.type, hold.major, hold.minor, hold.nlink, by dsimp only; omega, fun a => ?_⟩
    dsimp only
    by_cases ha : d'.addrs a = 0
    · omega
    · have := hlaid.fills.inUse (i := (i, (.inl a : BPos)))
      rw [refMap, update_self] at this
      have : d'.addrs a < fb' := (this ha).2
      omega
  refine ⟨{ s with img := winode img' i { d' with size := (c i).length + p.length }, freeblock := fb' },
    { d' with size := (c i).length + p.length }, ?_, rfl, hcount, by rw [hkeep], by rw [hkeep],
    fun hfree => ?_⟩
  · unfold Mkfs.iappend
    rw [h.disk i hi]
    dsimp only
    rw [h.size i, hloop]
    rfl
  refine ⟨?_, fun j hj => ?_, fun j => ?_, fun j hj => ?_, ?_⟩
  · refine hlaid.setMeta (fun b hb => winode_of_ne (by omega)) fun j => ?_
    by_cases hji : j = i
    · subst hji
      simp
    · simp [hji]
  · by_cases hji : j = i
    · subst hji
      rw [update_self]
      exact rinode_winode hfits
    · rw [update_of_ne hji, ← h.disk j hj]
      dsimp only
      rw [rinode_winode_ne hji, rinode, rinode, hmeta _ (by rw [iblock_eq]; omega)]
  · by_cases hji : j = i
    · subst hji
      rw [update_self, update_self, List.length_append]
    · rw [update_of_ne hji, update_of_ne hji]
      exact h.size j
  · have hji : j ≠ i := by
      rintro rfl
      dsimp only at hj
      omega
    rw [update_of_ne hji, update_of_ne hji]
    exact h.fresh j hj
  · dsimp only
    rw [winode_of_ne (by omega), hmeta 1 (by omega)]
    exact h.super

theorem Good.ialloc {t : Nat} (h : Good s din c) (hi : s.freeinode < 208) (ht : t < 65536) :
    Good (Mkfs.ialloc s t).2 (update din s.freeinode { type := t, nlink := 1 }) c := by
  have hbase := h.laid.base
  obtain ⟨hdin, hc⟩ := h.fresh s.freeinode le_rfl
  have hfits : ({ type := t, nlink := 1 } : Dinode).Fits :=
    ⟨ht, by simp, by simp, by simp, by simp, fun _ => by simp⟩
  refine ⟨?_, fun j hj => ?_, fun j => ?_, fun j hj => ?_, ?_⟩
  · refine h.laid.setMeta (fun b hb => winode_of_ne (by omega)) fun j => ?_
    by_cases hji : j = s.freeinode
    · rw [hji, update_self, hdin]
    · rw [update_of_ne hji]
  · by_cases hji : j = s.freeinode
    · rw [hji, update_self]
      exact rinode_winode hfits
    · rw [update_of_ne hji, ← h.disk j hj]
      exact rinode_winode_ne hji
  · by_cases hji : j = s.freeinode
    · rw [hji, update_self, hc]
      rfl
    · rw [update_of_ne hji]
      exact h.size j
  · change s.freeinode + 1 ≤ j at hj
    rw [update_of_ne (by omega)]
    exact h.fresh j (by omega)
  · change getSuperblock (winode s.img s.freeinode { type := t, nlink := 1 } 1) = sb
    rw [winode_of_ne (by omega)]
    exact h.super

theorem Good.appendChunks (h : Good s din c) (cs : List (List UInt8)) (hi : i < 208)
    (hfree : i < s.freeinode) (hlen : (c i).length + cs.flatten.length ≤ 71680)
    (hfb : s.freeblock + blocksFor ((c i).length + cs.flatten.length) ≤
      0x10000 + blocksFor (c i).length) :
    ∃ s' d', Mkfs.appendChunks i cs s = some s' ∧ s'.freeinode = s.freeinode ∧
      s'.freeblock + blocksFor (c i).length =
        s.freeblock + blocksFor ((c i).length + cs.flatten.length) ∧
      d'.type = (din i).type ∧ d'.nlink = (din i).nlink ∧
      Good s' (update din i d') (update c i (c i ++ cs.flatten)) := by
  induction cs generalizing s din c with
  | nil =>
    refine ⟨s, din i, rfl, rfl, rfl, rfl, rfl, ?_⟩
    rw [List.flatten_nil, List.append_nil, update_eq_self, update_eq_self]
    exact h
  | cons p cs ih =>
    rw [List.flatten_cons, List.length_append] at hlen hfb ⊢
    have hmono := blocksFor_mono
      (show (c i).length + p.length ≤ (c i).length + (p.length + cs.flatten.length) by omega)
    obtain ⟨s1, d1, hs1, hi₁, hcount1, ht1, hn1, hgood⟩ :=
      h.iappend (p := p) hi (by omega) (by omega)
    have hgood := hgood hfree
    have hlen1 : (update c i (c i ++ p) i).length = (c i).length + p.length := by
      rw [update_self, List.length_append]
    obtain ⟨s2, d2, hs2, hi2, hcount2, ht2, hn2, hgood2⟩ := ih hgood (by omega)
      (by rw [hlen1]; omega) (by rw [hlen1, Nat.add_assoc]; omega)
    rw [hlen1, Nat.add_assoc] at hcount2
    rw [update_self] at ht2 hn2
    refine ⟨s2, d2, ?_, hi2.trans hi₁, by omega, ht2.trans ht1, hn2.trans hn1, ?_⟩
    · unfold Mkfs.appendChunks
      rw [hs1]
      exact hs2
    · rw [update_idem, update_idem, update_self,
        List.append_assoc] at hgood2
      exact hgood2

/-- The entries of files that get the inodes from `n` on. -/
def entries : Nat → List Input → List UInt8
  | _, [] => []
  | n, f :: fs => direntBytes n f.entry ++ entries (n + 1) fs

theorem length_entries (n : Nat) (fs : List Input) : (entries n fs).length = 16 * fs.length := by
  induction fs generalizing n with
  | nil => rfl
  | cons f fs ih =>
    rw [entries, List.length_append, length_direntBytes, ih, List.length_cons]
    omega

def fileBlocks (fs : List Input) : Nat := (fs.map fun f => blocksFor f.bytes.length).sum

/-- What is stored once the files `fs` have been added to the directory. -/
structure Added (din : Nat → Dinode) (c : Nat → List UInt8) (n : Nat) (fs : List Input)
    (din' : Nat → Dinode) (c' : Nat → List UInt8) : Prop where
  root : c' 1 = c 1 ++ entries n fs
  rootType : (din' 1).type = (din 1).type
  old : ∀ i, i ≠ 1 → i < n → c' i = c i ∧ din' i = din i
  new : ∀ j (h : j < fs.length), c' (n + j) = fs[j].bytes ∧ (din' (n + j)).type = 2

theorem Good.addFiles (h : Good s din c) (fs : List Input) (hbase : 1 < s.freeinode)
    (hnames : ∀ f ∈ fs, 47 ∉ f.name) (hshort : ∀ f ∈ fs, f.bytes.length ≤ 71680)
    (hinodes : s.freeinode + fs.length ≤ 208)
    (hroot : (c 1).length + 16 * fs.length ≤ 71680)
    (hfb : s.freeblock + blocksFor ((c 1).length + 16 * fs.length) + fileBlocks fs ≤
      0x10000 + blocksFor (c 1).length) :
    ∃ s' din' c', Mkfs.addFiles fs s = some s' ∧ Good s' din' c' ∧
      s'.freeinode = s.freeinode + fs.length ∧
      s'.freeblock + blocksFor (c 1).length =
        s.freeblock + blocksFor ((c 1).length + 16 * fs.length) + fileBlocks fs ∧
      Added din c s.freeinode fs din' c' := by
  induction fs generalizing s din c with
  | nil =>
    refine ⟨s, din, c, rfl, h, rfl, rfl, ?_, rfl, fun _ _ _ => ⟨rfl, rfl⟩, nofun⟩
    rw [entries, List.append_nil]
  | cons f fs ih =>
    simp only [List.mem_cons, forall_eq_or_imp] at hnames hshort
    rw [List.length_cons] at hinodes hroot hfb ⊢
    have hsum : fileBlocks (f :: fs) = blocksFor f.bytes.length + fileBlocks fs := rfl
    rw [hsum] at hfb ⊢
    have hmono := blocksFor_mono
      (show (c 1).length + 16 ≤ (c 1).length + 16 * (fs.length + 1) by omega)
    have hmono' := blocksFor_mono (show (c 1).length ≤ (c 1).length + 16 by omega)
    have hone : (1 : Nat) ≠ s.freeinode := by omega
    have h1 := h.ialloc (t := 2) (by omega) (by decide)
    obtain ⟨s2, d2, hs2, hi2, hcount2, ht2, -, h2⟩ := h1.iappend (i := 1)
      (p := direntBytes s.freeinode f.entry) (by omega) (by rw [length_direntBytes]; omega)
      (by rw [length_direntBytes]
          change s.freeblock + _ ≤ _
          omega)
    have h2 := h2 (show 1 < s.freeinode + 1 by omega)
    rw [length_direntBytes] at hcount2
    rw [update_of_ne hone] at ht2
    obtain ⟨hdin, hc⟩ := h.fresh s.freeinode le_rfl
    have hc2 : update c 1 (c 1 ++ direntBytes s.freeinode f.entry) s.freeinode = [] := by
      rw [update_of_ne (Ne.symm hone), hc]
    change s2.freeinode = s.freeinode + 1 at hi2
    change s2.freeblock + _ = s.freeblock + _ at hcount2
    obtain ⟨s3, d3, hs3, hi3, hcount3, ht3, -, h3⟩ := h2.appendChunks (i := s.freeinode)
      f.chunks (by omega) (by omega) (by rw [hc2]; simpa [Input.bytes] using hshort.1)
      (by rw [hc2, List.length_nil, Nat.zero_add]
          change _ + blocksFor f.bytes.length ≤ _
          omega)
    rw [hc2, List.length_nil, Nat.zero_add] at hcount3
    rw [hc2, List.nil_append] at h3
    change s3.freeblock + _ = s2.freeblock + blocksFor f.bytes.length at hcount3
    have hzero : blocksFor 0 = 0 := rfl
    -- the directory after the entry of `f`
    have hc3 : update (update c 1 (c 1 ++ direntBytes s.freeinode f.entry))
        s.freeinode f.chunks.flatten 1 = c 1 ++ direntBytes s.freeinode f.entry := by
      rw [update_of_ne hone, update_self]
    have hlen3 : (update (update c 1 (c 1 ++ direntBytes s.freeinode f.entry))
        s.freeinode f.chunks.flatten 1).length = (c 1).length + 16 := by
      rw [hc3, List.length_append, length_direntBytes]
    obtain ⟨s', din', c', hs', hgood, hi', hcount', hadded⟩ := ih h3 (by omega) hnames.2 hshort.2
      (by omega) (by rw [hlen3]; omega) (by
        rw [hlen3, show (c 1).length + 16 + 16 * fs.length = (c 1).length + 16 * (fs.length + 1) by
          omega]
        omega)
    rw [hlen3, show (c 1).length + 16 + 16 * fs.length = (c 1).length + 16 * (fs.length + 1) by
      omega] at hcount'
    have hn : s3.freeinode = s.freeinode + 1 := hi3.trans hi2
    rw [hn] at hadded
    refine ⟨s', din', c', ?_, hgood, by omega, by omega, ?_⟩
    · unfold Mkfs.addFiles Mkfs.addFile
      rw [if_neg hnames.1]
      dsimp only
      rw [show (Mkfs.ialloc s 2).1 = s.freeinode from rfl, hs2]
      change (Mkfs.appendChunks s.freeinode f.chunks s2 >>= Mkfs.addFiles fs) = _
      rw [hs3]
      exact hs'
    refine ⟨?_, ?_, fun j hj hlt => ?_, fun j hj => ?_⟩
    · rw [hadded.root, hc3, entries, List.append_assoc]
    · rw [hadded.rootType, update_of_ne hone, update_self]
      exact ht2
    · obtain ⟨h1, h2⟩ := hadded.old j hj (by omega)
      rw [h1, h2, update_of_ne (by omega), update_of_ne hj,
        update_of_ne (by omega), update_of_ne hj, update_of_ne (by omega)]
      exact ⟨rfl, rfl⟩
    · cases j with
      | zero =>
        obtain ⟨h1, h2⟩ := hadded.old s.freeinode (Ne.symm hone) (by omega)
        rw [Nat.add_zero, h1, h2, update_self, update_self]
        refine ⟨rfl, ht3.trans ?_⟩
        rw [update_of_ne (Ne.symm hone), update_self]
      | succ j =>
        have := hadded.new j (by simpa using hj)
        rw [show s.freeinode + (j + 1) = s.freeinode + 1 + j by omega]
        exact this

def dots : List UInt8 := direntBytes 1 [46] ++ direntBytes 1 [46, 46]

theorem length_dots : dots.length = 32 := by
  rw [dots, List.length_append, length_direntBytes, length_direntBytes]

theorem getDinode_zero (k : Nat) : getDinode (fun _ => 0) k = {} := by
  ext <;> simp [getDinode, leAt]

theorem Good.start : Good ⟨update (fun _ _ => 0) 1 (putSuperblock (fun _ => 0) sb), 1, nmeta⟩
    (fun _ => {}) fun _ => [] := by
  refine ⟨⟨le_rfl, ⟨fun n _ => ?_, fun r _ hr => ?_⟩, fun b hb => ?_, fun _ => ⟨Nat.zero_le _, ?_, ?_, nofun⟩⟩,
    fun i hi => ?_, fun _ => rfl, fun _ _ => ⟨rfl, rfl⟩, ?_⟩
  · refine iff_of_false (by simp only [nmeta, nlog, ninodeblocks, nbitmap]; omega) ?_
    rintro ⟨⟨i, p⟩, hp⟩
    cases p <;> simp_all [refMap, Dinode.ref]
  · obtain ⟨i, p⟩ := r
    cases p <;> simp_all [refMap, Dinode.ref]
  · change 59 ≤ b at hb
    have hb1 : b ≠ 1 := by omega
    change update (fun _ _ => 0) 1 (putSuperblock (fun _ => 0) sb) b = fun _ => 0
    rw [update_of_ne hb1]
  · intro k hk
    refine iff_of_false ?_ (by simp)
    unfold Dinode.blockAt
    split <;> simp
  · simp
  · change getDinode (update (fun _ _ => 0) 1 (putSuperblock (fun _ => 0) sb) (i / 8 + 32))
      (i % 8) = {}
    rw [update_of_ne (by omega)]
    exact getDinode_zero _
  · change getSuperblock (update (fun _ _ => 0) 1 (putSuperblock (fun _ => 0) sb) 1) = sb
    rw [update_self]
    exact getSuperblock_put (by decide)

theorem rootOnly_good : ∃ s din c, rootOnly = some s ∧ Good s din c ∧ s.freeinode = 2 ∧
    s.freeblock = 60 ∧ c 1 = dots ∧ (din 1).type = 1 ∧ ∀ i, i ≠ 1 → c i = [] ∧ din i = {} := by
  have h1 := Good.start.ialloc (t := 1) (by decide) (by decide)
  obtain ⟨s2, d2, hs2, hi2, hcount2, ht2, -, h2⟩ := h1.iappend (i := 1) (p := direntBytes 1 [46])
    (by decide) (by rw [length_direntBytes]; decide) (by rw [length_direntBytes]; decide)
  have h2 := h2 (by decide)
  have hlen : (update (fun _ => ([] : List UInt8)) 1 ([] ++ direntBytes 1 [46]) 1).length = 16 := by
    rw [update_self, List.nil_append, length_direntBytes]
  rw [length_direntBytes] at hcount2
  have hfb2 : s2.freeblock = 60 := hcount2
  obtain ⟨s3, d3, hs3, hi3, hcount3, ht3, -, h3⟩ := h2.iappend (i := 1) (p := direntBytes 1 [46, 46])
    (by decide) (by rw [length_direntBytes, hlen]; decide)
    (by rw [length_direntBytes, hlen, hfb2]; decide)
  have h3 := h3 (by rw [hi2]; decide)
  rw [length_direntBytes, hlen, hfb2] at hcount3
  refine ⟨s3, _, _, ?_, h3, hi3.trans hi2, ?_, ?_, ?_, fun i hi => ?_⟩
  · unfold rootOnly
    dsimp only
    change (Mkfs.iappend _ 1 (direntBytes 1 [46]) >>= fun s => Mkfs.iappend s 1 _) = _
    rw [hs2]
    exact hs3
  · exact Nat.add_right_cancel (m := 1) hcount3
  · rw [update_self, update_self, List.nil_append, dots]
  · rw [update_self, ht3, update_self, ht2, update_self]
  · rw [update_of_ne hi, update_of_ne hi, update_of_ne hi,
      update_of_ne hi]
    exact ⟨rfl, update_of_ne hi ..⟩

/-- The input fits: every file, the inodes and the blocks. -/
structure Fits (files : List Input) : Prop where
  names : ∀ f ∈ files, 47 ∉ f.name
  inodes : files.length + 2 ≤ 200
  short : ∀ f ∈ files, f.bytes.length ≤ 71680
  blocks : 59 + blocksFor (16 * (files.length + 2)) + fileBlocks files ≤ 1000

/-- The image of a list of files. The size of the root directory is rounded up. -/
structure Built (img : Blocks) (files : List Input) (fb : Nat) (din : Nat → Dinode)
    (c : Nat → List UInt8) : Prop where
  laid : Laid img fb din c
  disk : ∀ i < 208, rinode img i = din i
  super : getSuperblock (img 1) = sb
  bitmap : ∀ n < 4096, bitAt (img 58) n = decide (n < fb)
  bound : fb ≤ 1000
  root : c 1 = dots ++ entries 2 files
  rootSize : (din 1).size = ((c 1).length / 512 + 1) * 512
  rootType : (din 1).type = 1
  size : ∀ i, i ≠ 1 → (din i).size = (c i).length
  file : ∀ j (h : j < files.length), c (2 + j) = files[j].bytes ∧ (din (2 + j)).type = 2
  none : ∀ i, i ≠ 1 → i < 2 ∨ files.length + 2 ≤ i → c i = [] ∧ din i = {}

theorem bitAt_zero (n : Nat) : bitAt (fun _ => 0) n = false := by
  simp [bitAt]

theorem bitAt_markUsed (n m : Nat) : bitAt (markUsed n fun _ => 0) m = decide (m < n) := by
  induction n with
  | zero => rw [markUsed, bitAt_zero, decide_eq_false (by omega)]
  | succ n ih =>
    rw [markUsed, bitAt_setBit, ih, ← Bool.decide_or]
    exact decide_eq_decide.mpr (by omega)

theorem mkfs_counted {files : List Input} (h : Fits files) :
    ∃ img fb din c, mkfs files = some img ∧ Built img files fb din c ∧
      fb = 59 + blocksFor (16 * (files.length + 2)) + fileBlocks files := by
  have hblocks := h.blocks
  have hinodes := h.inodes
  obtain ⟨s0, din0, c0, hs0, h₀, hi0, hfb0, hc0, ht0, hnone⟩ := rootOnly_good
  have hlen0 : (c0 1).length = 32 := by rw [hc0, length_dots]
  have hone : blocksFor 32 = 1 := rfl
  obtain ⟨s, din, c, hs, hgood, hi, hcount, hadded⟩ := h₀.addFiles files (by omega) h.names
    h.short (by omega) (by omega) (by
      rw [hlen0, hfb0, show 32 + 16 * files.length = 16 * (files.length + 2) by omega]
      omega)
  rw [hlen0, hfb0, show 32 + 16 * files.length = 16 * (files.length + 2) by omega] at hcount
  have hfb : s.freeblock ≤ 1000 := by omega
  have hlen : (c 1).length = 16 * (files.length + 2) := by
    rw [hadded.root, List.length_append, hlen0, length_entries]
    omega
  have hfits : { din 1 with size := ((c 1).length / 512 + 1) * 512 }.Fits := by
    have hold : (din 1).Fits := by
      rw [← hgood.disk 1 (by omega)]
      exact getDinode_fits ..
    exact ⟨hold.type, hold.major, hold.minor, hold.nlink, by dsimp only; omega, hold.addrs⟩
  have hfix : fixRoot s.img = winode s.img 1 { din 1 with size := ((c 1).length / 512 + 1) * 512 } := by
    unfold fixRoot
    rw [hgood.disk 1 (by omega)]
    dsimp only
    rw [hgood.size 1]
  refine ⟨update (fixRoot s.img) 58 (markUsed s.freeblock fun _ => 0), s.freeblock,
    update din 1 { din 1 with size := ((c 1).length / 512 + 1) * 512 }, c, ?_, ?_, by omega⟩
  · unfold mkfs
    rw [hs0]
    change (Mkfs.addFiles files s0 >>= fun s => Mkfs.balloc (fixRoot s.img) s.freeblock) = _
    rw [hs]
    change Mkfs.balloc (fixRoot s.img) s.freeblock = _
    rw [Mkfs.balloc, if_pos (by omega)]
    rfl
  rw [hfix]
  have hother : ∀ i, i ≠ 1 → update din 1
      { din 1 with size := ((c 1).length / 512 + 1) * 512 } i = din i := fun i hi =>
    update_of_ne hi ..
  refine ⟨?_, fun i hi => ?_, ?_, fun n hn => ?_, hfb, ?_, ?_, ?_, fun i hi => ?_, fun j hj => ?_,
    fun i hi hrange => ?_⟩
  · refine hgood.laid.setMeta (fun b hb => ?_) fun i => ?_
    · rw [update_of_ne (by omega), winode_of_ne (by omega)]
    · by_cases hi : i = 1
      · subst hi
        rw [update_self]
      · rw [hother i hi]
  · have hfar : rinode (update (winode s.img 1
        { din 1 with size := ((c 1).length / 512 + 1) * 512 }) 58 (markUsed s.freeblock fun _ => 0)) i =
        rinode (winode s.img 1 { din 1 with size := ((c 1).length / 512 + 1) * 512 }) i := by
      rw [rinode, rinode, update_of_ne (by rw [iblock_eq]; omega)]
    rw [hfar]
    by_cases hi1 : i = 1
    · subst hi1
      rw [update_self]
      exact rinode_winode hfits
    · rw [hother i hi1, rinode_winode_ne hi1]
      exact hgood.disk i hi
  · rw [update_of_ne (by omega), winode_of_ne (by omega)]
    exact hgood.super
  · rw [update_self]
    exact bitAt_markUsed _ _
  · rw [hadded.root, hc0, hi0]
  · rw [update_self]
  · rw [update_self]
    exact hadded.rootType.trans ht0
  · rw [hother i hi]
    exact hgood.size i
  · have hnew := hadded.new j hj
    rw [hi0] at hnew
    rw [hother _ (by omega)]
    exact hnew
  · rw [hother i hi]
    rcases hrange with hlt | hge
    · obtain ⟨h1, h2⟩ := hadded.old i hi (by omega)
      rw [h1, h2]
      exact hnone i hi
    · exact (hgood.fresh i (by omega)).symm

theorem mkfs_built {files : List Input} (h : Fits files) :
    ∃ img fb din c, mkfs files = some img ∧ Built img files fb din c := by
  obtain ⟨img, fb, din, c, himg, hbuilt, -⟩ := mkfs_counted h
  exact ⟨img, fb, din, c, himg, hbuilt⟩

end

end Mkfs
end Xv6
