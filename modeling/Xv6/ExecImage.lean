import Xv6.ArgStack
import Xv6.CopyoutSafety
import Xv6.Launch
import Xv6.Lib.Bytes

/-!
The image `exec` builds is the one the ELF file describes: zeroes, overlaid with the LOAD
segments in the order of their headers. The induction over the loops of `exec` carries the
image built so far as a function from addresses to bytes, together with the write permission
that the segments seen so far ask for.
-/

namespace Xv6

open Lib PgDir Multiset

variable {n off sz : Nat} {d : PgDir} {lost xs : List Frame} {bytes : List UInt8} {s : Segment}
  {counts : Frame → Nat} {x : Frame} {m : Machine}

/-- A LOAD segment: `filesz` bytes of the file, from `off` on, belong at `vaddr`. -/
structure Segment where
  off : Nat
  vaddr : Nat
  filesz : Nat
  writable : Bool
deriving DecidableEq, Repr

/-- The LOAD segments among `n` program headers from offset `off` of a file on. -/
def segments (data : List UInt8) : Nat → Nat → List Segment
  | 0, _ => []
  | n + 1, off =>
    let ph := (data.drop off).take 32
    if field ph 0 4 = 1 then
      ⟨field ph 4 4, field ph 8 4, field ph 16 4, field ph 24 4 &&& 2 ≠ 0⟩ ::
        segments data n (off + 32)
    else segments data n (off + 32)

def elfSegments (data : List UInt8) : List Segment :=
  segments data (field (data.take 52) 44 2) (field (data.take 52) 28 4)

def Segment.overlay (data : List UInt8) (img : Nat → UInt8) (s : Segment) : Nat → UInt8 :=
  splice img s.vaddr ((data.drop s.off).take s.filesz)

def elfImage (data : List UInt8) : Nat → UInt8 :=
  (elfSegments data).foldl (Segment.overlay data) fun _ => 0

def Segment.touches (s : Segment) (v : Nat) : Bool :=
  max s.vaddr (v * 4096) < min (s.vaddr + s.filesz) ((v + 1) * 4096)

def lastSegment (segs : List Segment) (v : Nat) : Option Segment :=
  (segs.filter fun s => s.touches v).getLast?

def Segment.grant (wr : Nat → Option Bool) (s : Segment) (v : Nat) : Option Bool :=
  if s.touches v then some s.writable else wr v

theorem field_lt (bytes : List UInt8) (off n : Nat) : field bytes off n < 256 ^ n := by
  have hall : ∀ js : List Nat, js.foldr (fun j v => (bytes.getD (off + j) 0).toNat + 256 * v) 0 <
      256 ^ js.length := by
    intro js
    induction js with
    | nil => exact Nat.one_pos
    | cons j js ih =>
      have hbyte := (bytes.getD (off + j) 0).toNat_lt
      rw [List.foldr_cons, List.length_cons, Nat.pow_succ]
      omega
  have := hall (List.range n)
  rwa [List.length_range] at this

theorem foldl_grant (segs : List Segment) (wr : Nat → Option Bool) (v : Nat) :
    segs.foldl Segment.grant wr v =
      match lastSegment segs v with
      | some s => some s.writable
      | none => wr v := by
  unfold lastSegment
  induction segs using List.reverseRecOn with
  | nil => rfl
  | append_singleton segs s ih =>
    rw [List.foldl_append, List.foldl_cons, List.foldl_nil, Segment.grant, List.filter_append]
    cases hs : s.touches v with
    | true => simp [hs]
    | false => simpa [hs] using ih

/-- Whether the directory of the caller is in CR3, and the number of reads made, after `n`
program headers from offset `off` on. -/
def ownAfter (slept : Nat → Bool) (data : List UInt8) : Nat → Nat → Bool → Nat → Bool × Nat
  | 0, _, own, r => (own, r)
  | n + 1, off, own, r =>
    let ph := (data.drop off).take 32
    if field ph 0 4 = 1 then
      let pages := pagesTo 0 (field ph 16 4)
      ownAfter slept data n (off + 32) ((own || slept r) && pages == 0) (r + 1 + pages)
    else ownAfter slept data n (off + 32) (own || slept r) (r + 1)

/-- The address space of the frames `xs` holds `img`, and the pages for which `wr` asks for a
write permission have that one. -/
structure Imaged (m : Machine) (d : PgDir) (xs : List Frame) (img : Nat → UInt8)
    (wr : Nat → Option Bool) : Prop where
  bytes : ∀ a < xs.length * 4096, m.byteAt d a = img a
  above : ∀ a, xs.length * 4096 ≤ a → img a = 0
  perm : ∀ v b, wr v = some b → v < xs.length ∧ (d.entry v).w = b

section
variable {own : Frame} {m0 m m' : Machine} {d d' : PgDir} {xs : List Frame} {img : Nat → UInt8}
  {wr : Nat → Option Bool}

theorem Imaged.congr (h : Imaged m d xs img wr) (hmem : m'.mem = m.mem) : Imaged m' d xs img wr :=
  ⟨fun a ha => by rw [Machine.byteAt, hmem]; exact h.bytes a ha, h.above, h.perm⟩

theorem Built.place (h : Built own m0 m d xs lost) {a : Nat} (ha : a / 4096 < xs.length) :
    d.place a = (xs.get ⟨a / 4096, ha⟩, a % 4096) := by
  rw [PgDir.place, h.ppn _ ha]

theorem Built.mem_free (h : Built own m0 m d xs lost) (hx : x ∈ xs) : x ∈ m0.kmem.free := by
  rw [h.free]
  simp [hx]

theorem Imaged.grown {ys : List Frame} (h : Imaged m d xs img wr) (hb : Built own m0 m d xs [])
    (hg : Grown m d xs.length ys m' d') (hnodup : (xs ++ ys).Nodup) :
    Imaged m' d' (xs ++ ys) img wr := by
  refine ⟨fun a ha => ?_, fun a ha => ?_, fun v b hv => ?_⟩
  · rw [List.length_append] at ha
    by_cases hold : a / 4096 < xs.length
    · have hx : xs.get ⟨a / 4096, hold⟩ ∉ ys := fun hmem =>
        List.disjoint_of_nodup_append hnodup (List.get_mem ..) hmem
      have hlt : a < xs.length * 4096 := (Nat.div_lt_iff_lt_mul (by decide)).mp hold
      have hplace : d'.place a = d.place a := by
        rw [PgDir.place, hg.kept _ (Or.inl hold)]
        rfl
      rw [← h.bytes a hlt, Machine.byteAt, Machine.byteAt, hplace, hb.place hold, hg.mem _ hx]
    · have hlt : a / 4096 - xs.length < ys.length := by omega
      have hentry := hg.mapped (a / 4096 - xs.length) hlt
      rw [show xs.length + (a / 4096 - xs.length) = a / 4096 by omega] at hentry
      have hnew : xs.length * 4096 ≤ a := by omega
      rw [h.above a hnew, Machine.byteAt, PgDir.place, hentry]
      exact congrFun (hg.zeroed _ (List.get_mem ..)) _
  · rw [List.length_append] at ha
    exact h.above a (le_trans (Nat.mul_le_mul_right _ (Nat.le_add_right ..)) ha)
  · obtain ⟨hlt, hw⟩ := h.perm v b hv
    rw [List.length_append, hg.kept v (Or.inl hlt)]
    exact ⟨by omega, hw⟩

/-- `allocuvm` on the image built so far takes frames from the free list and leaves all others
alone. -/
theorem Imaged.allocuvm {newsz sz' : Nat} (h : Imaged m d xs img wr)
    (hb : Built own m0 m d xs []) (hfree : m0.kmem.freelist.Nodup)
    (hxs : xs.length = sizePages sz) (hsz : sz ≤ 0x80000000)
    (ha : allocuvm m d sz newsz = .ok (sz', d', m')) (hne : sz' ≠ 0) :
    (∃ xs', Built own m0 m' d' xs' [] ∧ xs'.length = sizePages sz' ∧ newsz < 0x80000000 ∧
      sz' = max sz newsz ∧ Imaged m' d' xs' img wr) ∧
      m'.cr3 = m.cr3 ∧ d'.frame = d.frame ∧ ∀ x, x ∉ m0.kmem.free → m'.mem x = m.mem x := by
  rcases allocuvm_spec hsz ha with
    ⟨rfl, rfl, h1 | h1⟩ | ⟨hle, hlt, rfl, ys, hys, hg⟩ | ⟨-, -, h1, -⟩
  · exact (hne h1.2).elim
  · obtain ⟨h1, rfl⟩ := h1
    exact ⟨⟨xs, hb, hxs, by omega, by omega, h⟩, rfl, rfl, fun _ _ => rfl⟩
  · have hadd := sizePages_add hle (by omega)
    have hle' := sizePages_le (show sz' ≤ 0x80000000 by omega)
    rw [sizePages_eq (by omega), ← hxs] at hg
    have hb' := hb.grown hg (by omega)
    refine ⟨⟨xs ++ ys, hb', ?_, hlt, by omega, h.grown hb hg (hb'.nodup hfree)⟩, hg.cr3, hg.frame,
      fun x hx => hg.mem x fun hmem => hx (hb'.mem_free (List.mem_append_right _ hmem))⟩
    rw [List.length_append]
    omega
  · exact (hne h1).elim

theorem Imaged.loadPage {va : Nat} {pte : Pte} (h : Imaged m d xs img wr) (w : Bool)
    (hb : Built own m0 m d xs []) (hnodup : xs.Nodup) (hal : va % 4096 = 0)
    (hva : va / 4096 < xs.length) (hlen : bytes.length ≤ 4096) (hw : d.walk va = some pte) :
    Imaged (m.write pte.ppn 0 bytes) (d.setPte va { pte with w := w }) xs
      (splice img va bytes) fun v => if v = va / 4096 then some w else wr v := by
  have hlt : va < 0x100000000 := by
    have := hb.length
    omega
  have hpte := entry_of_walk hlt hw
  have hppn : pte.ppn = xs.get ⟨va / 4096, hva⟩ := by rw [← hpte, hb.ppn _ hva]
  have hplace : ∀ a, (d.setPte va { pte with w := w }).place a = d.place a := by
    intro a
    rw [PgDir.place, entry_setPte hlt hw, PgDir.place]
    split
    · rename_i ha
      rw [ha, hpte]
    · rfl
  refine ⟨fun a ha => ?_, fun a ha => ?_, fun v b hv => ?_⟩
  · have hpage : a / 4096 < xs.length := by omega
    rw [Machine.byteAt, hplace, hb.place hpage, Machine.mem_write, splice]
    by_cases hsame : a / 4096 = va / 4096
    · have hx : xs.get ⟨a / 4096, hpage⟩ = pte.ppn := by
        rw [hppn]
        congr 2
      by_cases hin : a % 4096 < bytes.length
      · rw [if_pos ⟨hx, Nat.zero_le _, by omega⟩, if_pos (by omega),
          show a - va = a % 4096 - 0 by omega]
      · rw [if_neg (by omega), if_neg (by omega), ← h.bytes a ha, Machine.byteAt, hb.place hpage]
    · have hx : xs.get ⟨a / 4096, hpage⟩ ≠ pte.ppn := by
        rw [hppn]
        intro he
        exact hsame (Fin.val_eq_of_eq (List.nodup_iff_injective_get.mp hnodup he))
      rw [if_neg fun hc => hx hc.1, if_neg (by omega), ← h.bytes a ha, Machine.byteAt,
        hb.place hpage]
  · rw [splice, if_neg (by omega)]
    exact h.above a ha
  · rw [entry_setPte hlt hw]
    split at hv
    · rename_i hpage
      cases hv
      rw [if_pos hpage, hpage]
      exact ⟨hva, rfl⟩
    · rename_i hpage
      rw [if_neg hpage]
      exact h.perm v b hv

end

section
variable {own : Frame} {slept : Nat → Bool} {i : Nat} {m0 : Machine} {xs : List Frame}
  {img : Nat → UInt8} {wr : Nat → Option Bool} {l l' : Loading} {data : List UInt8}

theorem read_some (hfile : (l.fs.inode i).type ≠ 3) (hn : n < 0x100000000)
    (h : l.read own slept (some i) off n = (some bytes, l')) :
    bytes = ((l.fs.inode i).data.drop (off % 0x100000000)).take n ∧
      off % 0x100000000 + n < 0x100000000 ∧
      l' = { l with mach := l.mach.resume (slept l.reads) own, reads := l.reads + 1 } := by
  unfold Loading.read readi at h
  dsimp only at h
  rw [if_neg hfile] at h
  split at h
  · cases h
  · cases h
    exact ⟨rfl, by omega, rfl⟩

theorem resume_mem (m : Machine) (b : Bool) (own : Frame) : (m.resume b own).mem = m.mem := by
  cases b <;> rfl

/-- Loading `n` pages: one read each, the new directory in CR3 after each, and no frame written
that was in use before. -/
structure PagesLoaded (m0 : Machine) (l l' : Loading) (n : Nat) : Prop where
  fs : l'.fs = l.fs
  reads : l'.reads = l.reads + n
  frame : l'.d.frame = l.d.frame
  kept : n = 0 → l'.mach.cr3 = l.mach.cr3
  switched : n ≠ 0 → l'.mach.cr3 = l'.d.frame
  mem : ∀ x, x ∉ m0.kmem.free → l'.mach.mem x = l.mach.mem x

/-- The loop of `loaduvm` puts the rest of the segment in place, page by page. -/
theorem loadPages_imaged {addr offset j : Nat} {w : Bool} (hb : Built own m0 l.mach l.d xs [])
    (hnodup : xs.Nodup) (hi : Imaged l.mach l.d xs img wr) (hfile : (l.fs.inode i).type ≠ 3)
    (hal : (addr + j) % 4096 = 0) (hfit : addr + j + n * 4096 ≤ xs.length * 4096)
    (hoff : n = 0 ∨ offset + j < 0x100000000) (hn : sz - j ≤ n * 4096 ∧ n * 4096 < sz - j + 4096)
    (h : loadPages own slept (some i) addr offset sz w n l j = .ok (true, l')) :
    PagesLoaded m0 l l' n ∧ Imaged l'.mach l'.d xs
      (splice img (addr + j) (((l.fs.inode i).data.drop (offset + j)).take (sz - j)))
      fun v => if (addr + j) / 4096 ≤ v ∧ v < (addr + j) / 4096 + n then some w else wr v := by
  induction n generalizing l j img wr with
  | zero =>
    cases h
    rw [show sz - j = 0 by omega, List.take_zero, splice_nil]
    refine ⟨⟨rfl, rfl, rfl, fun _ => rfl, fun h => absurd rfl h, fun _ _ => rfl⟩, ?_⟩
    have hnone : (fun v => if (addr + j) / 4096 ≤ v ∧ v < (addr + j) / 4096 + 0 then some w
        else wr v) = wr := by
      funext v
      rw [if_neg (by omega)]
    rw [hnone]
    exact hi
  | succ n ih =>
    have hmax := hb.length
    obtain ⟨pte, bytes, l1, hw, hr, hlen, h⟩ := loadPages_succ (by omega) h
    obtain ⟨hb1, -, -⟩ := hb.read hr
    obtain ⟨hbytes, hnowrap, rfl⟩ := read_some hfile (by omega) hr
    rw [Nat.mod_eq_of_lt (by omega : offset + j < 0x100000000)] at hbytes hnowrap
    have hidx : (addr + j) / 4096 < xs.length := by omega
    have hi1 := (hi.congr (resume_mem l.mach (slept l.reads) own)).loadPage w hb1 hnodup hal hidx
      (by omega : bytes.length ≤ 4096) hw
    obtain ⟨hrest, hdone⟩ := ih (hb1.paged (by omega) hw) (hi1.congr rfl) hfile (by omega)
      (by omega) (by omega) (by omega) h
    have hframe := hrest.frame.trans (frame_setPte ..)
    refine ⟨⟨hrest.fs, hrest.reads.trans (Nat.add_right_comm ..), hframe,
      fun h0 => absurd h0 (by omega), fun _ => ?_, fun x hx => ?_⟩, ?_⟩
    · by_cases hlast : n = 0
      · rw [hrest.kept hlast, hrest.frame]
        rfl
      · exact hrest.switched hlast
    · have hppn : pte.ppn ∈ xs := by
        rw [← entry_of_walk (by omega) hw, hb.ppn _ hidx]
        exact List.get_mem ..
      rw [hrest.mem x hx]
      funext o
      change ((l.mach.resume (slept l.reads) own).write pte.ppn 0 bytes).mem x o = _
      have hne : x ≠ pte.ppn := fun he => hx (by rw [he]; exact hb.mem_free hppn)
      rw [Machine.mem_write, if_neg fun hc => hne hc.1, resume_mem]
    · have hsplice : splice (splice img (addr + j) bytes) (addr + (j + 4096))
          (((l.fs.inode i).data.drop (offset + (j + 4096))).take (sz - (j + 4096))) =
          splice img (addr + j)
            (((l.fs.inode i).data.drop (offset + j)).take (sz - j)) := by
        by_cases hlast : sz - j ≤ 4096
        · rw [show sz - (j + 4096) = 0 by omega, List.take_zero, splice_nil, hbytes,
            show min (sz - j) 4096 = sz - j by omega]
        · have hfull : min (sz - j) 4096 = 4096 := by omega
          have hpiece : bytes = ((l.fs.inode i).data.drop (offset + j)).take 4096 := by
            rw [hbytes, hfull]
          rw [show sz - j = 4096 + (sz - (j + 4096)) by omega, List.take_add,
            List.drop_drop, splice_append, ← hpiece, hlen, hfull,
            show addr + j + 4096 = addr + (j + 4096) by omega,
            show offset + j + 4096 = offset + (j + 4096) by omega]
      have hperm : (fun v => if (addr + (j + 4096)) / 4096 ≤ v ∧
          v < (addr + (j + 4096)) / 4096 + n then some w
          else if v = (addr + j) / 4096 then some w else wr v) = fun v =>
          if (addr + j) / 4096 ≤ v ∧ v < (addr + j) / 4096 + (n + 1) then some w else wr v := by
        funext v
        by_cases hfirst : v = (addr + j) / 4096
        · rw [if_neg (by omega), if_pos hfirst, if_pos (by omega)]
        · rw [if_neg hfirst]
          by_cases hin : (addr + j) / 4096 ≤ v ∧ v < (addr + j) / 4096 + (n + 1)
          · rw [if_pos hin, if_pos (by omega)]
          · rw [if_neg hin, if_neg (by omega)]
      rw [← hsplice, ← hperm]
      exact hdone

theorem Segment.touches_iff {v : Nat} (hal : s.vaddr % 4096 = 0) :
    s.touches v = true ↔ s.vaddr / 4096 ≤ v ∧ v < s.vaddr / 4096 + pagesTo 0 s.filesz := by
  rw [Segment.touches, decide_eq_true_iff]
  unfold pagesTo
  omega

theorem loaduvm_imaged (hb : Built own m0 l.mach l.d xs []) (hnodup : xs.Nodup)
    (hi : Imaged l.mach l.d xs img wr) (hfile : (l.fs.inode i).type ≠ 3) (hal : s.vaddr % 4096 = 0)
    (hfit : s.vaddr + s.filesz ≤ xs.length * 4096) (hoff : s.off < 0x100000000)
    (h : loaduvm own slept (some i) s.vaddr s.off s.filesz s.writable l = .ok (true, l')) :
    PagesLoaded m0 l l' (pagesTo 0 s.filesz) ∧
      Imaged l'.mach l'.d xs (s.overlay (l.fs.inode i).data img) (s.grant wr) := by
  unfold loaduvm at h
  rw [if_neg (by omega)] at h
  have hpages : s.filesz ≤ pagesTo 0 s.filesz * 4096 ∧
      pagesTo 0 s.filesz * 4096 < s.filesz + 4096 := by
    unfold pagesTo
    omega
  obtain ⟨hloaded, hdone⟩ := loadPages_imaged hb hnodup hi hfile (by omega) (by omega)
    (Or.inr (by omega)) hpages h
  refine ⟨hloaded, ?_⟩
  have hgrant : s.grant wr = fun v => if s.vaddr / 4096 ≤ v ∧
      v < s.vaddr / 4096 + pagesTo 0 s.filesz then some s.writable else wr v := by
    funext v
    rw [Segment.grant]
    simp only [Segment.touches_iff hal]
  rw [hgrant]
  exact hdone

/-- The program headers from `off` on have been dealt with: the image, and what has become of
the directory in CR3 and of the frames in use before. -/
structure SegmentsLoaded (own : Frame) (slept : Nat → Bool) (m0 : Machine) (data : List UInt8)
    (n off : Nat) (img : Nat → UInt8) (wr : Nat → Option Bool) (l l' : Loading) (xs : List Frame) :
    Prop where
  built : Built own m0 l'.mach l'.d xs []
  length : xs.length = sizePages l'.sz
  size : l'.sz < 0x80000000
  image : Imaged l'.mach l'.d xs ((segments data n off).foldl (Segment.overlay data) img)
    ((segments data n off).foldl Segment.grant wr)
  cr3 : ∀ b, (l.mach.cr3 = if b then own else l.d.frame) →
    l'.reads = (ownAfter slept data n off b l.reads).2 ∧
      l'.mach.cr3 = if (ownAfter slept data n off b l.reads).1 then own else l'.d.frame
  mem : ∀ x, x ∉ m0.kmem.free → l'.mach.mem x = l.mach.mem x

theorem loadSegments_imaged (hb : Built own m0 l.mach l.d xs [])
    (hfree : m0.kmem.freelist.Nodup) (hxs : xs.length = sizePages l.sz) (hsz : l.sz < 0x80000000)
    (hi : Imaged l.mach l.d xs img wr) (hfile : (l.fs.inode i).type ≠ 3)
    (hdata : (l.fs.inode i).data = data) (hoff : n = 0 ∨ off < 0x100000000)
    (h : loadSegments own slept (some i) n l off = .ok (true, l')) :
    ∃ xs', SegmentsLoaded own slept m0 data n off img wr l l' xs' := by
  induction n generalizing l off xs img wr with
  | zero =>
    cases h
    exact ⟨xs, hb, hxs, hsz, hi, fun b hown => ⟨rfl, hown⟩, fun _ _ => rfl⟩
  | succ n ih =>
    obtain ⟨ph, l1, hr, hlen, hcase⟩ := loadSegments_succ h
    obtain ⟨hb1, -, -⟩ := hb.read hr
    obtain ⟨hph, hnowrap, rfl⟩ := read_some hfile (by decide) hr
    rw [Nat.mod_eq_of_lt (by omega : off < 0x100000000)] at hph hnowrap
    have hoff' : n = 0 ∨ off + 32 < 0x100000000 := by omega
    rw [hdata] at hph
    have hi1 := hi.congr (resume_mem l.mach (slept l.reads) own)
    have hmem1 : (l.mach.resume (slept l.reads) own).mem = l.mach.mem := resume_mem ..
    have hown1 : ∀ b, (l.mach.cr3 = if b then own else l.d.frame) →
        (l.mach.resume (slept l.reads) own).cr3 =
          if b || slept l.reads then own else l.d.frame := by
      intro b hown
      cases hslept : slept l.reads with
      | true =>
        rw [Bool.or_true]
        rfl
      | false =>
        rw [Bool.or_false]
        exact hown
    rcases hcase with ⟨htype, hrest⟩ | ⟨htype, hmem, hal, sz, d, m, l2, ha, hne, hload, hrest⟩
    · obtain ⟨xs', hdone⟩ := ih hb1 hxs hsz hi1 hfile hdata hoff' hrest
      refine ⟨xs', hdone.built, hdone.length, hdone.size, ?_, fun b hown => ?_, fun x hx => ?_⟩
      · rw [segments, ← hph, if_neg htype]
        exact hdone.image
      · rw [ownAfter, ← hph, if_neg htype]
        exact hdone.cr3 _ (hown1 b hown)
      · exact (hdone.mem x hx).trans (congrFun hmem1 x)
    · obtain ⟨⟨xs2, hb2, hxs2, hnew, hmax, hi2⟩, hcr3, hframe, hkept⟩ :=
        hi1.allocuvm hb1 hfree hxs (Nat.le_of_lt hsz) ha hne
      have hcover : sz ≤ xs2.length * 4096 := by
        rw [hxs2]
        unfold sizePages pagesTo
        omega
      obtain ⟨hloaded, hi3⟩ := loaduvm_imaged (l := ⟨m, l.fs, d, sz, l.reads + 1⟩)
        (s := ⟨field ph 4 4, field ph 8 4, field ph 16 4, field ph 24 4 &&& 2 ≠ 0⟩)
        hb2 (hb2.nodup hfree) hi2 hfile hal (by dsimp only; omega) (field_lt ph 4 4) hload
      obtain ⟨hb3, hsz3⟩ := loaduvm_spec (l := ⟨m, l.fs, d, sz, l.reads + 1⟩) hb2 (by omega) hload
      dsimp only at hi3 hsz3
      rw [hdata] at hi3
      have hfs3 : l2.fs = l.fs := hloaded.fs
      obtain ⟨xs', hdone⟩ := ih hb3 (by rw [hsz3]; exact hxs2) (by omega) hi3
        (by rw [hfs3]; exact hfile) (by rw [hfs3]; exact hdata) hoff' hrest
      refine ⟨xs', hdone.built, hdone.length, hdone.size, ?_, fun b hown => ?_, fun x hx => ?_⟩
      · rw [segments, ← hph, if_pos htype]
        exact hdone.image
      · have hown2 : l2.mach.cr3 = if (b || slept l.reads) && pagesTo 0 (field ph 16 4) == 0
            then own else l2.d.frame := by
          by_cases hnone : pagesTo 0 (field ph 16 4) = 0
          · rw [hloaded.kept hnone, hloaded.frame, hframe, hcr3, hown1 b hown, hnone,
              beq_self_eq_true, Bool.and_true]
          · rw [hloaded.switched hnone, beq_false_of_ne hnone, Bool.and_false, if_neg (by simp)]
        have hend := hdone.cr3 _ hown2
        rw [hloaded.reads] at hend
        rw [ownAfter, ← hph, if_pos htype]
        exact hend
      · rw [hdone.mem x hx, hloaded.mem x hx]
        exact (hkept x hx).trans (congrFun hmem1 x)

end

theorem PgDir.mem_freed (h : x ∈ d.freed counts) :
    (∃ v < 0x80000, (d.entry v).p = true ∧ (d.entry v).ppn = x) ∨ x ∈ d.frames := by
  rw [freed, mem_add, mem_coe, released, List.mem_map] at h
  rcases h with ⟨v, hv, hx⟩ | h
  · rw [List.mem_filter, Bool.and_eq_true] at hv
    exact Or.inl ⟨v, mem_userPages.mp hv.1, hv.2.1, hx⟩
  rw [mem_add, mem_coe, mem_singleton, untracked] at h
  refine Or.inr ?_
  rw [frames, mem_cons, mem_coe]
  rcases h with h | h
  · exact Or.inr (List.mem_filter.mp h).1
  · exact Or.inl h

section
variable {k k' : Kernel} {p : Fin NPROC} {i : Nat} {path : List UInt8} {argv : List (List UInt8)}
  {slept : Nat → Bool}

theorem Built.kept {own : Frame} {m1 m' : Machine} (hb : Built own k.mach m d xs lost)
    (hs : k.holding.Safe) (hlive : (k.proc p).live)
    (hf : Freed m1 ((k.proc p).pgdir.freed counts) m') (hx : x ∈ xs) : m'.mem x = m1.mem x := by
  have hfree : x ∈ k.mach.kmem.free := by
    rw [hb.free]
    simp [hx]
  refine hf.mem x fun hmem => ?_
  rcases mem_freed hmem with ⟨v, hv, hpresent, hppn⟩ | hframes
  · exact hs.apart (p, v) x ⟨hlive, hv, hpresent, hppn⟩ (Kernel.mem_total_of_free hfree)
  · refine Kernel.notMem_owned_of_free hs hfree (p := p) ?_
    rw [Proc.owned, if_pos hlive]
    exact mem_add.mpr (Or.inr hframes)

theorem header_file {fs : Files} (hfile : (fs.inode i).type ≠ 3) :
    fs.header i = (fs.inode i).data.take 52 := by
  unfold Files.header readi
  dsimp only
  rw [if_neg hfile, if_neg (by omega)]
  rfl

/-- Closing a page to user code changes neither contents nor write permissions. -/
theorem Imaged.clearpteu {d' : PgDir} {img : Nat → UInt8} {wr : Nat → Option Bool} {uva : Nat}
    (h : Imaged m d xs img wr) (hva : uva < 0x80000000) (hc : clearpteu d uva = .ok d') :
    Imaged m d' xs img wr := by
  obtain ⟨hsame, hentry⟩ := clearpteu_spec hva hc
  have hw : ∀ v, (d'.entry v).w = (d.entry v).w := by
    intro v
    rw [hentry]
    split <;> rfl
  refine ⟨fun a ha => ?_, h.above, fun v b hv => ?_⟩
  · rw [← h.bytes a ha, Machine.byteAt, Machine.byteAt, PgDir.place, PgDir.place, hsame.ppn]
  · rw [hw]
    exact h.perm v b hv

/-- A process that has just replaced its image: the frames `xs` of its pages, the one of the
stack page among them, and the addresses of the arguments. -/
structure Execed (data path : List UInt8) (argv : List (List UInt8)) (m : Machine) (x : Proc)
    (xs : List Frame) (top : Frame) (addrs : List Nat) : Prop where
  size : xs.length * 4096 = x.sz
  room : 8192 ≤ x.sz
  present : ∀ v < 0x80000, (x.pgdir.entry v).p = true ↔ v < xs.length
  image : ∀ a, a + 8192 < x.sz → m.byteAt x.pgdir a = elfImage data a
  perm : ∀ v b, (elfSegments data).foldl Segment.grant (fun _ => none) v = some b →
    (x.pgdir.entry v).w = b
  stack : StackPage x.pgdir (x.sz - 4096) top
  args : ArgsPlaced m top (x.sz - 4096) x.tf.esp argv addrs
  name : x.name = lastComponent path

theorem Kernel.nodup_freelist (hs : k.holding.Safe) : k.mach.kmem.freelist.Nodup := by
  have htotal : k.total.Nodup := hs.nodup
  unfold Kernel.total at htotal
  exact coe_nodup.mp (nodup_of_le
    ((le_add_right _ _).trans (le_add_right _ _)) htotal)

theorem exec_stacked {fs : Files} {m1 : Machine} {d1 d' : PgDir} {l : Loading}
    (hfree : k.mach.kmem.freelist.Nodup) (hfile : (k.fs.inode i).type ≠ 3)
    (hloads : ExecLoads k p i slept fs m d true l)
    (ha : allocuvm (l.mach.resume (slept l.reads) (k.proc p).pgdir.frame) l.d (pgroundup l.sz)
      (pgroundup l.sz + 2 * 4096) = .ok (sz, d1, m1)) (hne : sz ≠ 0)
    (hclear : clearpteu d1 (sz - 2 * 4096) = .ok d') :
    ∃ xs xs', SegmentsLoaded (k.proc p).pgdir.frame slept k.mach (k.fs.inode i).data
        (field ((k.fs.inode i).data.take 52) 44 2) (field ((k.fs.inode i).data.take 52) 28 4)
        (fun _ => 0) (fun _ => none) ⟨m, fs, d, 0, 1⟩ l xs ∧
      Built (k.proc p).pgdir.frame k.mach m1 d' xs' [] ∧
      Imaged m1 d' xs' (elfImage (k.fs.inode i).data)
        ((elfSegments (k.fs.inode i).data).foldl Segment.grant fun _ => none) ∧
      xs'.length = xs.length + 2 ∧ xs'.length * 4096 = sz ∧
      m1.cr3 = (l.mach.resume (slept l.reads) (k.proc p).pgdir.frame).cr3 ∧
      d'.frame = l.d.frame ∧ ∀ x, x ∉ k.mach.kmem.free → m1.mem x = l.mach.mem x := by
  have hl := hloads.load
  rw [header_file hfile] at hl
  have hstart : Imaged m d [] (fun _ => 0) fun _ => none :=
    ⟨fun a ha => by simp at ha, fun _ _ => rfl, by simp⟩
  obtain ⟨xs, hs⟩ := loadSegments_imaged (l := ⟨m, fs, d, 0, 1⟩) (built_exec hloads.kvm) hfree (by simp)
    (Nat.zero_lt_succ _) hstart (by rw [hloads.data.2]; exact hfile) hloads.data.1
    (Or.inr (field_lt ..)) hl
  have hxs := hs.length
  have hsz := hs.size
  have hb : Built (k.proc p).pgdir.frame k.mach
      (l.mach.resume (slept l.reads) (k.proc p).pgdir.frame) l.d xs [] := by
    refine hs.built.congr (SameMap.refl _) (resume_image ..) (resume_counts ..) (resume_kmem ..) ?_
    rcases resume_cr3 l.mach (slept l.reads) (k.proc p).pgdir.frame with he | he
    · exact Or.inl he
    · exact Or.inr (Or.inl he)
  have hround : sizePages (pgroundup l.sz) = sizePages l.sz ∧ pgroundup l.sz ≤ 0x80000000 ∧
      pgroundup l.sz = sizePages l.sz * 4096 := by
    unfold sizePages pagesTo pgroundup
    omega
  obtain ⟨⟨xs', hb', hxs', hnew, hmax, hi⟩, hcr3, hframe, hkept⟩ :=
    (hs.image.congr (resume_mem l.mach (slept l.reads) (k.proc p).pgdir.frame)).allocuvm hb hfree
      (hxs.trans hround.1.symm) hround.2.1 ha hne
  rw [max_eq_right (by omega)] at hmax
  have hmap := (clearpteu_spec (by omega) hclear).1
  have hlen : xs'.length = xs.length + 2 ∧ xs'.length * 4096 = sz := by
    rw [hxs', hmax, hxs, hround.2.2]
    generalize sizePages l.sz = n
    unfold sizePages pagesTo
    omega
  refine ⟨xs, xs', hs, hb'.congr hmap rfl rfl rfl (Or.inl rfl), hi.clearpteu (by omega) hclear,
    hlen.1, hlen.2, hcr3, hmap.frame.trans hframe, fun x hx => ?_⟩
  rw [hkept x hx, resume_mem]

theorem exec_execed (hs : k.holding.Safe) (hlive : (k.proc p).live)
    (hfile : (k.fs.inode i).type ≠ 3) (h : exec k p (some i) path argv slept = .ok (true, k')) :
    ∃ xs top addrs, Execed (k.fs.inode i).data path argv k'.mach (k'.proc p) xs top addrs := by
  cases exec_replaced h with
  | @replaced fs fs' m m1 m' d d' l sz sp _ hl _ hst hfv =>
    have hfree := Kernel.nodup_freelist hs
    have hsz := hl.built.choose_spec.2.2
    obtain ⟨d2, m2, ha, hne, hc, top, addrs, hstack, hother, hargs⟩ := buildStack_ok hsz hst
    obtain ⟨xs, xs', -, hb3, hi3, hlen, hsize, -⟩ :=
      exec_stacked hfree hfile hl ha hne hc
    have hroom : 8192 ≤ sz := by omega
    have hlast : (sz - 4096) / 4096 < xs'.length := by omega
    have htop : top = xs'.get ⟨(sz - 4096) / 4096, hlast⟩ := by rw [← hstack.frame, hb3.ppn _ hlast]
    have hkept : ∀ y ∈ xs', m'.mem y = (m1.lcr3 d'.frame).mem y := fun y hy =>
      hb3.kept hs hlive (freevm_spec hfv) hy
    refine ⟨xs', top, addrs, ?_⟩
    rw [Kernel.proc_setProc_self]
    refine ⟨hsize, hroom, hb3.present, fun a ha => ?_, fun v b hv => ?_, hstack, ?_, rfl⟩
    · dsimp only at ha ⊢
      have hpage : a / 4096 < xs'.length := by omega
      have hne' : xs'.get ⟨a / 4096, hpage⟩ ≠ top := by
        rw [htop]
        intro he
        have := Fin.val_eq_of_eq (List.nodup_iff_injective_get.mp (hb3.nodup hfree) he)
        dsimp only at this
        omega
      rw [← hi3.bytes a (by omega), Machine.byteAt, Machine.byteAt,
        hb3.place hpage]
      change m'.mem _ _ = _
      rw [hkept _ (List.get_mem ..)]
      exact congrFun (hother _ hne') _
    · exact (hi3.perm v b hv).2
    · have hmem : m'.mem top = m1.mem top := hkept top (by rw [htop]; exact List.get_mem ..)
      refine ⟨hargs.inside, hargs.room, fun j hj => ?_, hargs.strings.imp fun s a h =>
        ⟨h.1, h.2.1, fun j hj => ?_⟩⟩
      · change m'.mem _ _ = _
        rw [hmem]
        exact hargs.words j hj
      · change m'.mem _ _ = _
        rw [hmem]
        exact h.2.2 j hj

/-- The image after `exec`: below the two stack pages it is the one the file describes, every
page is there, and a page with bytes of the file is writable as the last segment says. -/
theorem exec_image (hs : k.holding.Safe) (hlive : (k.proc p).live)
    (hfile : (k.fs.inode i).type ≠ 3) (h : exec k p (some i) path argv slept = .ok (true, k')) :
    (∀ a, a + 8192 < (k'.proc p).sz →
      k'.mach.byteAt (k'.proc p).pgdir a = elfImage (k.fs.inode i).data a) ∧
    (∀ v, v * 4096 < (k'.proc p).sz → ((k'.proc p).pgdir.entry v).p = true) ∧
    ∀ v s, lastSegment (elfSegments (k.fs.inode i).data) v = some s →
      ((k'.proc p).pgdir.entry v).w = s.writable := by
  obtain ⟨xs, top, addrs, he⟩ := exec_execed hs hlive hfile h
  have hsize := he.size
  have hhigh := he.stack.high
  refine ⟨he.image, fun v hv => (he.present v (by omega)).mpr (by omega), fun v s hv => ?_⟩
  refine he.perm v _ ?_
  rw [foldl_grant, hv]

end

theorem exists_program_run : ∃ k k', k.holding.Safe ∧ (k.proc 0).live ∧
    k.fs.inode 2 = { type := 2, nlink := 1, data := program } ∧
    exec k 0 (some 2) [] [] (fun _ => false) = .ok (true, k') := by
  obtain ⟨k, x, s, hstart, hb⟩ := exists_booted programFiles 1
  have hinode : k.fs.inode 2 = { type := 2, nlink := 1, data := program } := by
    rw [hb.fs]
    rfl
  obtain ⟨k', hexec⟩ := exec_total (k := k) [] (fun _ => false) (execSound_program hb)
    (by rw [hinode]) hb.freeable
  exact ⟨k, k', hstart.safe, hb.page.live, hinode, hexec⟩

/-- The image of that program: its one byte, in a page that is not writable. -/
theorem exec_image_program : ∃ k k', exec k 0 (some 2) [] [] (fun _ => false) = .ok (true, k') ∧
    (∀ a, a + 8192 < (k'.proc 0).sz →
      k'.mach.byteAt (k'.proc 0).pgdir a = elfImage program a) ∧
    (∀ v, v * 4096 < (k'.proc 0).sz → ((k'.proc 0).pgdir.entry v).p = true) ∧
    ((k'.proc 0).pgdir.entry 0).w = false := by
  obtain ⟨k, k', hs, hlive, hinode, hexec⟩ := exists_program_run
  obtain ⟨himage, hpresent, hperm⟩ := exec_image hs hlive (by rw [hinode]; decide) hexec
  rw [hinode] at himage hperm
  exact ⟨k, k', hexec, himage, hpresent, hperm 0 ⟨84, 0, 1, false⟩ (by decide)⟩

end Xv6
