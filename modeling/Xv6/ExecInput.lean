import Xv6.ExecSpec
import Xv6.Supply

/-!
Which calls of `exec` are harmless. One that finds no ELF header fails before it has
built anything. One on a well-formed file, with arguments that fit the stack page and
with enough free memory, does not fail.
-/

namespace Xv6

open Lib

variable {addr base i n off offset sz sz' : Nat} {fs : Files} {l : Loading} {m : Machine}
  {d : PgDir} {argv : List (List UInt8)} {pte : Pte} {w : Bool}

/-- The size the program headers from offset `off` on ask for, on top of `sz`. None when
`exec` refuses one of them or the file is too short for it. -/
def segmentsSize (data : List UInt8) : Nat → Nat → Nat → Option Nat
  | 0, _, sz => some sz
  | n + 1, off, sz =>
    let ph := (data.drop (off % 0x100000000)).take 32
    let vaddr := field ph 8 4
    let filesz := field ph 16 4
    let memsz := field ph 20 4
    if ph.length ≠ 32 then none
    else if field ph 0 4 ≠ 1 then segmentsSize data n (off + 32) sz
    else if memsz < filesz ∨ 0x80000000 ≤ vaddr + memsz ∨ vaddr % 4096 ≠ 0 ∨
        max sz (vaddr + memsz) = 0 ∨ data.length < field ph 4 4 + filesz then none
    else segmentsSize data n (off + 32) (max sz (vaddr + memsz))

/-- Bytes the arguments take at most on the stack, with the words below them. -/
def argBytes (argv : List (List UInt8)) : Nat := (argv.map fun s => s.length + 4).sum

/-- A call of `exec` on inode `i` that has what it needs. -/
structure ExecSound (fs : Files) (a : Kmem) (i : Nat) (argv : List (List UInt8)) : Prop where
  file : (fs.inode i).type ≠ 3
  length : (fs.inode i).data.length < 0x100000000
  header : IsElf (fs.header i)
  size : ∃ sz, segmentsSize (fs.inode i).data (field (fs.header i) 44 2)
      (field (fs.header i) 28 4) 0 = some sz ∧
    pgroundup sz + 8192 < 0x80000000 ∧ 1029 + sizePages sz ≤ a.free.card
  args : argv.length ≤ 32 ∧ argBytes argv + 4 * (argv.length + 4) ≤ 4096

def ExecSafe (fs : Files) (a : Kmem) (ip : Option Nat) (argv : List (List UInt8)) : Prop :=
  ∀ i, ip = some i → ¬ IsElf (fs.header i) ∨ ExecSound fs a i argv

theorem readi_file (hfile : (fs.inode i).type ≠ 3) (hlen : (fs.inode i).data.length < 0x100000000)
    (h : off + n ≤ (fs.inode i).data.length) :
    readi fs (some i) off n = (some (((fs.inode i).data.drop off).take n), fs) := by
  simp only [readi, if_neg hfile]
  rw [if_neg (by omega)]

section
variable {own : Frame} {m0 m m' : Machine} {d d' : PgDir} {xs : List Frame}

theorem Built.allocuvm_total (newsz : Nat) (h : Built own m0 m d xs [])
    (hxs : xs.length = sizePages sz) (hnew : newsz < 0x80000000)
    (hfree : 1026 + sizePages (max sz newsz) < m0.kmem.free.card) :
    ∃ d' m', Xv6.allocuvm m d sz newsz = .ok (max sz newsz, d', m') := by
  by_cases hle : sz ≤ newsz
  · have hadd := sizePages_add hle (by omega)
    have hcard := congrArg Multiset.card h.free
    simp only [Multiset.card_add, Multiset.coe_card, List.length_nil] at hcard
    rw [show max sz newsz = newsz by omega] at hfree ⊢
    refine Xv6.allocuvm_total hle hnew (by unfold supply; omega) fun v hlo hhi => ?_
    have hv := sizePages_le (show newsz ≤ 0x80000000 by omega)
    have hiff := h.present v (by omega)
    cases hp : (d.entry v).p with
    | false => rfl
    | true => exact absurd (hiff.mp hp) (by omega)
  · refine ⟨d, m, ?_⟩
    unfold Xv6.allocuvm
    rw [if_neg (by omega), if_pos (by omega), show max sz newsz = sz by omega]
    rfl

section
variable (hbase : base % 4096 = 0) (hw : d.walk base = some pte) (hp : pte.p = true)
  (hu : pte.u = true)
include hbase hw hp hu

theorem copyout_page {va : Nat} {bytes : List UInt8} (hlo : base ≤ va)
    (hfit : va + bytes.length ≤ base + 4096) : ∃ m', copyout m d va bytes = .ok (true, m') := by
  unfold copyout
  rw [copyLoopOut]
  cases bytes with
  | nil => exact ⟨m, rfl⟩
  | cons c cs =>
    rw [List.length_cons] at hfit
    have hround : pgrounddown va = base := by
      unfold pgrounddown
      omega
    have hka : uva2ka d base = .ok (some pte.ppn) := by
      unfold uva2ka
      rw [hw]
      simp [hp, hu, pure, Except.pure]
    have hlen : min (4096 - (va - base)) (cs.length + 1) = cs.length + 1 := by omega
    refine ⟨m.write pte.ppn (va - base) (c :: cs), ?_⟩
    rw [if_neg (by simp)]
    dsimp only
    rw [hround, List.length_cons, hlen, bind_eq_ok]
    refine ⟨_, hka, ?_⟩
    dsimp only
    rw [← List.length_cons (a := c), List.take_length, List.drop_length, List.length_cons,
      copyLoopOut]
    rfl

/-- The arguments that are still to be pushed fit between the bottom of the stack page and
the stack pointer, with room for `rest` bytes. -/
theorem pushArgs_fits {sp rest : Nat} {ustack : List Nat}
    (htop : base + 4096 < 0x100000000) (hsp : sp ≤ base + 4096)
    (hroom : base + argBytes argv + rest ≤ sp) (hcount : ustack.length + argv.length ≤ 32) :
    ∃ sp' ustack' m', pushArgs argv m d sp ustack = .ok (some (sp', ustack'), m') ∧
      sp' ≤ base + 4096 ∧ base + rest ≤ sp' ∧ ustack'.length = ustack.length + argv.length := by
  induction argv generalizing m sp ustack with
  | nil =>
    refine ⟨sp, ustack, m, rfl, hsp, ?_, rfl⟩
    simp only [argBytes, List.map_nil, List.sum_nil] at hroom
    omega
  | cons s argv ih =>
    have hbytes : argBytes (s :: argv) = s.length + 4 + argBytes argv := by
      simp [argBytes]
    rw [List.length_cons] at hcount
    rw [hbytes] at hroom
    obtain ⟨sp1, hsp1⟩ :
        ∃ sp1, sp1 = (sp + 0x100000000 - (s.length + 1)) % 0x100000000 / 4 * 4 := ⟨_, rfl⟩
    have hlo : sp ≤ sp1 + s.length + 4 := by omega
    have hhi : sp1 + s.length + 1 ≤ sp := by omega
    have hlen : (ustack ++ [sp1]).length = ustack.length + 1 := by simp
    obtain ⟨m1, hc⟩ : ∃ m1, copyout m d sp1 (s ++ [0]) = .ok (true, m1) :=
      copyout_page hbase hw hp hu (by omega)
        (by rw [List.length_append, List.length_singleton]; omega)
    obtain ⟨sp', ustack', m', h, h1, h2, h3⟩ :=
      ih (m := m1) (show sp1 ≤ base + 4096 by omega) (by omega)
        (show (ustack ++ [sp1]).length + argv.length ≤ 32 by omega)
    refine ⟨sp', ustack', m', ?_, h1, h2, ?_⟩
    · rw [pushArgs, if_neg (by omega), ← hsp1, bind_eq_ok]
      exact ⟨_, hc, h⟩
    · rw [h3, hlen, List.length_cons]
      omega

end

theorem length_le32 (words : List Nat) : (words.flatMap le32).length = 4 * words.length := by
  induction words with
  | nil => rfl
  | cons w words ih =>
    rw [List.flatMap_cons, List.length_append, ih, List.length_cons]
    simp only [le32, List.length_map, List.length_cons, List.length_nil]
    omega

theorem buildStack_total (hb : Built own m0 m d xs []) (hxs : xs.length = sizePages sz)
    (hsz : pgroundup sz + 8192 < 0x80000000) (hfree : 1028 + sizePages sz < m0.kmem.free.card)
    (hcount : argv.length ≤ 32) (hargs : argBytes argv + 4 * (argv.length + 4) ≤ 4096)
    (hbound : sz < 0x80000000) : ∃ sp d' m', buildStack m d sz argv =
      .ok (some (pgroundup sz + 2 * 4096, sp), d', m') := by
  have hal := pgroundup_aligned sz
  have hround : sizePages (pgroundup sz) = sizePages sz := by
    unfold sizePages pagesTo pgroundup
    omega
  have hpages : sizePages (pgroundup sz + 2 * 4096) = sizePages sz + 2 := by
    clear hfree hargs hxs
    unfold sizePages pagesTo pgroundup
    unfold pgroundup at hsz
    omega
  have hmax : max (pgroundup sz) (pgroundup sz + 2 * 4096) = pgroundup sz + 2 * 4096 := by omega
  obtain ⟨d1, m1, ha⟩ := hb.allocuvm_total (pgroundup sz + 2 * 4096)
    (hxs.trans hround.symm) (by omega) (by rw [hmax, hpages]; omega)
  rw [hmax] at ha
  rcases allocuvm_spec (by omega) ha with
    ⟨-, -, h1 | h1⟩ | ⟨-, -, -, ys, hys, hg⟩ | ⟨-, -, h1, -⟩
  · omega
  · omega
  · have hlen : ys.length = 2 := by
      rw [hys]
      unfold allocPages pagesTo
      rw [show pgroundup (pgroundup sz) = pgroundup sz by unfold pgroundup; omega]
      omega
    have hlow : pgroundup (pgroundup sz) / 4096 = pgroundup sz / 4096 := by
      unfold pgroundup
      omega
    have hguard := hg.mapped 0 (by omega)
    have hentry := hg.mapped 1 (by omega)
    rw [hlow, Nat.add_zero] at hguard
    rw [hlow, show pgroundup sz / 4096 + 1 = (pgroundup sz + 4096) / 4096 by omega] at hentry
    have hw0 : d1.walk (pgroundup sz) = some (d1.entry (pgroundup sz / 4096)) :=
      PgDir.walk_of_present (by omega) (by rw [hguard]; rfl)
    generalize hd2 : d1.setPte (pgroundup sz) { d1.entry (pgroundup sz / 4096) with u := false } = d2
    have hc : clearpteu d1 (pgroundup sz + 2 * 4096 - 2 * 4096) = .ok d2 := by
      rw [Nat.add_sub_cancel, clearpteu, hw0, ← hd2]
      rfl
    have hstack : d2.entry ((pgroundup sz + 4096) / 4096) =
        d1.entry ((pgroundup sz + 4096) / 4096) := by
      rw [← hd2, PgDir.entry_setPte (by omega) hw0, if_neg (by omega)]
    rw [hentry] at hstack
    have hp2 : (d2.entry ((pgroundup sz + 4096) / 4096)).p = true := by rw [hstack]; rfl
    have hu2 : (d2.entry ((pgroundup sz + 4096) / 4096)).u = true := by rw [hstack]; rfl
    have hw := PgDir.walk_of_present (by omega) hp2
    obtain ⟨sp, ustack, m2, hp, hhi, hlo, hlen'⟩ :=
      pushArgs_fits (m := m1) (show (pgroundup sz + 4096) % 4096 = 0 by omega) hw hp2
        hu2 (by omega) (show pgroundup sz + 2 * 4096 ≤ pgroundup sz + 4096 + 4096 by omega)
        (show pgroundup sz + 4096 + argBytes argv + 4 * (argv.length + 4) ≤
          pgroundup sz + 2 * 4096 by omega)
        (show ([] : List Nat).length + argv.length ≤ 32 by simpa using hcount)
    rw [List.length_nil, Nat.zero_add] at hlen'
    obtain ⟨m3, ho⟩ : ∃ m3, copyout m2 d2
        ((sp + 0x100000000 - (3 + ustack.length + 1) * 4) % 0x100000000)
        (([0xFFFFFFFF, ustack.length, (sp + 0x100000000 - (ustack.length + 1) * 4) % 0x100000000]
          ++ ustack ++ [0]).flatMap le32) = .ok (true, m3) := by
      refine copyout_page (show (pgroundup sz + 4096) % 4096 = 0 by omega) hw hp2 hu2
        (by omega) ?_
      rw [length_le32]
      simp only [List.length_append, List.length_cons, List.length_nil]
      omega
    refine ⟨(sp + 0x100000000 - (3 + ustack.length + 1) * 4) % 0x100000000, d2, m3, ?_⟩
    unfold buildStack
    rw [bind_eq_ok]
    refine ⟨_, ha, ?_⟩
    dsimp only
    rw [if_neg (by omega), bind_eq_ok]
    refine ⟨_, hc, ?_⟩
    rw [bind_eq_ok]
    refine ⟨_, hp, ?_⟩
    dsimp only
    rw [bind_eq_ok]
    exact ⟨_, ho, rfl⟩
  · omega

end

section
variable {own : Frame} {slept : Nat → Bool} {i : Nat} {m0 : Machine} {xs : List Frame}

theorem read_file (hfile : (l.fs.inode i).type ≠ 3)
    (hlen : (l.fs.inode i).data.length < 0x100000000)
    (h : off % 0x100000000 + n ≤ (l.fs.inode i).data.length) : l.read own slept (some i) off n =
      (some (((l.fs.inode i).data.drop (off % 0x100000000)).take n),
        { l with
          mach := if slept l.reads then l.mach.lcr3 own else l.mach
          reads := l.reads + 1 }) := by
  unfold Loading.read
  rw [readi_file hfile hlen h]

theorem loadPages_total {j : Nat} (hb : Built own m0 l.mach l.d xs [])
    (hpages : n = 0 ∨ addr + j + (n - 1) * 4096 < xs.length * 4096)
    (hfile : (l.fs.inode i).type ≠ 3) (hlen : (l.fs.inode i).data.length < 0x100000000)
    (hbytes : offset + sz ≤ (l.fs.inode i).data.length) (hn : n = 0 ∨ j + n * 4096 < sz + 4096) :
    ∃ l', loadPages own slept (some i) addr offset sz w n l j = .ok (true, l') ∧ l'.fs = l.fs := by
  induction n generalizing l j with
  | zero => exact ⟨l, rfl, rfl⟩
  | succ n ih =>
    have hmax := hb.length
    have hva : (addr + j) % 0x100000000 = addr + j := by omega
    have hp : (l.d.entry ((addr + j) / 4096)).p = true :=
      (hb.present _ (by omega)).mpr (by omega)
    have hw := PgDir.walk_of_present (by omega) hp
    have hfit : (offset + j) % 0x100000000 + min (sz - j) 4096 ≤
        (l.fs.inode i).data.length := by omega
    have hread : l.read own slept (some i) (offset + j) (min (sz - j) 4096) = _ :=
      read_file hfile hlen hfit
    obtain ⟨hb1, -, -⟩ := hb.read hread
    rw [loadPages, hva, hw]
    simp only [hread]
    rw [if_neg]
    · have hsame : SameMap l.d (l.d.setPte (addr + j) { l.d.entry ((addr + j) / 4096) with w := w }) :=
        SameMap.setPte (by omega) hw rfl rfl
      refine ih ?_ (by omega) hfile hlen hbytes (by omega)
      exact hb1.congr hsame rfl rfl rfl (Or.inr (Or.inr (PgDir.frame_setPte ..)))
    · simp only [Option.map_some, List.length_take, List.length_drop, ne_eq, not_not,
        Option.some.injEq]
      omega

theorem loaduvm_total (hb : Built own m0 l.mach l.d xs []) (hal : addr % 4096 = 0)
    (hpages : addr + sz ≤ xs.length * 4096) (hfile : (l.fs.inode i).type ≠ 3)
    (hlen : (l.fs.inode i).data.length < 0x100000000)
    (hbytes : offset + sz ≤ (l.fs.inode i).data.length) :
    ∃ l', loaduvm own slept (some i) addr offset sz w l = .ok (true, l') ∧ l'.fs = l.fs := by
  unfold loaduvm
  rw [if_neg (by omega)]
  refine loadPages_total hb ?_ hfile hlen hbytes ?_ <;> unfold pagesTo <;> omega

theorem le_segmentsSize {data : List UInt8} (h : segmentsSize data n off sz = some sz') :
    sz ≤ sz' := by
  induction n generalizing off sz with
  | zero =>
    cases h
    exact le_rfl
  | succ n ih =>
    rw [segmentsSize] at h
    split at h
    · cases h
    · split at h
      · exact ih h
      · split at h
        · cases h
        · exact (le_max_left _ _).trans (ih h)

theorem sizePages_mono (h : sz ≤ sz') : sizePages sz ≤ sizePages sz' := by
  unfold sizePages pagesTo
  omega

/-- The loop over the program headers gets to its end when the file is as it should be and
memory suffices. -/
theorem loadSegments_total (hb : Built own m0 l.mach l.d xs []) (hxs : xs.length = sizePages l.sz)
    (hsz : l.sz < 0x80000000) (hfile : (l.fs.inode i).type ≠ 3)
    (hlen : (l.fs.inode i).data.length < 0x100000000)
    (hplan : segmentsSize (l.fs.inode i).data n off l.sz = some sz)
    (hfree : 1026 + sizePages sz < m0.kmem.free.card) :
    ∃ l', loadSegments own slept (some i) n l off = .ok (true, l') ∧ l'.sz = sz ∧ l'.fs = l.fs := by
  induction n generalizing l off xs with
  | zero =>
    cases hplan
    exact ⟨l, rfl, rfl, rfl⟩
  | succ n ih =>
    rw [segmentsSize] at hplan
    split at hplan
    · cases hplan
    rename_i hph
    rw [not_not, List.length_take, List.length_drop] at hph
    have hfit : off % 0x100000000 + 32 ≤ (l.fs.inode i).data.length := by omega
    have hread : l.read own slept (some i) off 32 = _ := read_file hfile hlen hfit
    obtain ⟨hb1, -, -⟩ := hb.read hread
    rw [loadSegments, hread]
    generalize hbytes : ((l.fs.inode i).data.drop (off % 0x100000000)).take 32 = ph at hplan ⊢
    have hlen32 : ph.length = 32 := by
      rw [← hbytes, List.length_take, List.length_drop]
      omega
    dsimp only
    rw [if_neg (by simp [hlen32])]
    split at hplan
    · rename_i htype
      rw [if_pos htype]
      exact ih hb1 hxs hsz hfile hlen hplan
    rename_i htype
    rw [if_neg htype]
    split at hplan
    · cases hplan
    rename_i hgood
    simp only [not_or] at hgood
    obtain ⟨h1, h2, h3, h4, h5⟩ := hgood
    rw [if_neg h1, if_neg (by omega)]
    have hle := le_segmentsSize hplan
    have hmono := sizePages_mono hle
    obtain ⟨d2, m2, ha⟩ := hb1.allocuvm_total (field ph 8 4 + field ph 20 4) hxs
      (by omega) (by omega)
    obtain ⟨xs2, lost2, hb2, hok⟩ := hb1.allocuvm hxs (by omega) ha
    obtain ⟨rfl, hxs2, -, -⟩ := hok h4
    have hpage : field ph 8 4 + field ph 16 4 ≤ xs2.length * 4096 := by
      rw [hxs2]
      unfold sizePages pagesTo
      omega
    obtain ⟨l3, hl, hfs⟩ : ∃ l3, loaduvm own slept (some i) (field ph 8 4) (field ph 4 4)
        (field ph 16 4) (field ph 24 4 &&& 2 ≠ 0)
        ⟨m2, l.fs, d2, max l.sz (field ph 8 4 + field ph 20 4), l.reads + 1⟩ =
          .ok (true, l3) ∧ l3.fs = l.fs :=
      loaduvm_total hb2 (by omega) hpage hfile hlen (by dsimp only; omega)
    obtain ⟨hb3, hsz3⟩ := loaduvm_spec hb2 (by omega) hl
    dsimp only at hsz3
    rw [← hfs] at hfile hlen hplan
    rw [← hsz3] at hplan
    obtain ⟨l', hl', hsz', hfs'⟩ := ih hb3 (by rw [hsz3]; exact hxs2) (by omega) hfile hlen
      hplan
    refine ⟨l', ?_, hsz', hfs'.trans hfs⟩
    rw [bind_eq_ok]
    refine ⟨_, ha, ?_⟩
    dsimp only
    rw [if_neg h4, if_neg h3, bind_eq_ok]
    exact ⟨_, hl, hl'⟩

end

section
variable {k k' : Kernel} {p : Fin NPROC} {argv : List (List UInt8)} {slept : Nat → Bool} {b : Bool}

section
variable (hs : ExecSound k.fs k.mach.kmem i argv)
  (hplan : segmentsSize (k.fs.inode i).data (field (k.fs.header i) 44 2) (field (k.fs.header i) 28 4) 0 = some sz)
include hs hplan

theorem ExecSound.load {ok : Bool}
    (h : ExecLoads k p i slept fs m d ok l) : ok = true ∧ l.sz = sz := by
  obtain ⟨hfile, hlen, -, ⟨sz', hplan', -, hfree⟩, -⟩ := hs
  cases hplan.symm.trans hplan'
  obtain ⟨l', hl', hsz, -⟩ := loadSegments_total (l := ⟨m, fs, d, 0, 1⟩) (built_exec h.kvm)
    (by simp) (Nat.zero_lt_succ _) (by rw [h.data.2]; exact hfile) (by rw [h.data.1]; exact hlen)
    (by rw [h.data.1]; exact hplan) (by omega)
  have hl := h.load
  rw [hl'] at hl
  cases hl
  exact ⟨rfl, hsz⟩

theorem ExecSound.stack {m1 : Machine} {d1 : PgDir} {r : Option (Nat × Nat)}
    (hl : ExecLoads k p i slept fs m d true l) (hsz : l.sz = sz)
    (hst : buildStack (l.mach.resume (slept l.reads) (k.proc p).pgdir.frame) l.d l.sz argv =
      .ok (r, d1, m1)) : ∃ sp, r = some (pgroundup sz + 8192, sp) := by
  obtain ⟨-, -, -, ⟨sz', hplan', hbound, hfree⟩, hargs⟩ := hs
  cases hplan.symm.trans hplan'
  obtain ⟨xs, hb, hxs, hlt⟩ := hl.built
  rw [hsz] at hxs hlt hst
  obtain ⟨sp, d', m', hst'⟩ := buildStack_total hb hxs hbound (by omega) hargs.1 hargs.2 hlt
  rw [hst'] at hst
  cases hst
  exact ⟨sp, rfl⟩

end

theorem exec_sound {path : List UInt8} (hs : ExecSound k.fs k.mach.kmem i argv) (h : ExecRun k p i path argv slept b k') :
    b = true := by
  obtain ⟨sz, hplan, -, hfree⟩ := hs.size
  cases h with
  | refused hbad => exact (hbad hs.header).elim
  | unbuilt _ hk =>
    rcases setupkvm_spec hk with ⟨d, hd, -⟩ | ⟨-, -, -, -, -, -, hshort, -⟩
    · cases hd
    · rw [resume_kmem] at hshort
      omega
  | unloaded _ hl _ => exact (hs.load hplan hl).1
  | unstacked _ hl hst _ =>
    obtain ⟨sp, hr⟩ := hs.stack hplan hl (hs.load hplan hl).2 hst
    cases hr
  | replaced _ _ _ _ _ => rfl

/-- A harmless call of `exec` succeeds, or it fails and memory is as it was. -/
theorem exec_safe {ip : Option Nat} {path : List UInt8} (hs : ExecSafe k.fs k.mach.kmem ip argv)
    (h : exec k p ip path argv slept = .ok (b, k')) :
    b = true ∨ k'.mach.kmem = k.mach.kmem ∧
      (k'.mach.cr3 = k.mach.cr3 ∨ k'.mach.cr3 = (k.proc p).pgdir.frame) := by
  rcases exec_cases h with ⟨-, -, rfl⟩ | ⟨i, hi, hrun⟩
  · exact Or.inr ⟨rfl, Or.inl rfl⟩
  rcases hs i hi with hbad | hsound
  · cases hrun with
    | refused _ => exact Or.inr ⟨resume_kmem .., resume_cr3 ..⟩
    | unbuilt helf => exact (hbad helf).elim
    | unloaded helf => exact (hbad helf).elim
    | unstacked helf => exact (hbad helf).elim
    | replaced helf => exact (hbad helf).elim
  · exact Or.inl (exec_sound hsound hrun)

end

/-- What `freevm` needs to come to its end. -/
structure Freeable (m : Machine) (d : PgDir) : Prop where
  pages : ∀ v, v < 0x80000 → (d.entry v).p = true → (d.entry v).ppn ≠ 0 ∧
    (m.counts (d.entry v).ppn = 0 → m.image.kend ≤ (d.entry v).ppn ∧ (d.entry v).ppn < 0xE000)
  tables : ∀ x ∈ d.tables, m.counts x = 0 → m.image.kend ≤ x ∧ x < 0xE000
  frame : m.image.kend ≤ d.frame ∧ d.frame < 0xE000

/-- The frames of a new address space have counts, the others have kept theirs. -/
theorem Freeable.built {m0 : Machine} {xs lost : List Frame} (h : Freeable m0 d)
    (himage : m.image = m0.image)
    (hcounts : ∀ x, m.counts x = if x ∈ xs ∨ x ∈ lost then 1 else m0.counts x) : Freeable m d := by
  have hzero : ∀ x, m.counts x = 0 → m0.counts x = 0 := by
    intro x hx
    rw [hcounts] at hx
    split at hx
    · cases hx
    · exact hx
  refine ⟨fun v hv hp => ?_, fun x hx hc => ?_, ?_⟩
  · rw [himage]
    exact ⟨(h.pages v hv hp).1, fun hc => (h.pages v hv hp).2 (hzero _ hc)⟩
  · rw [himage]
    exact h.tables x hx (hzero x hc)
  · rw [himage]
    exact h.frame

theorem freeTables_total (xs : List Frame)
    (h : ∀ x ∈ xs, m.counts x = 0 → m.image.kend ≤ x ∧ x < 0xE000) :
    ∃ m', freeTables xs m = .ok m' := by
  induction xs generalizing m with
  | nil => exact ⟨m, rfl⟩
  | cons x xs ih =>
    have hx : ∃ m1, kfreeUnless (0 < m.getCount x) m x = .ok m1 := by
      unfold kfreeUnless Machine.getCount
      by_cases hc : m.counts x = 0
      · rw [if_neg (by simp [hc])]
        exact kfree_total (h x List.mem_cons_self hc).1 (h x List.mem_cons_self hc).2
      · rw [if_pos (by simp; omega)]
        exact ⟨m, rfl⟩
    obtain ⟨m1, hx⟩ := hx
    have hspec := kfreeUnless_spec hx
    refine exists_bind_ok hx (ih fun y hy => ?_)
    rw [hspec.counts, hspec.image]
    exact h y (List.mem_cons_of_mem x hy)

theorem freevm_total (h : Freeable m d) : ∃ m', freevm m d = .ok m' := by
  obtain ⟨sz, d1, m1, hd⟩ : ∃ sz d' m', deallocuvm m d 0x80000000 0 = .ok (sz, d', m') :=
    deallocuvm_total (Nat.le_refl _) fun v hp hv => h.pages v (by omega) hp
  obtain ⟨-, hf, hc⟩ := deallocuvm_spec (by omega) hd
  obtain ⟨m2, ht⟩ := freeTables_total d1.tables (m := m1) (by
    rw [hc.tables, hf.counts, hf.image]
    exact h.tables)
  have hspec := freeTables_spec ht
  refine exists_bind_ok hd (exists_bind_ok ht ?_)
  refine kfree_total ?_ ?_
  · rw [hc.frame, hspec.image, hf.image]
    exact h.frame.1
  · rw [hc.frame]
    exact h.frame.2

theorem iput_total (h : (fs.inode i).locked = false) : ∃ fs', iput fs (some i) = .ok fs' := by
  simp only [iput, h]
  exact ⟨_, rfl⟩

theorem readi_fs (off n : Nat) (hfile : (fs.inode i).type ≠ 3) : (readi fs (some i) off n).2 = fs := by
  simp only [readi, if_neg hfile]
  split <;> rfl

theorem iunlockput_total (hlock : (fs.inode i).locked = true) (href : 1 ≤ (fs.inode i).ref) :
    ∃ fs', iunlockput fs (some i) = .ok fs' := by
  have hun : iunlock fs (some i) = .ok (fs.setInode i { fs.inode i with locked := false }) := by
    rw [iunlock]
    dsimp only
    rw [if_neg (by rw [hlock]; simp; omega)]
    rfl
  refine exists_bind_ok hun (iput_total ?_)
  simp [Files.setInode]

theorem exec_total {k : Kernel} {p : Fin NPROC} (path : List UInt8) (slept : Nat → Bool)
    (hs : ExecSound k.fs k.mach.kmem i argv) (hlock : (k.fs.inode i).locked = false)
    (hold : Freeable k.mach (k.proc p).pgdir) :
    ∃ k', exec k p (some i) path argv slept = .ok (true, k') := by
  have ⟨hfile, hlen, hhdr, ⟨sz, hplan, hbound, hfree⟩, hargs⟩ := hs
  -- the inode, referenced and locked
  generalize hfs1 : k.fs.setInode i { k.fs.inode i with ref := (k.fs.inode i).ref + 1 } = fs1
  have hinode1 : fs1.inode i = { k.fs.inode i with ref := (k.fs.inode i).ref + 1 } := by
    rw [← hfs1]
    simp [Files.setInode]
  have hdup : idup k.fs (some i) = .ok fs1 := by rw [← hfs1]; rfl
  generalize hfs2 : fs1.setInode i { fs1.inode i with locked := true } = fs2
  have hinode2 : fs2.inode i = { fs1.inode i with locked := true } := by
    rw [← hfs2]
    simp [Files.setInode]
  have hilock : ilock fs1 (some i) = .ok fs2 := by
    simp only [ilock, ← hfs2]
    rw [if_neg (by rw [hinode1]; simp), if_neg (by rw [hinode1]; simp [hlock])]
    rfl
  have hfile2 : (fs2.inode i).type ≠ 3 := by rw [hinode2, hinode1]; exact hfile
  have hread : readi fs2 (some i) 0 52 = (some (k.fs.header i), fs2) := by
    have hsame := readi_fs 0 52 hfile2
    cases hr : readi fs2 (some i) 0 52 with
    | mk elf fs3 =>
      have helf : k.fs.header i = elf.getD [] := by
        rw [Files.header, (readi_locked hdup hilock hr).1]
      rw [hr] at hsame
      dsimp only at hsame
      rw [hsame, helf]
      cases elf with
      | none =>
        have := hhdr.1
        rw [helf] at this
        cases this
      | some bytes => rfl
  obtain ⟨d, m, hkvm⟩ := setupkvm_total
    (m := k.mach.resume (slept 0) (k.proc p).pgdir.frame) (by rw [resume_kmem]; omega)
  obtain ⟨l, hload, hsz, hfs⟩ : ∃ l, loadSegments (k.proc p).pgdir.frame slept (some i)
      (field (k.fs.header i) 44 2) ⟨m, fs2, d, 0, 1⟩ (field (k.fs.header i) 28 4) = .ok (true, l) ∧
        l.sz = sz ∧ l.fs = fs2 :=
    loadSegments_total (l := ⟨m, fs2, d, 0, 1⟩) (built_exec hkvm) (by simp) (Nat.zero_lt_succ _)
      hfile2 (by rw [hinode2, hinode1]; exact hlen) (by rw [hinode2, hinode1]; exact hplan)
      (by omega)
  have hloads : ExecLoads k p i slept fs2 m d true l :=
    ⟨hkvm, idup_ilock_inode hdup hilock, hload⟩
  obtain ⟨xs, hb, hxs, hszlt⟩ := hloads.built
  rw [hsz] at hxs hszlt
  obtain ⟨sp, d', m', hstack⟩ := buildStack_total hb hxs hbound (by omega) hargs.1 hargs.2 hszlt
  obtain ⟨fs3, hput⟩ : ∃ fs3, iunlockput l.fs (some i) = .ok fs3 :=
    iunlockput_total (by rw [hfs, hinode2]) (by rw [hfs, hinode2, hinode1]; simp)
  obtain ⟨xs', lost, hb', -⟩ := buildStack_spec hb hxs hszlt hstack
  obtain ⟨m4, hfreevm⟩ := freevm_total (hold.built (m := m'.lcr3 d'.frame) hb'.image hb'.counts)
  obtain ⟨⟨b, k'⟩, h⟩ : ∃ r, exec k p (some i) path argv slept = .ok r := by
    unfold exec
    refine exists_bind_ok hdup (exists_bind_ok hilock ?_)
    rw [hread]
    dsimp only [Option.getD]
    rw [if_neg (by rw [not_or, not_not, not_not]; exact hhdr)]
    refine exists_bind_ok hkvm (exists_bind_ok hload ?_)
    dsimp only
    rw [if_neg (by simp)]
    rw [← hsz] at hstack
    refine exists_bind_ok hput (exists_bind_ok hstack ?_)
    simp only [switchuvm, Kernel.setProc, Function.update_self]
    exact exists_bind_ok hfreevm ⟨_, rfl⟩
  rcases exec_cases h with ⟨hnone, -⟩ | ⟨j, hj, hrun⟩
  · cases hnone
  · cases hj
    rw [exec_sound hs hrun] at h
    exact ⟨k', h⟩

end Xv6
