import Xv6.Load

/-!
`exec` as a whole. A call that succeeds replaces the address space of the process and
hands the old one to `freevm`; a call that fails leaves every process as it was.
-/

namespace Xv6

open Function Lib

variable {m m' : Machine} {d : PgDir} {b : Bool} {argv : List (List UInt8)} {k k' : Kernel}
  {lost : List Frame} {ip : Option Nat} {i n sz va : Nat} {p : Fin NPROC} {bytes path : List UInt8}
  {slept : Nat → Bool} {fs fs1 fs2 : Files}

theorem copyLoopOut_spec (h : copyLoopOut n m d va bytes = .ok (b, m')) :
    m' = { m with mem := m'.mem } := by
  induction n generalizing m va bytes with
  | zero =>
    cases h
    rfl
  | succ n ih =>
    rw [copyLoopOut] at h
    split at h
    · cases h
      rfl
    obtain ⟨r, -, h⟩ := bind_eq_ok.mp h
    split at h
    · cases h
      rfl
    · rw [ih h]
      rfl

theorem copyout_spec (h : copyout m d va bytes = .ok (b, m')) : m' = { m with mem := m'.mem } :=
  copyLoopOut_spec h

theorem pushArgs_spec {sp : Nat} {ustack : List Nat} {r : Option (Nat × List Nat)}
    (h : pushArgs argv m d sp ustack = .ok (r, m')) : m' = { m with mem := m'.mem } := by
  induction argv generalizing m sp ustack with
  | nil =>
    cases h
    rfl
  | cons s argv ih =>
    rw [pushArgs] at h
    split at h
    · cases h
      rfl
    obtain ⟨⟨ok, m1⟩, hc, h⟩ := bind_eq_ok.mp h
    have hm := copyout_spec hc
    dsimp only at h
    split at h
    · rw [ih h, hm]
    · cases h
      exact hm

theorem clearpteu_spec {d' : PgDir} {uva : Nat} (hva : uva < 0x80000000)
    (h : clearpteu d uva = .ok d') : SameMap d d' ∧
      ∀ v, d'.entry v = if v = uva / 4096 then { d.entry v with u := false } else d.entry v := by
  unfold clearpteu at h
  split at h
  · cases h
  rename_i pte hw
  cases h
  refine ⟨SameMap.setPte hva hw rfl rfl, fun v => ?_⟩
  rw [PgDir.entry_setPte (by omega) hw]
  split
  · rename_i hv
    rw [hv, PgDir.entry_of_walk (by omega) hw]
  · rfl

section
variable {own : Frame} {m0 m m' : Machine} {d d' : PgDir} {xs : List Frame}

theorem Built.writes (h : Built own m0 m d xs lost) (hm : m' = { m with mem := m'.mem }) :
    Built own m0 m' d xs lost :=
  h.congr (SameMap.refl d) (by rw [hm]) (by rw [hm]) (by rw [hm]) (Or.inl (by rw [hm]))

/-- The page below the stack of a new image of size `sz` is not open to user code. -/
structure Guarded (d : PgDir) (sz : Nat) : Prop where
  aligned : sz % 4096 = 0
  room : 8192 ≤ sz
  present : (d.entry (sz / 4096 - 2)).p = true
  writable : (d.entry (sz / 4096 - 2)).w = true
  user : (d.entry (sz / 4096 - 2)).u = false

theorem guarded_stack {sz1 : Nat} {m1 : Machine} {d1 : PgDir} (hsz : sz < 0x80000000)
    (ha : allocuvm m d (pgroundup sz) (pgroundup sz + 2 * 4096) = .ok (sz1, d1, m1)) (hne : sz1 ≠ 0)
    (hclear : ∀ v, d'.entry v =
      if v = (sz1 - 2 * 4096) / 4096 then { d1.entry v with u := false } else d1.entry v) :
    Guarded d' sz1 ∧ ∀ v, v < sizePages sz → d'.entry v = d.entry v := by
  have hal := pgroundup_aligned sz
  have hround : pgroundup sz ≤ 0x80000000 ∧ pgroundup (pgroundup sz) / 4096 = pgroundup sz / 4096 ∧
      pgroundup sz / 4096 = sizePages sz := by
    unfold sizePages pagesTo pgroundup
    omega
  obtain ⟨hle, hlow, hpages⟩ := hround
  rcases allocuvm_spec hle ha with
    ⟨-, -, h1 | h1⟩ | ⟨-, hlt, rfl, ys, hys, hg⟩ | ⟨-, -, h1, -⟩
  · exact (hne h1.2).elim
  · omega
  · have hlen : ys.length = 2 := by
      rw [hys]
      unfold allocPages pagesTo
      omega
    have hguard := hg.mapped 0 (by omega)
    rw [hlow, Nat.add_zero] at hguard
    rw [hlow] at hg
    have hpage : (pgroundup sz + 2 * 4096) / 4096 - 2 = pgroundup sz / 4096 := by omega
    have hentry : d'.entry ((pgroundup sz + 2 * 4096) / 4096 - 2) =
        { d1.entry (pgroundup sz / 4096) with u := false } := by
      rw [hpage, hclear, if_pos (by omega)]
    refine ⟨⟨by omega, by omega, ?_, ?_, ?_⟩, fun v hv => ?_⟩
    · rw [hentry, hguard]
      rfl
    · rw [hentry, hguard]
      rfl
    · rw [hentry]
    · rw [hclear, if_neg (by omega), hg.kept v (Or.inl (by omega))]
  · exact (hne h1).elim

theorem buildStack_spec {r : Option (Nat × Nat)} (hb : Built own m0 m d xs [])
    (hxs : xs.length = sizePages sz) (hsz : sz < 0x80000000)
    (h : buildStack m d sz argv = .ok (r, d', m')) : ∃ xs' lost', Built own m0 m' d' xs' lost' ∧
      ∀ sz' sp, r = some (sz', sp) → lost' = [] ∧ xs'.length = sizePages sz' ∧ sz' < 0x80000000 ∧
        Guarded d' sz' ∧ ∀ v, v < sizePages sz → d'.entry v = d.entry v := by
  have hround : sizePages (pgroundup sz) = sizePages sz ∧ pgroundup sz ≤ 0x80000000 := by
    unfold sizePages pagesTo pgroundup
    omega
  obtain ⟨⟨sz1, d1, m1⟩, ha, h⟩ := bind_eq_ok.mp h
  obtain ⟨xs1, lost1, hb1, hok⟩ := hb.allocuvm (hxs.trans hround.1.symm) hround.2 ha
  dsimp only at h
  split at h
  · cases h
    exact ⟨xs1, lost1, hb1, by simp⟩
  rename_i hne
  obtain ⟨rfl, hxs1, hnew, hmax⟩ := hok hne
  obtain ⟨d2, hc, h⟩ := bind_eq_ok.mp h
  obtain ⟨hsame, hclear⟩ := clearpteu_spec (by omega) hc
  have hb2 := hb1.congr hsame rfl rfl rfl (Or.inl rfl)
  obtain ⟨⟨r1, m2⟩, hp, h⟩ := bind_eq_ok.mp h
  have hb3 := hb2.writes (pushArgs_spec hp)
  cases r1 with
  | none =>
    cases h
    exact ⟨xs1, [], hb3, by simp⟩
  | some r2 =>
    obtain ⟨sp, ustack⟩ := r2
    obtain ⟨⟨ok, m3⟩, ho, h⟩ := bind_eq_ok.mp h
    have hb4 := hb3.writes (copyout_spec ho)
    cases h
    refine ⟨xs1, [], hb4, ?_⟩
    intro sz' sp' hr
    dsimp only at hr
    split at hr
    · cases hr
      exact ⟨rfl, hxs1, by omega, guarded_stack hsz ha hne hclear⟩
    · cases hr

theorem built_setupkvm (h : setupkvm m0 = .ok (some d, m)) : Built own m0 m d [] [] := by
  rcases setupkvm_spec h with ⟨d', hd, hm, hfree, -, huser, hkernel, -⟩ | ⟨hnone, -⟩
  · cases hd
    refine ⟨by rw [hm], by simpa using hfree, fun x => by rw [hm]; simp, by simp, ?_, by simp,
      hkernel, Or.inl (by rw [hm])⟩
    intro v hv
    rw [huser v hv]
    simp
  · cases hnone

/-- Nothing before `setupkvm` changes memory; a switch may have reloaded CR3. -/
theorem Built.start {k : Machine} (h : Built own m0 m d xs lost) (himage : m0.image = k.image)
    (hkmem : m0.kmem = k.kmem) (hcounts : m0.counts = k.counts)
    (hcr3 : m0.cr3 = k.cr3 ∨ m0.cr3 = own) : Built own k m d xs lost := by
  refine ⟨h.image.trans himage, ?_, ?_, h.length, h.present, h.ppn, by rw [← himage]; exact h.kernel, ?_⟩
  · rw [← hkmem]
    exact h.free
  · rw [← hcounts]
    exact h.counts
  · rcases h.cr3 with he | he | he
    · rcases hcr3 with he' | he'
      · exact Or.inl (he.trans he')
      · exact Or.inr (Or.inl (he.trans he'))
    · exact Or.inr (Or.inl he)
    · exact Or.inr (Or.inr he)

end

/-- A failed `exec`: the frames `lost` left the free list and are mapped nowhere, the
frames `kept` are page tables with a count. -/
structure ExecFailed (m m' : Machine) : Prop where
  image : m'.image = m.image
  balance : ∃ (kept : Multiset Frame) (lost : List Frame),
    m.kmem.free = m'.kmem.free + kept + lost ∧ (∀ x ∈ kept, 0 < m'.counts x) ∧
    ∀ x, m'.counts x = if x ∈ lost then 1 else m.counts x

theorem execFailed_refl (himage : m'.image = m.image) (hkmem : m'.kmem = m.kmem)
    (hcounts : m'.counts = m.counts) : ExecFailed m m' :=
  ⟨himage, 0, [], by simp [hkmem], by simp, by simp [hcounts]⟩

theorem execBad_none (h : execBad k none ip = .ok (b, k')) :
    b = false ∧ k' = { k with mach := k.mach, fs := k'.fs } := by
  obtain ⟨m, hm, h⟩ := bind_eq_ok.mp h
  obtain ⟨fs, -, h⟩ := bind_eq_ok.mp h
  cases hm
  cases h
  exact ⟨rfl, rfl⟩

/-- The kernel after `exec` replaced the address space of `p` by `d`. -/
structure Replaced (k : Kernel) (p : Fin NPROC) (k' : Kernel) (m : Machine) (d : PgDir) (sz : Nat)
    (xs : List Frame) : Prop where
  built : Built (k.proc p).pgdir.frame k.mach m d xs []
  length : xs.length = sizePages sz
  bound : sz < 0x80000000
  guard : Guarded d sz
  eq : ∃ name tf, k' = { k with mach := k'.mach, fs := k'.fs }.setProc p
    { k.proc p with name := name, pgdir := d, sz := sz, tf := tf }
  freed : Freed (m.lcr3 d.frame) ((k.proc p).pgdir.freed m.counts) k'.mach

/-- The bytes `exec` takes for the ELF header. -/
def Files.header (fs : Files) (i : Nat) : List UInt8 := (readi fs (some i) 0 52).1.getD []

def IsElf (hdr : List UInt8) : Prop := hdr.length = 52 ∧ field hdr 0 4 = 0x464C457F

/-- The machine after a read in which the process may have been switched out. -/
def Machine.resume (m : Machine) (slept : Bool) (own : Frame) : Machine :=
  if slept then m.lcr3 own else m

/-- `exec` of inode `i` has built a directory and gone through the program headers; `ok` says
whether all of them could be loaded. -/
structure ExecLoads (k : Kernel) (p : Fin NPROC) (i : Nat) (slept : Nat → Bool) (fs : Files)
    (m : Machine) (d : PgDir) (ok : Bool) (l : Loading) : Prop where
  kvm : setupkvm (k.mach.resume (slept 0) (k.proc p).pgdir.frame) = .ok (some d, m)
  inode : fs.inode = update k.fs.inode i
    { k.fs.inode i with ref := (k.fs.inode i).ref + 1, locked := true }
  load : loadSegments (k.proc p).pgdir.frame slept (some i) (field (k.fs.header i) 44 2)
    ⟨m, fs, d, 0, 1⟩ (field (k.fs.header i) 28 4) = .ok (ok, l)

inductive ExecRun (k : Kernel) (p : Fin NPROC) (i : Nat) (path : List UInt8)
    (argv : List (List UInt8)) (slept : Nat → Bool) : Bool → Kernel → Prop where
  | refused {fs : Files} : ¬ IsElf (k.fs.header i) → ExecRun k p i path argv slept false
      { k with mach := k.mach.resume (slept 0) (k.proc p).pgdir.frame, fs := fs }
  | unbuilt {fs : Files} {m : Machine} : IsElf (k.fs.header i) →
      setupkvm (k.mach.resume (slept 0) (k.proc p).pgdir.frame) = .ok (none, m) →
      ExecRun k p i path argv slept false { k with mach := m, fs := fs }
  | unloaded {fs fs' : Files} {m m' : Machine} {d : PgDir} {l : Loading} :
      IsElf (k.fs.header i) → ExecLoads k p i slept fs m d false l → freevm l.mach l.d = .ok m' →
      ExecRun k p i path argv slept false { k with mach := m', fs := fs' }
  | unstacked {fs fs' : Files} {m m1 m' : Machine} {d d' : PgDir} {l : Loading} :
      IsElf (k.fs.header i) → ExecLoads k p i slept fs m d true l →
      buildStack (l.mach.resume (slept l.reads) (k.proc p).pgdir.frame) l.d l.sz argv =
        .ok (none, d', m1) →
      freevm m1 d' = .ok m' → ExecRun k p i path argv slept false { k with mach := m', fs := fs' }
  | replaced {fs fs' : Files} {m m1 m' : Machine} {d d' : PgDir} {l : Loading} {sz sp : Nat} :
      IsElf (k.fs.header i) → ExecLoads k p i slept fs m d true l →
      iunlockput l.fs (some i) = .ok fs' →
      buildStack (l.mach.resume (slept l.reads) (k.proc p).pgdir.frame) l.d l.sz argv =
        .ok (some (sz, sp), d', m1) →
      freevm (m1.lcr3 d'.frame) (k.proc p).pgdir = .ok m' →
      ExecRun k p i path argv slept true ({ k with mach := m', fs := fs' }.setProc p { k.proc p with
        name := lastComponent path, pgdir := d', sz := sz,
        tf := { (k.proc p).tf with eip := field (k.fs.header i) 24 4, esp := sp } })

theorem inode_readi (fs : Files) (ip : Option Nat) (off n : Nat) :
    (readi fs ip off n).2.inode = fs.inode := by
  unfold readi
  cases ip with
  | none => rfl
  | some i =>
    dsimp only
    split_ifs <;> rfl

theorem idup_ilock_inode (hdup : idup fs (some i) = .ok fs1) (hlock : ilock fs1 (some i) = .ok fs2) :
    fs2.inode = update fs.inode i
      { fs.inode i with ref := (fs.inode i).ref + 1, locked := true } := by
  cases hdup
  unfold ilock at hlock
  dsimp only at hlock
  split_ifs at hlock
  cases hlock
  simp [Files.setInode]

theorem readi_locked {fs3 : Files} {off : Nat} {bytes : Option (List UInt8)}
    (hdup : idup fs (some i) = .ok fs1) (hlock : ilock fs1 (some i) = .ok fs2)
    (hr : readi fs2 (some i) off n = (bytes, fs3)) :
    (readi fs (some i) off n).1 = bytes ∧ fs3.inode = update fs.inode i
      { fs.inode i with ref := (fs.inode i).ref + 1, locked := true } := by
  have hinode : fs3.inode = fs2.inode := by rw [← inode_readi fs2 (some i) off n, hr]
  refine ⟨?_, hinode.trans (idup_ilock_inode hdup hlock)⟩
  cases hdup
  unfold ilock at hlock
  dsimp only at hlock
  split_ifs at hlock
  cases hlock
  unfold readi at hr ⊢
  simp only [Files.setInode, update_self] at hr
  dsimp only
  split_ifs at hr ⊢ <;> cases hr <;> rfl

theorem exec_cases (h : exec k p ip path argv slept = .ok (b, k')) :
    (ip = none ∧ b = false ∧ k' = k) ∨ ∃ i, ip = some i ∧ ExecRun k p i path argv slept b k' := by
  unfold exec at h
  split at h
  · cases h
    exact Or.inl ⟨rfl, rfl, rfl⟩
  rename_i i
  refine Or.inr ⟨i, rfl, ?_⟩
  obtain ⟨fs1, hdup, h⟩ := bind_eq_ok.mp h
  obtain ⟨fs2, hlock, h⟩ := bind_eq_ok.mp h
  dsimp only at h
  cases hr : readi fs2 (some i) 0 52 with
  | mk elf fs3 =>
    obtain ⟨hbytes, hinode⟩ := readi_locked hdup hlock hr
    have hhdr : elf.getD [] = k.fs.header i := by rw [Files.header, hbytes]
    simp only [hr, hhdr] at h
    split at h
    · rename_i hbad
      obtain ⟨rfl, hk⟩ := execBad_none h
      rw [hk]
      refine .refused fun helf => ?_
      rcases hbad with hlen | hmagic
      · exact hlen helf.1
      · exact hmagic helf.2
    rename_i hgood
    rw [not_or, not_not, not_not] at hgood
    have helf : IsElf (k.fs.header i) := hgood
    obtain ⟨⟨r, m1⟩, hs, h⟩ := bind_eq_ok.mp h
    cases r with
    | none =>
      obtain ⟨rfl, hk⟩ := execBad_none h
      rw [hk]
      exact .unbuilt helf hs
    | some d =>
      obtain ⟨⟨ok, l⟩, hl, h⟩ := bind_eq_ok.mp h
      dsimp only at h
      split at h
      · rename_i hok
        obtain ⟨m, hm, h⟩ := bind_eq_ok.mp h
        obtain ⟨fs, -, h⟩ := bind_eq_ok.mp h
        cases h
        rw [show ok = false by simpa using hok] at hl
        exact .unloaded helf ⟨hs, hinode, hl⟩ hm
      rename_i hok
      rw [show ok = true by simpa using hok] at hl
      obtain ⟨fs4, hput, h⟩ := bind_eq_ok.mp h
      obtain ⟨⟨r, d2, m2⟩, hst, h⟩ := bind_eq_ok.mp h
      cases r with
      | none =>
        obtain ⟨m, hm, h⟩ := bind_eq_ok.mp h
        cases h
        exact .unstacked helf ⟨hs, hinode, hl⟩ hst hm
      | some r =>
        obtain ⟨sz, sp⟩ := r
        obtain ⟨m3, hfv, h⟩ := bind_eq_ok.mp h
        cases h
        simp only [switchuvm, Kernel.setProc, update_self] at hfv
        exact .replaced helf ⟨hs, hinode, hl⟩ hput hst hfv

theorem exec_replaced (h : exec k p (some i) path argv slept = .ok (true, k')) :
    ExecRun k p i path argv slept true k' := by
  rcases exec_cases h with ⟨hnone, -⟩ | ⟨j, hj, hrun⟩
  · cases hnone
  · cases hj
    exact hrun

theorem resume_image (m : Machine) (b : Bool) (own : Frame) :
    (m.resume b own).image = m.image := by
  cases b <;> rfl

theorem resume_kmem (m : Machine) (b : Bool) (own : Frame) : (m.resume b own).kmem = m.kmem := by
  cases b <;> rfl

theorem resume_counts (m : Machine) (b : Bool) (own : Frame) :
    (m.resume b own).counts = m.counts := by
  cases b <;> rfl

theorem resume_cr3 (m : Machine) (b : Bool) (own : Frame) :
    (m.resume b own).cr3 = m.cr3 ∨ (m.resume b own).cr3 = own := by
  cases b
  · exact Or.inl rfl
  · exact Or.inr rfl

section
variable {k : Kernel} {p : Fin NPROC} {i n off : Nat} {slept : Nat → Bool} {m : Machine}
  {d : PgDir} {fs : Files} {l : Loading}

theorem built_exec (hs : setupkvm (k.mach.resume (slept 0) (k.proc p).pgdir.frame) =
    .ok (some d, m)) : Built (k.proc p).pgdir.frame k.mach m d [] [] :=
  (built_setupkvm hs).start (resume_image ..) (resume_kmem ..) (resume_counts ..) (resume_cr3 ..)

theorem ExecLoads.data {ok : Bool} (h : ExecLoads k p i slept fs m d ok l) :
    (fs.inode i).data = (k.fs.inode i).data ∧ (fs.inode i).type = (k.fs.inode i).type := by
  rw [h.inode, update_self]
  exact ⟨rfl, rfl⟩

theorem ExecLoads.built (h : ExecLoads k p i slept fs m d true l) :
    ∃ xs, Built (k.proc p).pgdir.frame k.mach
      (l.mach.resume (slept l.reads) (k.proc p).pgdir.frame) l.d xs [] ∧
      xs.length = sizePages l.sz ∧ l.sz < 0x80000000 := by
  obtain ⟨xs, lost, hb, hok⟩ := loadSegments_spec (l := ⟨m, fs, d, 0, 1⟩) (built_exec h.kvm) (by simp)
    (Nat.zero_lt_succ _) h.load
  obtain ⟨rfl, hxs, hsz⟩ := hok rfl
  refine ⟨xs, hb.congr (SameMap.refl _) (resume_image ..) (resume_counts ..) (resume_kmem ..) ?_,
    hxs, hsz⟩
  rcases resume_cr3 l.mach (slept l.reads) (k.proc p).pgdir.frame with he | he
  · exact Or.inl he
  · exact Or.inr (Or.inl he)

end

theorem Built.failed {own : Frame} {m0 : Machine} {xs : List Frame} (hb : Built own m0 m d xs lost)
    (h : freevm m d = .ok m') : ExecFailed m0 m' := by
  have hf := freevm_spec h
  obtain ⟨kept, hkept, hcount⟩ := hb.freed
  refine ⟨hf.image.trans hb.image, kept, xs ++ lost, ?_, ?_, ?_⟩
  · rw [hb.free, hkept, hf.free, ← Multiset.coe_add]
    abel
  · rw [hf.counts]
    exact hcount
  · intro x
    rw [hf.counts, hb.counts]
    simp [List.mem_append]

theorem exec_spec (h : exec k p ip path argv slept = .ok (b, k')) :
    (b = false ∧ k' = { k with mach := k'.mach, fs := k'.fs } ∧ ExecFailed k.mach k'.mach) ∨
    (b = true ∧ ∃ m d sz xs, Replaced k p k' m d sz xs) := by
  rcases exec_cases h with ⟨-, rfl, rfl⟩ | ⟨i, -, hrun⟩
  · exact Or.inl ⟨rfl, rfl, execFailed_refl rfl rfl rfl⟩
  cases hrun with
  | refused _ =>
    exact Or.inl ⟨rfl, rfl, execFailed_refl (resume_image ..) (resume_kmem ..)
      (resume_counts ..)⟩
  | unbuilt _ hs =>
    refine Or.inl ⟨rfl, rfl, ?_⟩
    rcases setupkvm_spec hs with ⟨d, hd, -⟩ | ⟨-, hi, hc, -, -, -, -, kept, hfree, hpos⟩
    · cases hd
    rw [resume_kmem] at hfree
    rw [resume_counts] at hc hpos
    refine ⟨hi.trans (resume_image ..), kept, [], by simpa using hfree, ?_, ?_⟩
    · rw [hc]
      exact hpos
    · intro x
      rw [hc]
      simp
  | unloaded _ hl hm =>
    obtain ⟨xs, lost, hb, -⟩ := loadSegments_spec (built_exec hl.kvm) (by simp)
      (Nat.zero_lt_succ _) hl.load
    exact Or.inl ⟨rfl, rfl, hb.failed hm⟩
  | unstacked _ hl hst hm =>
    obtain ⟨xs, hb, hxs, hsz⟩ := hl.built
    obtain ⟨xs2, lost2, hb2, -⟩ := buildStack_spec hb hxs hsz hst
    exact Or.inl ⟨rfl, rfl, hb2.failed hm⟩
  | @replaced fs fs' m m1 m' d d' l sz sp _ hl _ hst hm =>
    obtain ⟨xs, hb, hxs, hsz⟩ := hl.built
    obtain ⟨xs2, lost2, hb2, hres⟩ := buildStack_spec hb hxs hsz hst
    obtain ⟨rfl, hxs2, hsz2, hguard, -⟩ := hres sz sp rfl
    exact Or.inr ⟨rfl, m1, d', sz, xs2, hb2, hxs2, hsz2, hguard, ⟨_, _, rfl⟩, freevm_spec hm⟩

end Xv6
