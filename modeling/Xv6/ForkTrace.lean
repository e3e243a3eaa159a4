import Xv6.ForkMemory
import Xv6.ForkTotal
import Xv6.GrowFailure
import Xv6.SpaceTrades

/-!
A `fork` that returns -1. What it leaves behind is compared with the state before it: frames,
counts, references, the process table and the answer of `wait`. Only the exits before the first
page is shared undo everything.
-/

namespace Xv6

open Function Multiset Kernel

variable {m : Machine} {d d1 pgdir : PgDir} {s : Frame} {a a1 : Kmem} {k k' : Kernel}
  {p q : Fin NPROC} {done : List Nat} {j n t : Nat} {xs : List Frame}
  {is : List (Fin MAX_WMMAP_INFO)}

/-- Machines in which `kfree` and `freevm` take the same decisions. -/
structure Machine.Alike (m m' : Machine) : Prop where
  image : m'.image = m.image
  counts : m'.counts = m.counts

section
variable {m m' : Machine}

section
variable (h : m.Alike m')
include h

theorem kfree_agree (x : Frame) : Lib.Agree Machine.Alike (kfree m x) (kfree m' x) := by
  unfold kfree
  rw [h.image]
  split
  · exact .error _
  · exact .ok ⟨h.image, h.counts⟩

theorem kfreeUnless_agree (b : Bool) (x : Frame) :
    Lib.Agree Machine.Alike (kfreeUnless b m x) (kfreeUnless b m' x) := by
  unfold kfreeUnless
  split
  · exact .ok h
  · exact kfree_agree h x

theorem deallocPage_agree (d : PgDir) (a : Nat) (pte : Pte) :
    Lib.Agree (fun r r' => r.1.1.Alike r'.1.1 ∧ r'.1.2 = r.1.2 ∧ r'.2 = r.2)
      (deallocPage (m, d) a pte) (deallocPage (m', d) a pte) := by
  unfold deallocPage
  split
  · exact .error _
  · dsimp only
    rw [Machine.getCount, Machine.getCount, h.counts]
    exact (kfreeUnless_agree h _ _).bind fun _ _ h1 => .ok ⟨h1, rfl, rfl⟩

theorem sweep_agree {a bound : Nat} : Lib.Agree (fun r r' => r.1.1.Alike r'.1.1 ∧ r'.1.2 = r.1.2)
      (sweep Prod.snd deallocPage n (m, d) a bound) (sweep Prod.snd deallocPage n (m', d) a bound) := by
  induction n generalizing m m' d a with
  | zero =>
    rw [sweep, sweep]
    split
    · exact .error _
    · exact .ok ⟨h, rfl⟩
  | succ n ih =>
    rw [sweep, sweep]
    split
    · dsimp only
      split
      · exact ih h
      split
      · refine (deallocPage_agree h d a _).bind ?_
        rintro ⟨⟨m1, d1⟩, go⟩ ⟨⟨m2, d2⟩, go'⟩ ⟨hm, hd, hgo⟩
        dsimp only at hm hd hgo
        subst hd hgo
        dsimp only
        split
        · exact ih hm
        · exact .ok ⟨hm, rfl⟩
      · exact ih h
    · exact .ok ⟨h, rfl⟩

theorem deallocuvm_agree (d : PgDir) (oldsz newsz : Nat) :
    Lib.Agree (fun r r' => r.2.2.Alike r'.2.2 ∧ r'.2.1 = r.2.1)
      (deallocuvm m d oldsz newsz) (deallocuvm m' d oldsz newsz) := by
  unfold deallocuvm
  split
  · exact .ok ⟨h, rfl⟩
  · exact (sweep_agree h).bind fun _ _ hr => .ok hr

theorem freeTables_agree : Lib.Agree Machine.Alike (freeTables xs m) (freeTables xs m') := by
  induction xs generalizing m m' with
  | nil => exact .ok h
  | cons x xs ih =>
    rw [freeTables, freeTables, Machine.getCount, Machine.getCount, h.counts]
    exact (kfreeUnless_agree h _ x).bind fun _ _ => ih

theorem freevm_agree (d : PgDir) : Lib.Agree Machine.Alike (freevm m d) (freevm m' d) := by
  unfold freevm
  refine (deallocuvm_agree h d 0x80000000 0).bind ?_
  rintro ⟨sz, d1, m1⟩ ⟨sz', d2, m2⟩ ⟨hm, he⟩
  dsimp only at hm he
  subst he
  exact (freeTables_agree hm).bind fun _ _ h2 => kfree_agree h2 _

end

end

/-- `wait` returns the same when the machines decide alike and the table shows the same
children, with the zombies as they were. -/
theorem wait_agree (hm : k.mach.Alike k'.mach) (hstate : ∀ q, (k'.proc q).state = (k.proc q).state)
    (hparent : ∀ q, (k'.proc q).parent = (k.proc q).parent)
    (hkilled : (k'.proc p).killed = (k.proc p).killed)
    (hzombie : ∀ q, (k.proc q).state = .zombie → k'.proc q = k.proc q) :
    Lib.Agree (fun r r' => r'.1 = r.1) (wait k p) (wait k' p) := by
  have hchildren : k'.children p = k.children p := by
    simp only [Kernel.children, hparent]
  have hchild : k'.zombieChild p = k.zombieChild p := by
    simp only [Kernel.zombieChild, hchildren, hstate]
  unfold wait
  rw [hchild]
  split
  · rename_i q hq
    have hz : (k.proc q).state = .zombie := by simpa using List.find?_some hq
    rw [hzombie q hz]
    dsimp only
    split
    · exact .error _
    · refine (kfree_agree hm _).bind fun m m' hm' => ?_
      exact (freevm_agree hm' _).bind fun _ _ _ => .ok rfl
  · rw [hchildren, hkilled]
    split
    · exact .ok rfl
    · exact .error _

/-- The kernel `k'` after a failed `fork` of process `p` shows no trace of it: the free frames,
the counts, the references to files and inodes, the table and the answer of `wait` are as in
`k`. Entries of page tables are not part of it. -/
structure Traceless (k : Kernel) (p : Fin NPROC) (k' : Kernel) : Prop where
  free : k'.mach.kmem.free = k.mach.kmem.free
  counts : k'.mach.counts = k.mach.counts
  files : ∀ f, (k'.fs.file f).ref = (k.fs.file f).ref
  inodes : ∀ i, (k'.fs.inode i).ref = (k.fs.inode i).ref
  slots : ∀ q, (k'.proc q).state = (k.proc q).state ∧ (k'.proc q).parent = (k.proc q).parent
  table : ∀ q, (k.proc q).live → (k'.proc q).pgdir.frame = (k.proc q).pgdir.frame ∧
    k'.proc q = { k.proc q with pgdir := (k'.proc q).pgdir }
  wait : Lib.Agree (fun r r' => r'.1 = r.1) (wait k p) (wait k' p)

/-- `fork` of process `p` fails without a trace: there is no slot, no frame for the kernel
stack, or memory runs out before a page is counted and no frame that became a page table carries
a count. -/
def Kernel.FailsClean (k : Kernel) (p : Fin NPROC) : Prop :=
  (∀ q, (k.proc q).live) ∨ k.mach.kmem.freelist = [] ∨
    ((k.mach.kmem.freelist.length ≤ 65 ∨
        1024 * (k.mach.kmem.freelist.length - 66) < sizePages (k.proc p).sz) ∧
      (∀ v, v < 1024 * (k.mach.kmem.freelist.length - 66) →
        255 ≤ k.mach.counts ((k.proc p).pgdir.entry v).ppn) ∧
      ∀ x ∈ k.mach.kmem.freelist.drop 2, k.mach.counts x = 0)

/-- Counting every frame of a list changes nothing exactly when all the counts are at their
bound. -/
theorem incAll_eq_self_iff {counts : Frame → Nat} :
    incAll counts xs = counts ↔ ∀ x ∈ xs, 255 ≤ counts x := by
  constructor
  · intro h x hx
    have hle := incAll_of_mem counts hx
    rw [h] at hle
    omega
  · intro h
    induction xs with
    | nil => rfl
    | cons x xs ih =>
      have hone : incOne counts x = counts := by
        unfold incOne
        rw [if_neg (by have := h x (by simp); omega)]
      rw [incAll, hone]
      exact ih fun y hy => h y (List.mem_cons_of_mem x hy)

section
variable {k k' : Kernel} {p np : Fin NPROC}

theorem ForkFailed.traceless (hrun : (k.proc p).state = .running)
    (h : ForkFailed k p np k' s a m j t) (hfs : k'.fs = k.fs) (hfree : m.kmem.free = a.free)
    (hcounts : m.counts = k.mach.counts) : Traceless k p k' := by
  have hstate : ∀ q, (k'.proc q).state = (k.proc q).state ∧
      (k'.proc q).parent = (k.proc q).parent := by
    intro q
    by_cases hqp : q = p
    · rw [hqp, h.parent]
      exact ⟨rfl, rfl⟩
    · by_cases hqn : q = np
      · rw [hqn, h.child]
        exact ⟨h.unused.symm, rfl⟩
      · rw [h.others q hqp hqn]
        exact ⟨rfl, rfl⟩
  have hmach : k.mach.Alike k'.mach :=
    ⟨h.freed.image.trans h.copy.image, h.freed.counts.trans hcounts⟩
  refine ⟨?_, hmach.counts, fun f => by rw [hfs], fun i => by rw [hfs], hstate, ?_, ?_⟩
  · rw [h.freed.free, hfree, free_kalloc h.stack, ← singleton_add, add_comm]
  · intro q hq
    by_cases hqp : q = p
    · rw [hqp]
      exact ⟨h.copy.parentFrame, h.parent⟩
    · have hqn : q ≠ np := by
        rintro rfl
        exact hq h.unused
      rw [h.others q hqp hqn]
      exact ⟨rfl, rfl⟩
  · refine wait_agree hmach (fun q => (hstate q).1) (fun q => (hstate q).2)
      (by rw [h.parent]) fun q hz => h.others q ?_ ?_
    · rintro rfl
      rw [hrun] at hz
      cases hz
    · rintro rfl
      rw [h.unused] at hz
      cases hz

theorem allocproc_traceless (hrun : (k.proc p).state = .running) (h : allocproc k = (none, k')) :
    Traceless k p k' := by
  rcases allocproc_none h with rfl | ⟨np, hun, hnil, rfl⟩
  · refine ⟨rfl, rfl, fun _ => rfl, fun _ => rfl, fun _ => ⟨rfl, rfl⟩, fun q _ => ⟨rfl, rfl⟩, ?_⟩
    exact wait_agree ⟨rfl, rfl⟩ (fun _ => rfl) (fun _ => rfl) rfl fun _ _ => rfl
  have hne : ∀ {q}, (k.proc q).state ≠ .unused → q ≠ np := by
    rintro q hq rfl
    exact hq hun
  have hp : p ≠ np := hne (by rw [hrun]; decide)
  have hslots : ∀ q, ((update k.proc np
      { k.proc np with pid := k.nextpid, kstack := none }) q).state = (k.proc q).state ∧
      ((update k.proc np
        { k.proc np with pid := k.nextpid, kstack := none }) q).parent = (k.proc q).parent := by
    intro q
    by_cases hq : q = np
    · subst hq
      rw [update_self]
      exact ⟨rfl, rfl⟩
    · rw [update_of_ne hq]
      exact ⟨rfl, rfl⟩
  refine ⟨rfl, rfl, fun _ => rfl, fun _ => rfl, hslots, fun q hq => ?_, ?_⟩
  · rw [proc_setProc_ne (hne hq)]
    exact ⟨rfl, rfl⟩
  · refine wait_agree ⟨rfl, rfl⟩ (fun q => (hslots q).1) (fun q => (hslots q).2) ?_ fun q hz => ?_
    · rw [proc_setProc_ne hp]
    · exact proc_setProc_ne (hne (by rw [hz]; decide))

theorem allocproc_failsClean (h : allocproc k = (none, k')) : k.FailsClean p := by
  unfold allocproc at h
  split at h
  · rename_i hnone
    refine Or.inl fun q hq => ?_
    have := List.find?_eq_none.mp hnone q (List.mem_finRange q)
    simp [hq] at this
  · dsimp only at h
    split at h
    · rename_i a hk
      exact Or.inr (Or.inl (kalloc_none hk).1)
    · cases h

theorem ForkFailed.traceless_iff (hrun : (k.proc p).state = .running)
    (h : ForkFailed k p np k' s a m j t) (hfs : k'.fs = k.fs)
    (hc : CopyShort { k.mach with kmem := a } (k.proc p).pgdir (sizePages (k.proc p).sz) m) :
    Traceless k p k' ↔ k.FailsClean p := by
  obtain ⟨hshort, hcounts, hfree⟩ := hc
  have hlist := (kalloc_some h.stack).1
  dsimp only at hshort hcounts hfree
  have hcard : a.free.card = a.freelist.length := coe_card _
  have hpages : a.free.card - 65 = k.mach.kmem.freelist.length - 66 := by
    rw [hlist, List.length_cons]
    omega
  have hdrop : k.mach.kmem.freelist.drop 2 = a.freelist.tail := by
    rw [hlist, List.drop_succ_cons, List.drop_one]
  rw [hpages] at hshort hcounts
  constructor
  · intro htrace
    have hcountsEq : m.counts = k.mach.counts := h.freed.counts.symm.trans htrace.counts
    refine Or.inr (Or.inr ⟨?_, ?_, ?_⟩)
    · rw [hlist, List.length_cons] at hshort ⊢
      omega
    · rw [hcounts, incAll_eq_self_iff] at hcountsEq
      intro v hv
      exact hcountsEq _ (List.mem_map_of_mem (List.mem_range'_1.mpr ⟨Nat.zero_le v, by omega⟩))
    · have hsame : m.kmem.free = a.free := by
        have he := htrace.free
        rw [h.freed.free, free_kalloc h.stack, ← singleton_add, add_comm] at he
        exact add_left_cancel he
      rw [← hsame, left_eq_add, coe_eq_zero, List.filter_eq_nil_iff] at hfree
      rw [hdrop]
      intro x hx
      rw [← hcountsEq]
      simpa using hfree x hx
  · rintro (hlive | hnil | ⟨-, hsat, hzero⟩)
    · exact (hlive np h.unused).elim
    · rw [hlist] at hnil
      cases hnil
    have hcountsEq : m.counts = k.mach.counts := by
      rw [hcounts, incAll_eq_self_iff]
      intro x hx
      obtain ⟨v, hv, rfl⟩ := List.mem_map.mp hx
      exact hsat v (by have := List.mem_range'_1.mp hv; omega)
    refine h.traceless hrun hfs ?_ hcountsEq
    have hnone : (a.freelist.tail.filter fun x => !(m.counts x == 0)) = [] := by
      rw [List.filter_eq_nil_iff]
      intro x hx
      rw [hcountsEq, hzero x (by rw [hdrop]; exact hx)]
      decide
    rw [hnone, coe_nil, add_zero] at hfree
    exact hfree.symm

theorem ForkDropped.not_traceless (h : ForkDropped k p np k' s a a1 m d d1 done) :
    ¬ Traceless k p k' := by
  intro htrace
  have he := congrArg Multiset.card htrace.free
  rw [h.freed.free, free_kalloc h.stack, h.free_eq, card_add, card_cons,
    card_add, card_singleton, PgDir.frames, card_cons] at he
  dsimp only at he
  omega

theorem ForkDropped.not_failsClean (h : ForkDropped k p np k' s a a1 m d d1 done)
    (hsz : (k.proc p).sz ≤ 0x80000000)
    (hc : copyuvm { k.mach with kmem := a } (k.proc p).pgdir (k.proc p).sz =
      .ok (some d, pgdir, m)) : ¬ k.FailsClean p := by
  have hlist := (kalloc_some h.stack).1
  have hneeds := copyuvm_needs hsz hc
  have hcard : a.free.card = a.freelist.length := coe_card _
  dsimp only at hneeds
  rintro (hlive | hnil | ⟨hshort, -⟩)
  · exact hlive np h.unused
  · rw [hlist] at hnil
    cases hnil
  · rw [hlist, List.length_cons] at hshort
    omega

/-- A failed `fork` leaves no trace exactly when it fails before a page is counted. -/
theorem fork_traceless_iff (hrun : (k.proc p).state = .running)
    (hsz : (k.proc p).sz ≤ 0x80000000) (hok : (k.proc p).wmap.Ok)
    (h : fork k p = .ok (none, k')) : Traceless k p k' ↔ k.FailsClean p := by
  have hlive : (k.proc p).live := by
    rw [Proc.live, hrun]
    decide
  rcases fork_cases hlive hsz hok h with ⟨-, ha⟩ | ⟨np, s, a, child, m, hc, hout⟩
  · exact iff_of_true (allocproc_traceless hrun ha) (allocproc_failsClean ha)
  · rcases hout with ⟨rfl, -, hfs, j, t, hf⟩ | ⟨d, rfl, ⟨-, a1, d1, done, hd⟩ | ⟨hr, -⟩⟩
    · exact hf.traceless_iff hrun hfs (copyuvm_short hsz hc)
    · exact iff_of_false hd.not_traceless (hd.not_failsClean hsz hc)
    · cases hr

end

theorem Kernel.growing_ok : (Kernel.growing.proc 0).wmap.Ok := by
  rw [proc_growing]
  exact Wmap.tidy_loadedPage.ok

theorem fork_traceless_no_frame :
    ∃ k', fork Kernel.growing 0 = .ok (none, k') ∧ Traceless Kernel.growing 0 k' := by
  refine ⟨_, rfl, (fork_traceless_iff ?_ ?_ Kernel.growing_ok rfl).mpr (Or.inr (Or.inl rfl))⟩
  · rw [Kernel.proc_growing]
  · rw [Kernel.proc_growing]
    decide

/-- The kernel of `Kernel.growing` with 67 free frames: a stack, a directory, the tables of the
kernel and one more. -/
def Kernel.crowded : Kernel :=
  { Kernel.growing with
    mach := { Kernel.growing.mach with kmem := ⟨List.range' 2000 67, false⟩ } }.setProc 0
    { Kernel.growing.proc 0 with cwd := some 0 }

theorem Kernel.proc_crowded : Kernel.crowded.proc 0 = { Kernel.growing.proc 0 with cwd := some 0 } :=
  proc_setProc_self ..

theorem Kernel.proc_crowded_ne (h : q ≠ 0) :
    Kernel.crowded.proc q = { Proc.zero with wmap := Wmap.init } := by
  rw [crowded, proc_setProc_ne h]
  exact proc_setProc_ne h

theorem ForkReady.orphan {km k3 : Kernel} {np : Fin NPROC} {b : Bool}
    (hm : ForkReady k p np s m pgdir d km) (h : CopiedSlots km p np is b k3 done)
    (hd : dropSlot k3 np = .ok k') : (k'.proc np).parent = some p := by
  obtain ⟨ofile, cwd, name, hchild⟩ := hm.child
  obtain ⟨s', -, -, hk⟩ := dropSlot_spec hd
  have hparent : (k3.proc np).parent = (km.proc np).parent := by
    rw [h.eq, proc_setProc_self]
  rw [hk, proc_setProc_self]
  change (k3.proc np).parent = some p
  rw [hparent, hchild]

theorem wait_sleeps (hq : (k.proc q).parent = some p) (hz : ∀ r, (k.proc r).state ≠ .zombie)
    (hkilled : (k.proc p).killed = false) : wait k p = .error .sleeps := by
  have hchild : k.zombieChild p = none := by
    rw [Kernel.zombieChild, List.find?_eq_none]
    intro r _
    simpa using hz r
  have hmem : q ∈ k.children p := by
    simp [Kernel.children, hq]
  unfold wait
  rw [hchild]
  dsimp only
  rw [if_neg]
  · rfl
  · rw [hkilled, Bool.or_false, List.isEmpty_iff]
    intro hnil
    rw [hnil] at hmem
    cases hmem

theorem mappages_page_stuck {va : Nat} (pa : Frame) (perm : Flags) (hva : va < 0x100000000)
    (hal : va % 4096 = 0) (hf : a.freelist = []) (hw : d.walk va = none) :
    mappages a d va 4096 pa perm = .ok (false, d, { a with failed := true }) := by
  have hwalk : walkpgdir a d va = (none, d, { a with failed := true }) := by
    simp only [PgDir.walk, Option.map_eq_none_iff] at hw
    simp [walkpgdir, hw, kalloc, hf]
  rw [mappages_page a d pa perm hva hal, mapLoop_eq, hwalk]
  rfl

/-- `copyWmap` fails at the first page of a region when there is no frame for its table. -/
theorem copySlots_stops {parent child : Fin NPROC} {i : Fin MAX_WMMAP_INFO} {r : Region}
    (hr : (k.proc parent).wmap.slot i = r) (hok : r.Ok)
    (hn : pagesTo r.addr ((r.addr + pgroundup (addInt 0 r.length)) % 0x100000000) = n + 1)
    (hp : ((k.proc parent).pgdir.entry (r.addr / 4096)).p = true)
    (hppn : ((k.proc parent).pgdir.entry (r.addr / 4096)).ppn ≠ 0)
    (hw : (k.proc child).pgdir.walk r.addr = none) (hf : k.mach.kmem.freelist = []) :
    ∃ k', copySlots parent child (i :: is) k = .ok (false, k') := by
  have hempty : r.isEmpty = false := by
    have := hok.above
    simp only [Region.isEmpty, Bool.and_eq_false_iff, decide_eq_false_iff_not]
    omega
  have hregion : copyRegion (k.proc parent).pgdir (n + 1) k.mach.kmem (k.proc child).pgdir r.addr =
      .ok (false, (k.proc child).pgdir, { k.mach.kmem with failed := true }) := by
    rw [copyRegion, PgDir.walk_of_present hok.addr hp]
    dsimp only
    rw [if_pos hp, if_neg hppn, Lib.bind_of_ok (mappages_page_stuck _ _ hok.addr hok.aligned hf hw)]
    rfl
  rw [copySlots]
  dsimp only
  rw [hr, if_neg (by simp [hempty]), hn, Lib.bind_of_ok hregion]
  exact ⟨_, rfl⟩

/-- With 66 frames, `copyuvm` takes all of them for a process of one page, and there is no table
for the window. -/
theorem copyuvm_crowded (hcard : m.kmem.freelist.length = 66) (hp : (pgdir.entry 0).p = true) :
    ∃ d pgdir' m', copyuvm m pgdir 4096 = .ok (some d, pgdir', m') ∧
      Copied m pgdir 1 m' pgdir' d ∧ m'.kmem.freelist = [] ∧ d.walk 0x60000000 = none := by
  have hfree : m.kmem.free.card = 66 := (coe_card _).trans hcard
  obtain ⟨x, a, hk⟩ := kalloc_total (a := m.kmem) (by omega)
  obtain ⟨d, pgdir', m', hc, -⟩ : ∃ d pgdir' m', copyuvm m pgdir 4096 =
      .ok (some d, pgdir', m') ∧ _ := copyuvm_enough (enoughOn_lacking (spaceTables 1))
    (show 4096 ≤ 0x80000000 by decide) hk
    (lacking_spaceTables hk (by decide) (by omega))
    (fun k hk v hv => mem_spaceTables.mpr (Or.inr (kmap_tables m.image hk hv))) fun v hv => by
      obtain rfl : v = 0 := Nat.lt_one_iff.mp hv
      exact ⟨mem_spaceTables.mpr (Or.inl (by decide)), hp⟩
  have hcopy : Copied m pgdir 1 m' pgdir' d := by
    rcases copyuvm_spec (by decide) hc with ⟨d', hd, hcopy⟩ | ⟨hnone, -⟩
    · cases hd
      exact hcopy
    · cases hnone
  have hframes : d.frames.card + m'.kmem.free.card = 66 := by
    have := congrArg Multiset.card hcopy.free
    rw [card_add] at this
    omega
  have hneeds := hcopy.kernel.card_frames (n := 1) (by decide) fun v hv => by
    rw [hcopy.child v (by omega), if_pos hv]
    exact Pte.share_p _ (hcopy.present v hv)
  refine ⟨d, pgdir', m', hc, hcopy, ?_, ?_⟩
  · have hz : m'.kmem.freelist.length = 0 := by
      rw [← coe_card]
      change m'.kmem.free.card = 0
      omega
    exact List.length_eq_zero_iff.mp hz
  -- another table would be one frame too many
  by_contra hw
  have hpde : (d.pde 384).isSome := by
    rw [PgDir.walk, Option.map_eq_none_iff] at hw
    exact Option.isSome_iff_ne_none.mpr hw
  have hlt : (insert 384 (spaceTables 1)).card < d.frames.card := by
    refine PgDir.card_lt_frames (fun i hi => ?_) fun i hi => ?_
    · rcases Finset.mem_insert.mp hi with rfl | hi
      · decide
      · rcases mem_spaceTables.mp hi with hi | hi
        · omega
        · exact kernelTables_lt hi
    · rcases Finset.mem_insert.mp hi with rfl | hi
      · exact hpde
      rcases mem_spaceTables.mp hi with hi | hi
      · obtain rfl : i = 0 := Nat.lt_one_iff.mp hi
        have hp0 : (d.entry 0).p = true := by
          rw [hcopy.child 0 (by decide), if_pos (by decide)]
          exact Pte.share_p _ hp
        exact PgDir.pde_of_present hp0
      · exact hcopy.kernel.pde hi
  have hnew : 384 ∉ spaceTables 1 := by
    rw [mem_spaceTables]
    simp [kernelTables]
  rw [Finset.card_insert_of_notMem hnew, card_spaceTables (by decide)] at hlt
  omega

theorem fork_leaves_child : ∃ k' k'', fork Kernel.crowded 0 = .ok (none, k') ∧
    wait Kernel.crowded 0 = .ok (none, k'') ∧ wait k' 0 = .error .sleeps ∧
    ¬ Traceless Kernel.crowded 0 k' := by
  have hproc := Kernel.proc_crowded
  rw [Kernel.proc_growing] at hproc
  have hlive : (Kernel.crowded.proc 0).live := by
    rw [Proc.live, hproc]
    decide
  obtain ⟨np, k1, ha⟩ := allocproc_total (k := Kernel.crowded)
    ⟨1, by rw [Kernel.proc_crowded_ne (by decide)]; rfl⟩ (by decide)
  obtain ⟨hun, s, a, hs, -⟩ := allocproc_some ha
  have hne : np ≠ 0 := by
    rintro rfl
    exact hlive hun
  have hlist : List.range' 2000 67 = s :: a.freelist := (kalloc_some hs).1
  have hstack : s = 2000 := (List.cons.inj hlist).1.symm
  have hpage : ((Kernel.crowded.proc 0).pgdir.entry 0).p = true := by
    rw [hproc, PgDir.entry_twoPages]
    rfl
  obtain ⟨d, pgdir, m, hc, hcopy, hnil, hwalk⟩ := copyuvm_crowded
    (m := { Kernel.crowded.mach with kmem := a })
    (show a.freelist.length = 66 by rw [← (List.cons.inj hlist).2]; rfl) hpage
  have hsz : (Kernel.crowded.proc 0).sz = 4096 := by rw [hproc]
  rw [← hsz] at hc
  obtain ⟨km, hready, hfork⟩ := fork_of_copied hlive ha hs hc
    (by rw [hproc]; rintro i f ⟨⟩) (by rw [hproc]; simp)
  obtain ⟨ofile, cwd, name, hchild⟩ := hready.child
  have hentry : pgdir.entry 0x60000 = { p := true, w := true, u := true, ppn := 1025 } := by
    rw [hcopy.parent, if_neg (by decide), hproc, PgDir.entry_twoPages, if_pos rfl]
  obtain ⟨k3, hw⟩ : ∃ k3, copyWmap km 0 np = .ok (false, k3) := by
    refine copySlots_stops (r := ⟨0x60000000, 4096, 1, false, -1⟩) (n := 0) ?_
      ⟨by decide, by decide, by decide, by decide, by decide, by decide⟩ (by decide) ?_ ?_ ?_ ?_
    · rw [hready.parent, hproc]
      rfl
    · rw [hready.parent]
      change (pgdir.entry 0x60000).p = true
      rw [hentry]
    · rw [hready.parent]
      change (pgdir.entry 0x60000).ppn ≠ 0
      rw [hentry]
      exact Nat.succ_ne_zero _
    · rw [hchild]
      exact hwalk
    · rw [hready.mach]
      exact hnil
  obtain ⟨done, hslots⟩ := copySlots_spec hne.symm (by
    rw [hready.parent, hproc]
    exact Wmap.tidy_loadedPage.ok) hw
  obtain ⟨k', hd⟩ : ∃ k', dropSlot k3 np = .ok k' := by
    have hkstack : (k3.proc np).kstack = some s := by
      rw [hslots.eq, Kernel.proc_setProc_self, hchild]
    have himage : k3.mach.image = Kernel.crowded.mach.image := by
      rw [hslots.eq]
      change km.mach.image = _
      rw [hready.mach]
      exact hcopy.image
    unfold dropSlot
    dsimp only
    rw [hkstack]
    dsimp only
    rw [kfree, himage, hstack, if_neg (by decide)]
    exact ⟨_, rfl⟩
  have hdropped := hready.dropped hne hun hs (by rw [hsz]; exact hcopy) hslots hd
  have hsleeps : wait k' 0 = .error .sleeps := by
    refine wait_sleeps (hready.orphan hslots hd) (fun q hz => ?_) ?_
    · by_cases hq : q = np
      · rw [hq, hdropped.child.1] at hz
        cases hz
      · by_cases hq0 : q = 0
        · rw [hq0, hdropped.parent, hproc] at hz
          cases hz
        · rw [hdropped.others q hq0 hq, Kernel.proc_crowded_ne hq0] at hz
          cases hz
    · rw [hdropped.parent, hproc]
      rfl
  have hbefore : wait Kernel.crowded 0 = .ok (none, Kernel.crowded) := by
    rfl
  refine ⟨k', Kernel.crowded, ?_, hbefore, hsleeps, hdropped.not_traceless⟩
  rw [hfork, Lib.bind_of_ok hw]
  dsimp only
  rw [if_neg (by decide), Lib.bind_of_ok hd]
  rfl

end Xv6
