import Xv6.KernelHalf
import Xv6.Launch

/-!
A page without `PTE_W` and `PTE_COW`, as `exec` loads it from a segment that is not
writable, never gets either bit back: `copyuvm` marks only writable pages, and
`handle_cow_fault` opens only marked ones.
-/

namespace Xv6

/-- Page `v` lies below `sz` and can neither be written nor is it waiting to be copied. -/
structure Proc.ReadOnly (x : Proc) (v : Nat) : Prop where
  below : v < sizePages x.sz
  present : (x.pgdir.entry v).p = true
  writable : (x.pgdir.entry v).w = false
  cow : (x.pgdir.entry v).cow = false

/-- Step `a` of process `q` unmaps its page `v`: `sbrk` gives it up or `exec` replaces the
address space. A page below `sz` that lies in the mapping window can also go with a
region; physical memory does not reach that far. -/
def Act.Unmaps (a : Act) (k : Kernel) (q : Fin NPROC) (v : Nat) (k' : Kernel) : Prop :=
  match a with
  | .sbrk p n => p = q ∧ v ∈ deallocRange (k.proc q).sz (addInt (k.proc q).sz n)
  | .exec p _ _ _ _ => p = q ∧ (k'.proc q).pgdir ≠ (k.proc q).pgdir
  | .wunmap p _ | .exit p | .fault p _ _ _ | .cowResolve p _ => p = q ∧ 0x60000 ≤ v
  | _ => False

/-- A step after which process `q` is still there and has not unmapped page `v`. -/
def KeepsPage (q : Fin NPROC) (v : Nat) (k : Kernel) (a : Act) (k' : Kernel) : Prop :=
  Step k a k' ∧ (k'.proc q).live ∧ ¬ a.Unmaps k q v k'

section
variable {k k' : Kernel} {q : Fin NPROC} {v : Nat} {a : Act}

theorem Pte.share_of_not_writable {e : Pte} (h : e.w = false) : e.share = e := by
  simp [Pte.share, h]

theorem PteStep.readOnly {x : Proc} {e : Pte} (hx : x.ReadOnly v) (h : PteStep x q v a e)
    (hsbrk : ∀ n, a = .sbrk q n → v ∉ deallocRange x.sz (addInt x.sz n))
    (hwindow : a.proc = q → a.MayUnmap → v < 0x60000) : e = x.pgdir.entry v := by
  cases h with
  | kept => rfl
  | shared _ _ => exact Pte.share_of_not_writable hx.writable
  | grown _ hle _ _ => exact absurd hx.below (by omega)
  | shrunk ha hmem _ => exact absurd hmem (hsbrk _ ha)
  | unmapped ha hm hle _ _ =>
    have := hwindow ha hm
    omega
  | loaded _ _ _ habsent =>
    rw [hx.present] at habsent
    cases habsent
  | copied _ _ _ _ hcow =>
    rw [hx.cow] at hcow
    cases hcow

theorem Act.Unmaps.of_mayUnmap (ha : a.proc = q) (hm : a.MayUnmap) (hv : 0x60000 ≤ v) :
    a.Unmaps k q v k' := by
  cases a with
  | wunmap p _ | exit p | fault p _ _ _ | cowResolve p _ => exact ⟨ha, hv⟩
  | _ => exact hm.elim

theorem Proc.ReadOnly.of_entry {x y : Proc} (h : x.ReadOnly v)
    (he : y.pgdir.entry v = x.pgdir.entry v) (hsz : v < sizePages y.sz) : y.ReadOnly v :=
  ⟨hsz, by rw [he]; exact h.present, by rw [he]; exact h.writable, by rw [he]; exact h.cow⟩

theorem KeepsPage.readOnly (hs : k.Sane) (hq : (k.proc q).live) (hro : (k.proc q).ReadOnly v)
    (h : KeepsPage q v k a k') : (k'.proc q).ReadOnly v := by
  obtain ⟨hstep, hlive, hkeeps⟩ := h
  cases step_slot hs hstep q hlive with
  | stays _ hspace =>
    have hsbrk : ∀ n, a = .sbrk q n → v ∉ deallocRange (k.proc q).sz (addInt (k.proc q).sz n) := by
      rintro n rfl hmem
      exact hkeeps ⟨rfl, hmem⟩
    refine hro.of_entry ((hspace.pages v).readOnly hro hsbrk fun ha hm => ?_) ?_
    · by_contra hv
      exact hkeeps (.of_mayUnmap ha hm (by omega))
    · rcases hspace.size hro.below with hlt | ⟨n, ha, hmem⟩
      · exact hlt
      · exact absurd hmem (hsbrk n ha)
  | @replaced _ _ _ _ k1 m d sz xs ha _ hr hk =>
    obtain ⟨name, tf, heq⟩ := hr.eq
    have hself : k'.proc q = { k.proc q with name := name, pgdir := d, sz := sz, tf := tf } := by
      rw [hk]
      show k1.proc q = _
      rw [heq, Kernel.proc_setProc_self]
      rfl
    have hsame : (k'.proc q).pgdir = (k.proc q).pgdir := by
      by_contra hne
      rw [ha] at hkeeps
      exact hkeeps ⟨rfl, hne⟩
    have hbelow := sizePages_lt ((hs q).size hq)
    refine hro.of_entry (by rw [hsame]) ?_
    have hd : d = (k.proc q).pgdir := by rw [← hsame, hself]
    have hpresent := hro.present
    rw [← hd, hr.built.present v (Nat.lt_of_lt_of_le hro.below hbelow), hr.length] at hpresent
    rw [hself]
    exact hpresent
  | born _ _ hf _ => exact absurd hf.unused hq

theorem readOnly_child {np : Fin NPROC} (hs : k.Sane) (hro : (k.proc q).ReadOnly v)
    (h : Step k (.fork q) k') (hnew : ¬ (k.proc np).live) (hlive : (k'.proc np).live) :
    (k'.proc np).ReadOnly v := by
  cases step_slot hs h np hlive with
  | stays hnp _ => exact absurd hnp hnew
  | replaced ha _ _ _ => cases ha
  | born ha hp hf hk =>
    cases ha
    obtain ⟨hsz, he⟩ := hf.child_entry ((hs q).size hp) hro.below
    rw [hk]
    refine hro.of_entry (he.trans ?_) (Nat.lt_of_lt_of_eq hro.below (congrArg sizePages hsz.symm))
    exact Pte.share_of_not_writable hro.writable

def Pte.Fixed (e : Pte) : Prop := e.p = true ∧ e.w = false ∧ e.cow = false

theorem Pte.Fixed.of_share {e : Pte} (h : e.share.Fixed) : e.Fixed := by
  by_cases hw : e.w = true
  · have := h.2.2
    simp [Pte.share, hw] at this
  · rwa [Pte.share_of_not_writable (by simpa using hw)] at h

theorem PteStep.fixed {x : Proc} {e : Pte} (h : PteStep x q v a e) (he : e.Fixed) :
    (x.pgdir.entry v).Fixed := by
  have hp := he.1
  have hw := he.2.1
  cases h with
  | kept => exact he
  | shared _ _ => exact he.of_share
  | grown _ _ _ hgrown =>
    rw [hgrown hp] at hw
    cases hw
  | shrunk _ _ habsent | unmapped _ _ _ _ habsent =>
    rw [habsent] at hp
    cases hp
  | loaded _ _ _ _ | copied _ _ _ _ _ => cases hw

/-- Every such entry is for a page that physical memory can reach. -/
def Kernel.FixedLow (k : Kernel) : Prop :=
  ∀ q, (k.proc q).live → ∀ v, v < 0x80000 → ((k.proc q).pgdir.entry v).Fixed → v < 0xE000

/-- A step from a free list that is not longer than physical memory. -/
def StepInMemory (k : Kernel) (a : Act) (k' : Kernel) : Prop :=
  Step k a k' ∧ k.mach.kmem.free.card ≤ 0xE000

theorem Forked.fixed {s : Frame} {km : Kmem} {m : Machine} {d : PgDir} {done : List Nat}
    {p np : Fin NPROC} (h : Forked k p np k' s km m d done) (hv : v < 0x80000)
    (he : ((k'.proc np).pgdir.entry v).Fixed) : ((k.proc p).pgdir.entry v).Fixed := by
  rw [h.inherited.entry, h.copy.parent, h.copy.child v hv] at he
  by_cases hlt : v < sizePages (k.proc p).sz
  · simp only [if_pos hlt, ite_self] at he
    exact he.of_share
  · simp only [if_neg hlt] at he
    split at he
    · exact he
    · cases he.1

theorem StepInMemory.fixedLow (hs : k.Sane) (hlow : k.FixedLow) (h : StepInMemory k a k') :
    k'.FixedLow := by
  intro q hlive v hv he
  cases step_slot hs h.1 q hlive with
  | stays hq hspace => exact hlow q hq v hv ((hspace.pages v).fixed he)
  | @replaced _ _ _ _ k1 m d sz xs _ _ hr hk =>
    obtain ⟨name, tf, heq⟩ := hr.eq
    have hd : (k'.proc q).pgdir = d := by
      rw [hk]
      show (k1.proc q).pgdir = _
      rw [heq, Kernel.proc_setProc_self]
    have hlen := (hr.built.present v hv).mp (by rw [← hd]; exact he.1)
    have hcard := congrArg Multiset.card hr.built.free
    simp only [Multiset.card_add, Multiset.coe_card] at hcard
    have hmem : (k.enter q).mach.kmem.free.card ≤ 0xE000 := h.2
    omega
  | born _ hp hf hk =>
    rw [hk] at he
    exact hlow _ hp v hv (hf.fixed hv he)

theorem Kernel.Start.fixedLow (h : k.Start) : k.FixedLow := by
  obtain ⟨image, freelist, fs, root, initcode, -, -, hlen, hboot⟩ := h
  obtain ⟨x, s, hb⟩ := boot_spec hlen hboot
  intro q hlive v hv he
  obtain ⟨-, rfl, -⟩ := hb.maps ⟨hlive, hv, he.1, rfl⟩
  decide

theorem run_fixedLow {k0 : Kernel} {as : List Act} (h0 : k0.Start)
    (h : Lib.Run StepInMemory k0 as k) : k.Sane ∧ k.FixedLow := by
  refine h.invariant (fun k => k.Sane ∧ k.FixedLow) ⟨h0.sane, h0.fixedLow⟩ ?_
  rintro k a k' ⟨hs, hlow⟩ hstep
  exact ⟨step_sane hs hstep.1, hstep.fixedLow hs hlow⟩

theorem run_readOnly {as : List Act} (hs : k.Sane) (hq : (k.proc q).live)
    (hro : (k.proc q).ReadOnly v) (h : Lib.Run (KeepsPage q v) k as k') :
    k'.Sane ∧ (k'.proc q).ReadOnly v := by
  have hinv := h.invariant (fun k => k.Sane ∧ (k.proc q).live ∧ (k.proc q).ReadOnly v)
    ⟨hs, hq, hro⟩ fun k a k' hk hstep => ⟨step_sane hk.1 hstep.1, hstep.2.1,
      hstep.readOnly hk.1 hk.2.1 hk.2.2⟩
  exact ⟨hinv.1, hinv.2.2⟩

end

/-- A page without `PTE_W` and `PTE_COW` stays so until its process unmaps it, and so it is
in every child. The pages concerned lie far below the mapping window as long as `exec`
finds no more frames on the free list than there are. -/
theorem write_permission_kept {k0 k k' : Kernel} {as bs : List Act} {q : Fin NPROC} {v : Nat}
    (h0 : k0.Start) (h : Lib.Run Step k0 as k) (hq : (k.proc q).live)
    (hro : (k.proc q).ReadOnly v) (hkeep : Lib.Run (KeepsPage q v) k bs k') :
    (k'.proc q).ReadOnly v ∧
      (∀ np k'', Step k' (.fork q) k'' → ¬ (k'.proc np).live → (k''.proc np).live →
        (k''.proc np).ReadOnly v) ∧
      (Lib.Run StepInMemory k0 as k → v < 0xE000) := by
  have hs := run_sane h0.sane h
  obtain ⟨hs', hro'⟩ := run_readOnly hs hq hro hkeep
  refine ⟨hro', fun np k'' hfork hnew hlive => readOnly_child hs' hro' hfork hnew hlive, ?_⟩
  intro hmem
  have hv : v < 0x80000 := Nat.lt_of_lt_of_le hro.below (sizePages_lt ((hs q).size hq))
  exact (run_fixedLow h0 hmem).2 q hq v hv ⟨hro.present, hro.writable, hro.cow⟩

theorem write_permission_kept_in_child :
    ∃ k0 k k' np, k0.Start ∧
      Lib.Run Step k0 [.dispatch 0, .exec 0 (some 2) [] [] fun _ => false] k ∧
      (k.proc 0).ReadOnly 0 ∧ Step k (.fork 0) k' ∧ (k'.proc np).ReadOnly 0 := by
  obtain ⟨k0, k, hlaunch⟩ := exists_launch
  have hl := hlaunch.launched
  have hready : (k.leave 0).ready 0 := ⟨hl.state, hl.ready⟩
  have hro : ((k.leave 0).proc 0).ReadOnly 0 := by
    obtain ⟨x, hx⟩ := hl.first
    exact ⟨by rw [hl.size]; decide, by rw [hx]; rfl, by rw [hx]; rfl, by rw [hx]; rfl⟩
  obtain ⟨np, k1, s, a, m, d, done, hfork, hf⟩ := step_forked hready hl.forkable
  have hnew : ¬ ((k.leave 0).proc np).live := fun hnp => hnp hf.unused
  have hlive : ((k1.leave 0).proc np).live := by
    obtain ⟨ofile, cwd, name, hchild⟩ := hf.child
    show (k1.proc np).live
    rw [hchild]
    simp [Proc.live]
  have hkept := write_permission_kept hlaunch.start hlaunch.run hready.live hro .refl
  exact ⟨k0, _, _, np, hlaunch.start, hlaunch.run, hro, hfork, hkept.2.1 np _ hfork hnew hlive⟩

end Xv6
