import Xv6.Trades

/-!
The exchanges of the calls that make and destroy address spaces: `exec`, `fork` and
`wait`.
-/

namespace Xv6

open Multiset Proc PgDir

variable {d d1 : PgDir} {Drops Frees : Fin NPROC → Nat → Prop} {done : List Nat} {a1 : Kmem}
  {j n t : Nat} {Lossy : Prop}

theorem PgDir.frames_eq (d : PgDir) (counts : Frame → Nat) :
    d.frames = (untracked counts d.tables + {d.frame} : Multiset Frame) +
      (d.tables.filter fun x => !(counts x == 0) : List Frame) := by
  have hsplit : (d.tables : Multiset Frame) = (untracked counts d.tables : Multiset Frame) +
      (d.tables.filter fun x => !(counts x == 0) : List Frame) := by
    rw [coe_add, coe_eq_coe]
    exact (List.filter_append_perm _ _).symm
  rw [frames, hsplit, ← singleton_add]
  abel

theorem userPages_nodup : userPages.Nodup := List.nodup_range'

section
variable {k k' : Kernel} {p : Fin NPROC}

theorem Replaced.trades {m : Machine} {sz : Nat} {xs : List Frame} (hlive : (k.proc p).live)
    (h : Replaced k p k' m d sz xs) :
    Trades k k' xs (fun q v => q = p ∧ v < 0x80000 ∧ k.Uncounted p v)
      (fun q v => q = p ∧ v < 0x80000)
      (¬ (k.holding.Safe ∧ ∀ x ∈ (k.proc p).pgdir.tables, k.mach.counts x = 0)) := by
  obtain ⟨name, tf, heq⟩ := h.eq
  have hself : k'.proc p =
      { k.proc p with name := name, pgdir := d, sz := sz, tf := tf } := by
    rw [heq]
    simp
  have hother : ∀ q, q ≠ p → Proc.SameSpace (k'.proc q) (k.proc q) := by
    intro q hq
    rw [heq, Kernel.proc_setProc_ne hq]
    exact Proc.SameSpace.refl _
  have hkp : k'.kpgdir = k.kpgdir := (congrArg Kernel.kpgdir heq).trans rfl
  have hpg : (k'.proc p).pgdir = d := by rw [hself]
  have hlive' : (k'.proc p).live := by rw [hself]; exact hlive
  have hstack : (k'.proc p).kstack = (k.proc p).kstack := by rw [hself]
  have hcounts : ∀ x, m.counts x = 0 → k.mach.counts x = 0 := by
    intro x hx
    rw [h.built.counts] at hx
    split at hx
    · cases hx
    · exact hx
  refine .proc ((k.proc p).pgdir.freeable m.counts userPages) {v | v < 0x80000} xs
    ((k.proc p).pgdir.tables.filter fun x => !(m.counts x == 0) : List Frame) hother hkp hlive ?_
    (userPages_nodup.filter _) ?_ ?_ ?_ (fun v x hm hv => (hv hm.user).elim) ?_ ?_
  · have hb := h.built.free
    have hf := h.freed.free
    rw [owned_of_live hlive', owned_of_live hlive, hpg, hstack, hf, hb, PgDir.freed,
      (k.proc p).pgdir.frames_eq m.counts, released_eq, coe_nil]
    change m.kmem.free + _ + _ + _ = _
    abel
  · intro v hv
    obtain ⟨hu, hpr, -⟩ := mem_freeable.mp hv
    exact ⟨mem_userPages.mp hu, hpr⟩
  · rintro v x ⟨-, hu, hpr, hx⟩
    rw [hpg] at hpr hx
    have hlt := (h.built.present v hu).mp hpr
    left
    rw [← hx, h.built.ppn v hlt]
    exact List.get_mem _ _
  · intro x hx
    obtain ⟨i, hi⟩ := List.get_of_mem (mem_coe.mp hx)
    have hlt : (i : Nat) < 0x80000 := lt_of_lt_of_le i.isLt h.built.length
    refine ⟨i, hlive', hlt, ?_, ?_⟩
    · rw [hpg]
      exact (h.built.present i hlt).mpr i.isLt
    · rw [hpg, h.built.ppn i i.isLt]
      exact hi
  · intro v hv
    obtain ⟨hu, hpr, hc⟩ := mem_freeable.mp hv
    exact ⟨rfl, mem_userPages.mp hu, hpr, hcounts _ hc⟩
  · intro hl
    obtain ⟨hsafe, htables⟩ := not_not.mp hl
    have hfree : ∀ x ∈ xs, x ∈ k.mach.kmem.free := fun x hx => by
      rw [h.built.free]
      simp [hx]
    have hsame : ∀ x, x ∉ k.mach.kmem.free → m.counts x = k.mach.counts x := fun x hx => by
      rw [h.built.counts, if_neg]
      simpa using fun hmem => hx (hfree x hmem)
    refine ⟨?_, fun v hv => ⟨⟨rfl, hv⟩, fun hpr _ hfr => ?_⟩⟩
    · rw [List.filter_eq_nil_iff.mpr, coe_nil]
      intro x hx
      have hown : x ∈ (k.proc p).owned := by
        rw [owned_of_live hlive, PgDir.frames]
        simp [hx]
      have hnot : x ∉ k.mach.kmem.free := fun hf => Kernel.notMem_owned_of_free hsafe hf hown
      simp [hsame x hnot, htables x hx]
    · have hm : k.Maps p v ((k.proc p).pgdir.entry v).ppn := ⟨hlive, hv, hpr, rfl⟩
      have hnot : ((k.proc p).pgdir.entry v).ppn ∉ k.mach.kmem.free := fun hf =>
        hsafe.apart (p, v) _ hm (Kernel.mem_total_of_free hf)
      exact mem_freeable.mpr
        ⟨mem_userPages.mpr hv, hpr, (hsame _ hnot).trans hfr.2.2.2⟩

theorem ExecFailed.trades (heq : k' = { k with mach := k'.mach, fs := k'.fs })
    (h : ExecFailed k.mach k'.mach) : Trades k k' 0 Frees Drops (k'.mach.kmem ≠ k.mach.kmem) := by
  have hproc : k'.proc = k.proc := (congrArg Kernel.proc heq).trans rfl
  have hkp : k'.kpgdir = k.kpgdir := (congrArg Kernel.kpgdir heq).trans rfl
  have hsame : ∀ q, Proc.SameSpace (k'.proc q) (k.proc q) := fun q => by
    rw [hproc]
    exact Proc.SameSpace.refl _
  obtain ⟨kept, lost, hbalance, -⟩ := h.balance
  refine .of_refs (kept + lost) ?_ (fun q v y hm => ⟨q, v, hm.congr (hsame q).symm⟩)
    (fun q v y hm => hm.congr (hsame q)) ?_
  · have htotal := total_exchange (p := 0) (fun q _ => hsame q) hkp (kept + lost) 0 (by
      rw [hproc, hbalance]
      abel)
    simpa using htotal
  · intro hl
    rw [not_not.mp hl, add_assoc] at hbalance
    exact left_eq_add.mp hbalance

theorem reap_trades {q : Fin NPROC} {s : Frame} (hlive : (k.proc q).live)
    (hs : (k.proc q).kstack = some s)
    (hf : Freed k.mach ({s} + (k.proc q).pgdir.freed k.mach.counts) k'.mach)
    (hother : ∀ r, r ≠ q → k'.proc r = k.proc r) (hunused : (k'.proc q).state = .unused)
    (hkp : k'.kpgdir = k.kpgdir) :
    Trades k k' 0 (fun r v => r = q ∧ v < 0x80000 ∧ k.Uncounted q v)
      (fun r v => r = q ∧ v < 0x80000)
      (¬ ∀ x ∈ (k.proc q).pgdir.tables, k.mach.counts x = 0) := by
  have hdead : ¬ (k'.proc q).live := fun hl => hl hunused
  refine .proc ((k.proc q).pgdir.freeable k.mach.counts userPages) {v | v < 0x80000} 0
    ((k.proc q).pgdir.tables.filter fun x => !(k.mach.counts x == 0) : List Frame)
    (fun r hr => ?_) hkp hlive ?_ (userPages_nodup.filter _) ?_ (fun v x hm => (hdead hm.live).elim)
    (by simp) (fun v x hm hv => (hv hm.user).elim) ?_ ?_
  · rw [hother r hr]
    exact Proc.SameSpace.refl _
  · rw [owned_of_live hlive, hs, owned_of_unused hdead, hf.free, PgDir.freed,
      (k.proc q).pgdir.frames_eq k.mach.counts, released_eq]
    simp only [Option.toList_some, coe_singleton]
    abel
  · intro v hv
    obtain ⟨hu, hpr, -⟩ := mem_freeable.mp hv
    exact ⟨mem_userPages.mp hu, hpr⟩
  · intro v hv
    obtain ⟨hu, hpr, hc⟩ := mem_freeable.mp hv
    exact ⟨rfl, mem_userPages.mp hu, hpr, hc⟩
  · intro hl
    have htables := not_not.mp hl
    refine ⟨?_, fun v hv => ⟨⟨rfl, hv⟩, fun hpr _ hfr => ?_⟩⟩
    · rw [List.filter_eq_nil_iff.mpr, coe_nil]
      intro x hx
      simp [htables x hx]
    · exact mem_freeable.mpr ⟨mem_userPages.mpr hv, hpr, hfr.2.2.2⟩

/-- `copyuvm` takes write permission from the parent's pages and changes nothing else of
them. -/
theorem sameSpace_shared {x y : Proc} (hlive : x.live ↔ y.live) (hstack : x.kstack = y.kstack)
    (hframe : x.pgdir.frame = y.pgdir.frame) (htables : x.pgdir.tables = y.pgdir.tables)
    (hpresent : ∀ v, v < n → (y.pgdir.entry v).p = true)
    (hentry : ∀ v, x.pgdir.entry v = if v < n then (y.pgdir.entry v).share else y.pgdir.entry v) :
    Proc.SameSpace x y := by
  refine ⟨hlive, hstack, by rw [PgDir.frames, PgDir.frames, hframe, htables], ?_, ?_⟩
  · intro v _
    rw [hentry]
    split
    · rename_i hv
      rw [Pte.share_p _ (hpresent v hv), hpresent v hv]
    · rfl
  · intro v _
    rw [hentry]
    split
    · exact Pte.share_ppn _
    · rfl

section
variable {np : Fin NPROC} {s : Frame} {a : Kmem} {m : Machine}

theorem ForkFrame.sameSpace (h : ForkFrame k p np k')
    (hframe : (k'.proc p).pgdir.frame = (k.proc p).pgdir.frame)
    (htables : (k'.proc p).pgdir.tables = (k.proc p).pgdir.tables)
    (hpresent : ∀ v, v < n → ((k.proc p).pgdir.entry v).p = true)
    (hentry : ∀ v, (k'.proc p).pgdir.entry v = if v < n then ((k.proc p).pgdir.entry v).share
      else (k.proc p).pgdir.entry v) : ∀ q, q ≠ np → Proc.SameSpace (k'.proc q) (k.proc q) := by
  intro q hq
  by_cases hqp : q = p
  · subst hqp
    have hlive : (k'.proc q).live ↔ (k.proc q).live := by rw [h.parent]; rfl
    exact sameSpace_shared hlive (by rw [h.parent]) hframe htables hpresent hentry
  · rw [h.others q hqp hq]
    exact Proc.SameSpace.refl _

theorem fork_fail_trades (lost : Multiset Frame)
    (hother : ∀ q, q ≠ np → Proc.SameSpace (k'.proc q) (k.proc q)) (hkp : k'.kpgdir = k.kpgdir)
    (hunused : (k.proc np).state = .unused) (hunused' : (k'.proc np).state = .unused)
    (hfree : k'.mach.kmem.free + lost = k.mach.kmem.free) (hlossy : Lossy) :
    Trades k k' 0 Frees Drops Lossy := by
  have hdead : ¬ (k.proc np).live := fun hl => hl hunused
  have hdead' : ¬ (k'.proc np).live := fun hl => hl hunused'
  refine .of_refs lost ?_ ?_ ?_ fun hl => (hl hlossy).elim
  · have htotal := total_exchange hother hkp lost 0 (by
      rw [owned_of_unused hdead, owned_of_unused hdead', ← hfree]
      abel)
    simpa using htotal
  · intro q v x hm
    have hq : q ≠ np := fun hq => hdead' (hq ▸ hm.live)
    exact ⟨q, v, hm.congr (hother q hq).symm⟩
  · intro q v x hm
    have hq : q ≠ np := fun hq => hdead (hq ▸ hm.live)
    exact hm.congr (hother q hq)

theorem ForkFailed.card_le (h : ForkFailed k p np k' s a m j t) : k.mach.kmem.free.card ≤ 1026 := by
  rw [free_kalloc h.stack, card_cons]
  exact Nat.succ_le_succ h.copy.short

theorem ForkFailed.trades (h : ForkFailed k p np k' s a m j t) :
    Trades k k' 0 Frees Drops (k.mach.kmem.free.card ≤ 1026) := by
  obtain ⟨kept, hkept, -⟩ := h.copy.free
  have hfree : k'.mach.kmem.free + kept = k.mach.kmem.free := by
    rw [h.freed.free, free_kalloc h.stack, ← singleton_add]
    rw [show a.free = m.kmem.free + kept from hkept]
    abel
  exact fork_fail_trades kept (h.toForkFrame.sameSpace h.copy.parentFrame h.copy.parentTables
    h.copy.present h.copy.parent) h.kpgdir h.unused (by rw [h.child]) hfree h.card_le

section
variable (h : ForkDropped k p np k' s a a1 m d d1 done)
include h

theorem ForkDropped.free_eq : a.free = a1.free + d1.frames := by
  rw [← h.inherited.extend.balance]
  exact h.copy.free

theorem ForkDropped.card_le : k.mach.kmem.free.card ≤ 1026 := by
  have hz : a1.free = 0 := by rw [Kmem.free, h.short]; rfl
  rw [free_kalloc h.stack, card_cons, h.free_eq, hz, zero_add]
  exact Nat.succ_le_succ d1.card_frames_le

theorem ForkDropped.trades : Trades k k' 0 Frees Drops (k.mach.kmem.free.card ≤ 1026) := by
  have hfree : k'.mach.kmem.free + d1.frames = k.mach.kmem.free := by
    rw [h.freed.free, free_kalloc h.stack, ← singleton_add, h.free_eq]
    change a1.free + _ + _ = _
    abel
  exact fork_fail_trades d1.frames (h.toForkFrame.sameSpace h.copy.parentFrame
    h.copy.parentTables h.copy.present h.copy.parent) h.kpgdir h.unused h.child.1 hfree h.card_le

end

theorem Forked.origin (hlive : (k.proc p).live) (h : Forked k p np k' s a m d done) {v : Nat}
    {x : Frame} (hm : k'.Maps np v x) : k.Maps p v x := by
  have hparent := (h.toForkFrame.sameSpace h.copy.parentFrame h.copy.parentTables h.copy.present
    h.copy.parent p h.ne.symm).symm
  have hp := hm.present
  have hx := hm.ppn
  rw [h.inherited.entry] at hp hx
  split at hp
  · rename_i hv
    rw [if_pos hv] at hx
    have hlive' : (k'.proc p).live := hparent.live.mp hlive
    exact Kernel.Maps.congr hparent ⟨hlive', hm.user, hp, hx⟩
  · rename_i hv
    rw [if_neg hv, h.copy.child v hm.user] at hx
    rw [h.copy.child v hm.user] at hp
    split at hp
    · rename_i hvn
      rw [if_pos hvn, Pte.share_ppn] at hx
      exact ⟨hlive, hm.user, h.copy.present v hvn, hx⟩
    · cases hp

theorem Forked.trades (hlive : (k.proc p).live) (h : Forked k p np k' s a m d done) :
    Trades k k' 0 Frees Drops Lossy := by
  have hother := h.toForkFrame.sameSpace h.copy.parentFrame h.copy.parentTables h.copy.present
    h.copy.parent
  have hdead : ¬ (k.proc np).live := fun hl => hl h.unused
  obtain ⟨ofile, cwd, name, hchild⟩ := h.child
  have hlive' : (k'.proc np).live := by
    rw [hchild]
    simp [Proc.live]
  have hstack : (k'.proc np).kstack = some s := by rw [hchild]
  refine .of_refs 0 ?_ ?_ ?_ fun _ => rfl
  · have htotal := total_exchange hother h.kpgdir 0 0 (by
      have hbal : a.free = k'.mach.kmem.free + (k'.proc np).pgdir.frames := by
        rw [← h.inherited.extend.balance]
        exact h.copy.free
      rw [owned_of_unused hdead, owned_of_live hlive', hstack, free_kalloc h.stack, hbal,
        ← singleton_add]
      simp only [Option.toList_some, coe_singleton]
      abel)
    simpa using htotal
  · intro q v x hm
    by_cases hq : q = np
    · subst hq
      exact ⟨p, v, h.origin hlive hm⟩
    · exact ⟨q, v, hm.congr (hother q hq).symm⟩
  · intro q v x hm
    have hq : q ≠ np := fun hq => hdead (hq ▸ hm.live)
    exact hm.congr (hother q hq)

end

end

end Xv6
