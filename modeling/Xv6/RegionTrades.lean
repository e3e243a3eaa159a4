import Xv6.Trades

/-!
The exchanges of unmapping, of `exit`, and of the two fault handlers.
-/

namespace Xv6

open Multiset

variable {i : Fin MAX_WMMAP_INFO} {done : List Nat}
  {Drops Drops' Frees Frees' : Fin NPROC → Nat → Prop} {Lossy' : Prop} {a v va : Nat} {k1 : Kernel}
  {b : Bool} {x : Frame} {km : Kmem}

section
variable {k k1 k' : Kernel} {added : Multiset Frame} {Frees Drops : Fin NPROC → Nat → Prop}
  {Lossy : Prop}

theorem Trades.then_same (h : Trades k k1 added Frees Drops Lossy)
    (hs : k'.holding = k1.holding) : Trades k k' added Frees Drops Lossy := by
  unfold Trades
  rw [hs]
  exact h

theorem Trades.after_same (hs : k1.holding = k.holding)
    (h : Trades k1 k' added Frees Drops Lossy) : Trades k k' added Frees Drops Lossy := by
  have hmaps : ∀ q v x, k.Maps q v x → k1.Maps q v x := fun q v x hm => by
    have := congrFun (congrFun (congrArg Lib.Holding.refs hs) (q, v)) x
    exact cast this.symm hm
  obtain ⟨freed, dropped, lost, hx, hf, hd⟩ := h
  rw [hs] at hx
  refine ⟨freed, dropped, lost, hx, hf, fun hl => ⟨(hd hl).1, ?_⟩⟩
  intro q v hq
  obtain ⟨h1, h2⟩ := (hd hl).2 q v hq
  exact ⟨h1, fun x hm => h2 x (hmaps q v x hm)⟩

theorem Trades.weaken (h : Trades k k' added Frees Drops Lossy)
    (hF : ∀ q v, k.Maps q v ((k.proc q).pgdir.entry v).ppn → (Frees q v ↔ Frees' q v))
    (hD : ∀ q v, Drops q v → Drops' q v) (hL : Lossy → Lossy') :
    Trades k k' added Frees' Drops' Lossy' := by
  obtain ⟨freed, dropped, lost, hx, hf, hd⟩ := h
  have hmap : ∀ q v x, k.Maps q v x → k.Maps q v ((k.proc q).pgdir.entry v).ppn :=
    fun q v x hm => ⟨hm.live, hm.user, hm.present, rfl⟩
  refine ⟨freed, dropped, lost, hx, fun e he => ?_, fun hl => ?_⟩
  · exact (hF _ _ (hmap _ _ _ (hx.valid e he))).mp (hf e he)
  · obtain ⟨h1, h2⟩ := hd fun hl' => hl (hL hl')
    refine ⟨h1, fun q v hq => ⟨hD q v (h2 q v hq).1, fun x hm hfr => ?_⟩⟩
    exact (h2 q v hq).2 x hm ((hF q v (hmap q v x hm)).mpr hfr)

/-- A step that frees nothing, after which entries are dropped. What the step took from the
free list is then lost. -/
theorem Trades.then_drop (h : Trades k k1 added Frees Drops Lossy)
    (h' : Trades k1 k' 0 Frees' Drops' False) (hF : ∀ q v, ¬ Frees q v) (hF' : ∀ q v, ¬ Frees' q v)
    (hL : Lossy → Lossy') (hnew : ¬ Lossy' → added = 0 ∧ ∀ q v, Drops' q v → Drops q v) :
    Trades k k' 0 Frees Drops Lossy' := by
  obtain ⟨freed, dropped, lost, hx, hf, hd⟩ := h
  obtain ⟨freed', dropped', lost', hx', hf', hd'⟩ := h'
  have hnil : ∀ {l : List ((Fin NPROC × Nat) × Frame)} {F : Fin NPROC → Nat → Prop},
      (∀ q v, ¬ F q v) → (∀ e ∈ l, F e.1.1 e.1.2) → l = [] := by
    intro l F hF hl
    exact List.eq_nil_iff_forall_not_mem.mpr fun e he => hF _ _ (hl e he)
  obtain rfl := hnil hF' hf'
  obtain ⟨rfl, hgone⟩ := hd' not_false
  refine ⟨freed, _, added + lost, hx.then_drop hx', hf, fun hl => ?_⟩
  obtain ⟨hadd, hdrop⟩ := hnew hl
  obtain ⟨hlost, hold⟩ := hd fun hl' => hl (hL hl')
  refine ⟨by rw [hadd, hlost, add_zero], fun q v hq => ⟨?_, fun x _ hfr => (hF q v hfr).elim⟩⟩
  rcases hq with hq | hq
  · exact (hold q v hq).1
  · exact hdrop q v (hgone q v hq).1

end

section
variable {k k' : Kernel} {p : Fin NPROC} {Lossy : Prop}

theorem Unmapped.trades (hlive : (k.proc p).live) (R : Nat → Prop) (h : Unmapped k p done k')
    (hdone : ∀ v ∈ done, v < 0x80000 ∧ R v) : Trades k k' 0
      (fun q v => q = p ∧ (k.proc p).wmap.isChild = false ∧ R v ∧
        ((k.proc p).pgdir.entry v).p = true)
      (fun q v => q = p ∧ R v) Lossy := by
  have hself := h.proc_self
  have hlive' : (k'.proc p).live := by rw [hself]; exact hlive
  have hother : ∀ q, q ≠ p → Proc.SameSpace (k'.proc q) (k.proc q) := by
    intro q hq
    rw [h.proc_ne hq]
    exact Proc.SameSpace.refl _
  have hstack : (k'.proc p).kstack = (k.proc p).kstack := by rw [hself]
  by_cases hc : (k.proc p).wmap.isChild = true
  · refine .cleared [] done hother h.kpgdir hlive hlive' hstack h.cleared ?_ (by simp) (by simp)
      (by simp) (by simp) ?_
    · rw [h.freed.free, if_pos hc]
      rfl
    · intro v hv
      refine ⟨⟨rfl, (hdone v hv).2⟩, fun _ _ hf => ?_⟩
      rw [hc] at hf
      cases hf.2.1
  · have hc' := Bool.eq_false_iff.mpr hc
    refine .cleared done done hother h.kpgdir hlive hlive' hstack h.cleared ?_ h.nodup
      (fun _ hv => hv) (fun v hv => ⟨(hdone v hv).1, h.present v hv⟩)
      (fun v hv => ⟨rfl, hc', (hdone v hv).2, h.present v hv⟩)
      (fun v hv => ⟨⟨rfl, (hdone v hv).2⟩, fun _ _ _ => hv⟩)
    rw [h.freed.free, if_neg hc]

/-- The pages that a region of the process covers. -/
def Kernel.RegionPage (k : Kernel) (p : Fin NPROC) (v : Nat) : Prop :=
  ∃ i ∈ (k.proc p).wmap.active, v ∈ ((k.proc p).wmap.slot i).pages

theorem Kernel.RegionPage.user (hok : (k.proc p).wmap.Ok) (h : k.RegionPage p v) : v < 0x80000 := by
  obtain ⟨i, hi, hv⟩ := h
  exact ((hok i hi).pages_window hv).2

theorem Exited.trades (hlive : (k.proc p).live) (hok : (k.proc p).wmap.Ok)
    (h : Exited k p k' done k1) : Trades k k' 0
      (fun q v => q = p ∧ (k.proc p).wmap.isChild = false ∧ k.RegionPage p v ∧
        ((k.proc p).pgdir.entry v).p = true)
      (fun q v => q = p ∧ k.RegionPage p v) Lossy := by
  refine (h.unmapped.trades hlive (k.RegionPage p) fun v hv => ?_).then_same ?_
  · exact ⟨Kernel.RegionPage.user hok (h.pages v hv), h.pages v hv⟩
  refine holding_same (fun q => ?_) (h.kpgdir.trans h.unmapped.kpgdir.symm) ?_
  · by_cases hq : q = p
    · subst hq
      have hlive1 : (k1.proc q).live := by rw [h.unmapped.proc_self]; exact hlive
      rw [h.self]
      exact .of_eq ⟨fun _ => hlive1, fun _ => by simp [Proc.live]⟩ rfl rfl
    · rw [h.others q hq, h.unmapped.proc_ne hq]
      exact .of_eq Iff.rfl rfl rfl
  · rw [h.lowered.kmem]

theorem decCount_kmem (m : Machine) (x : Frame) : (m.decCount x).kmem = m.kmem := by
  unfold Machine.decCount
  split <;> rfl

theorem CowResolved.trades {pa : Frame} {refCount : Nat} {d : PgDir} {m : Machine}
    (hlive : (k.proc p).live) (hv : v < 0x80000)
    (h : CowResolved k.mach (k.proc p).pgdir v pa refCount b d m)
    (hk : k' = { k with mach := m }.setProc p
      { k.proc p with pgdir := d, cowFault := (k'.proc p).cowFault }) (hF : ∀ q u, ¬ Frees q u) :
    ∃ added, Trades k k' added Frees (fun q u => q = p ∧ u = v ∧ refCount ≠ 1) Lossy ∧
      (b = false → added = 0) := by
  have hp : k'.proc p = { k.proc p with pgdir := d, cowFault := (k'.proc p).cowFault } := by
    conv_lhs => rw [hk]
    simp
  have hmach : k'.mach = m := by rw [hk]; rfl
  have hkp : k'.kpgdir = k.kpgdir := by rw [hk]; rfl
  have hother : ∀ q, q ≠ p → Proc.SameSpace (k'.proc q) (k.proc q) := by
    intro q hq
    rw [hk, Kernel.proc_setProc_ne hq]
    exact Proc.SameSpace.refl _
  have hpg : (k'.proc p).pgdir = d := by rw [hp]
  have hlive' : (k'.proc p).live := by rw [hp]; exact hlive
  have hstack : (k'.proc p).kstack = (k.proc p).kstack := by rw [hp]
  cases h with
  | upgraded hone hr =>
    refine ⟨0, .same (fun q => ?_) hkp (by rw [hmach]; rfl), fun _ => rfl⟩
    by_cases hq : q = p
    · subst hq
      refine ⟨⟨fun _ => hlive, fun _ => hlive'⟩, hstack, by rw [hpg, hr.frames], ?_, ?_⟩
      · intro u _
        rw [hpg, hr.entry]
        by_cases huv : u = v <;> simp [huv]
      · intro u _
        rw [hpg, hr.entry]
        by_cases huv : u = v <;> simp [huv]
    · exact hother q hq
  | starved hone hf =>
    refine ⟨0, .same (fun q => ?_) hkp (by rw [hmach]; rfl), fun _ => rfl⟩
    by_cases hq : q = p
    · subst hq
      exact .of_eq ⟨fun _ => hlive, fun _ => hlive'⟩ hstack hpg
    · exact hother q hq
  | @copied _ x a hone hka hr =>
    refine ⟨{x}, .proc [] {u | u = v} {x} 0 hother hkp hlive ?_ (by simp) (by simp) ?_ ?_ ?_
      (by simp) (fun _ => ⟨rfl, fun u hu => ⟨⟨rfl, hu, hone⟩, fun _ _ hfr =>
        (hF p u hfr).elim⟩⟩), by simp⟩
    · have hfree : k'.mach.kmem.free = a.free := by
        rw [hmach]
        exact congrArg Kmem.free (decCount_kmem _ _)
      rw [hfree, free_kalloc hka, Proc.owned_of_live hlive', Proc.owned_of_live hlive, hpg, hstack,
        hr.frames, ← singleton_add]
      simp only [PgDir.ppns, List.map_nil, coe_nil]
      abel
    · rintro u y ⟨-, hu, hpu, hx⟩
      rw [hpg, hr.entry] at hpu hx
      split at hx
      · exact Or.inl (by simpa [Pte.make] using hx.symm)
      · rename_i huv
        rw [if_neg huv] at hpu
        exact Or.inr ⟨⟨hlive, hu, hpu, hx⟩, by simp⟩
    · intro y hy
      rw [mem_singleton] at hy
      refine ⟨v, hlive', hv, ?_, ?_⟩
      · rw [hpg, hr.entry, if_pos rfl]
        rfl
      · rw [hpg, hr.entry, if_pos rfl, hy]
        rfl
    · rintro u y ⟨-, hu, hpu, hx⟩ huv
      have he : d.entry u = (k.proc p).pgdir.entry u := by
        rw [hr.entry]
        exact if_neg huv
      exact ⟨hlive', hu, by rw [hpg, he]; exact hpu, by rw [hpg, he]; exact hx⟩

/-- The clean-up of `allocateAndMap` at the page of `va` in region `i` reaches page `v`. -/
def Kernel.Retracts (k : Kernel) (p : Fin NPROC) (va : Nat) (i : Fin MAX_WMMAP_INFO) (v : Nat) :
    Prop :=
  (k.mach.kmem.freelist = [] ∨
    k.mach.kmem.freelist.length = 1 ∧ (k.proc p).pgdir.walk (pgrounddown va) = none) ∧
  0 < ((k.proc p).wmap.slot i).nLoaded ∧ v ∈ pageRange (pgrounddown va + 4096) 0x80000000

theorem Retracted.trades (hlive : (k.proc p).live) (h : Retracted k p (pgrounddown va) i k' k1 done) :
    Trades k k' 0
      (fun q v => q = p ∧ (k.proc p).wmap.isChild = false ∧ k.Retracts p va i v ∧
        ((k.proc p).pgdir.entry v).p = true)
      (fun q v => q = p ∧ k.Retracts p va i v) Lossy := by
  have hsame : k1.holding = k.holding := by
    refine holding_same (fun q => ?_) h.starved.kpgdir ?_
    · rw [h.starved.proc]
      exact Proc.SameSpace.refl _
    · rw [Kmem.free, h.starved.free, Kmem.free]
  have hdone : ∀ v ∈ done, v < 0x80000 ∧ k.Retracts p va i v := by
    intro v hv
    refine ⟨?_, h.short, ?_, h.pages v hv⟩
    · have hal : (pgrounddown va + 4096) % 4096 = 0 := by
        unfold pgrounddown
        omega
      have := (mem_pageRange hal).mp (h.pages v hv)
      omega
    · by_contra hn
      rw [h.none (by omega)] at hv
      cases hv
  have ht : Trades k1 k' 0 _ _ Lossy :=
    h.unmapped.trades (by rw [h.starved.proc]; exact hlive) (k.Retracts p va i) hdone
  rw [h.starved.proc] at ht
  exact .after_same hsame ht

theorem Unread.trades (h : Unread k p a i k' x km) (hlossy : Lossy) :
    Trades k k' 0 Frees Drops Lossy := by
  have hsame : ∀ q, Proc.SameSpace (k'.proc q) (k.proc q) := fun q => by
    rw [h.proc]
    exact Proc.SameSpace.refl _
  have hfree : k'.mach.kmem = km := by rw [h.eq]
  refine .of_refs {x} ?_ (fun q v y hm => ⟨q, v, hm.congr (hsame q).symm⟩)
    (fun q v y hm => hm.congr (hsame q)) (fun hl => (hl hlossy).elim)
  have htotal := total_exchange (p := p) (fun q _ => hsame q) h.kpgdir {x} 0 (by
    rw [h.proc, hfree, free_kalloc h.alloc, ← singleton_add]
    abel)
  simpa using htotal

theorem Loaded.trades (hlive : (k.proc p).live) (ha : a / 4096 < 0x80000)
    (h : Loaded k p a i k' x km) : Trades k k' {x} Frees Drops Lossy := by
  have hlive' : (k'.proc p).live := by rw [h.proc_self]; exact hlive
  have hstack : (k'.proc p).kstack = (k.proc p).kstack := by rw [h.proc_self]
  refine .proc [] ∅ {x} 0 (fun q hq => ?_) h.kpgdir hlive ?_ (by simp) (by simp) ?_ ?_ ?_ (by simp)
    (fun _ => ⟨rfl, by simp⟩)
  · rw [h.proc_ne hq]
    exact Proc.SameSpace.refl _
  · rw [Proc.owned_of_live hlive', Proc.owned_of_live hlive, hstack, free_kalloc h.alloc,
      ← singleton_add]
    simp only [PgDir.ppns, List.map_nil, coe_nil, add_zero]
    calc _ = k'.mach.kmem.free + (k'.proc p).pgdir.frames + {x} + (k.proc p).kstack.toList := by
          abel
      _ = _ := by rw [← h.extend.balance]; abel
  · rintro v y ⟨-, hu, hpv, hy⟩
    rw [h.entry] at hpv hy
    split at hy
    · exact Or.inl (by simpa [Pte.make] using hy.symm)
    · rename_i hv
      rw [if_neg hv] at hpv
      exact Or.inr ⟨⟨hlive, hu, hpv, hy⟩, by simp⟩
  · intro y hy
    rw [mem_singleton] at hy
    have he : (k'.proc p).pgdir.entry (a / 4096) =
        Pte.make x { w := true, u := true, p := true } := by rw [h.entry, if_pos rfl]
    exact ⟨a / 4096, hlive', ha, by rw [he]; rfl, by rw [he, hy]; rfl⟩
  · rintro v y ⟨-, hu, hpv, hy⟩ -
    have he : (k'.proc p).pgdir.entry v = (k.proc p).pgdir.entry v := by
      rw [h.entry, if_neg]
      rintro rfl
      rw [h.absent] at hpv
      cases hpv
    exact ⟨hlive', hu, by rw [he]; exact hpv, by rw [he]; exact hy⟩

theorem allocateAndMap_trades (hlive : (k.proc p).live) (hlo : 0x60000000 ≤ va)
    (hhi : va < 0x80000000) (hbase : (k.proc p).pgdir.KernelBase)
    (h : allocateAndMap k p va 4096 i = .ok (b, k')) : ∃ added, Trades k k' added
      (fun q v => q = p ∧ (k.proc p).wmap.isChild = false ∧ k.Retracts p va i v ∧
        ((k.proc p).pgdir.entry v).p = true)
      (fun q v => q = p ∧ k.Retracts p va i v) (¬ k.Readable p (pgrounddown va) i) ∧
      (b = false → added = 0) := by
  rcases allocateAndMap_spec hlo hhi hbase h with
    ⟨-, -, rfl⟩ | ⟨-, -, k1, done, hr⟩ | ⟨-, -, x, km, hu⟩ | ⟨rfl, -, x, km, hl⟩
  · exact ⟨0, .of_eq rfl, fun _ => rfl⟩
  · exact ⟨0, hr.trades hlive, fun _ => rfl⟩
  · exact ⟨0, hu.trades hu.unreadable, fun _ => rfl⟩
  · refine ⟨{x}, hl.trades hlive ?_, by simp⟩
    unfold pgrounddown
    omega

end

end Xv6
