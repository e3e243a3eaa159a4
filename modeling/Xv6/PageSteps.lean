import Xv6.Steps

/-!
What a step does to the page table of each process, entry by entry. Every claim about
flags and translations is read off from here.
-/

namespace Xv6

open Kernel

variable {x : Proc} {done : List Nat} {m m' : Machine} {b : Bool} {d' : PgDir} {va : Nat}

/-- The steps that can run `dellocateAndUnmap`. -/
def Act.MayUnmap : Act → Prop
  | wunmap _ _ | exit _ | fault _ _ _ _ | cowResolve _ _ => True
  | _ => False

/-- What step `a` can make of the entry of page `v` of process `q`, which is `x`. -/
inductive PteStep (x : Proc) (q : Fin NPROC) (v : Nat) (a : Act) : Pte → Prop where
  | kept : PteStep x q v a (x.pgdir.entry v)
  | shared : a = .fork q → v < sizePages x.sz → PteStep x q v a (x.pgdir.entry v).share
  | grown {n : Int} {e : Pte} : a = .sbrk q n → sizePages x.sz ≤ v → v < 0x80000 →
      (e.p = true → e.w = true) → PteStep x q v a e
  | shrunk {n : Int} {e : Pte} : a = .sbrk q n → v ∈ deallocRange x.sz (addInt x.sz n) →
      e.p = false → PteStep x q v a e
  | unmapped {e : Pte} : a.proc = q → a.MayUnmap → 0x60000 ≤ v → v < 0x80000 → e.p = false →
      PteStep x q v a e
  | loaded {va : Nat} {write user : Bool} {f : Frame} : a = .fault q va write user → 0x60000 ≤ v →
      v < 0x80000 → (x.pgdir.entry v).p = false →
      PteStep x q v a (Pte.make f { w := true, u := true, p := true })
  | copied {f : Frame} : a.proc = q → v < sizePages x.sz → (x.pgdir.entry v).p = true →
      (x.pgdir.entry v).u = true → (x.pgdir.entry v).cow = true →
      PteStep x q v a (Pte.make f { (x.pgdir.entry v).toFlags with w := true, cow := false })

/-- What becomes of a process that is there before and after a step. -/
structure SpaceStep (x : Proc) (q : Fin NPROC) (a : Act) (y : Proc) : Prop where
  sz : y.sz = x.sz ∨ ∃ n, a = .sbrk q n ∧ ∀ v, v < sizePages x.sz →
    v < sizePages y.sz ∨ v ∈ deallocRange x.sz (addInt x.sz n)
  pages : ∀ v, PteStep x q v a (y.pgdir.entry v)

section
variable {x y z : Proc} {q : Fin NPROC} {a : Act}

theorem SpaceStep.same (hsz : y.sz = x.sz) (hd : y.pgdir = x.pgdir) : SpaceStep x q a y := by
  refine ⟨.inl hsz, fun v => ?_⟩
  rw [hd]
  exact .kept

theorem SpaceStep.size (h : SpaceStep x q a y) {v : Nat} (hv : v < sizePages x.sz) :
    v < sizePages y.sz ∨ ∃ n, a = .sbrk q n ∧ v ∈ deallocRange x.sz (addInt x.sz n) := by
  rcases h.sz with hsz | ⟨n, ha, hsize⟩
  · exact .inl (by rwa [hsz])
  · exact (hsize v hv).imp id fun hmem => ⟨n, ha, hmem⟩

theorem SpaceStep.trans_same (h : SpaceStep x q a y) (hsz : z.sz = y.sz)
    (hd : z.pgdir = y.pgdir) : SpaceStep x q a z := by
  refine ⟨by rw [hsz]; exact h.sz, fun v => ?_⟩
  rw [hd]
  exact h.pages v

theorem SpaceStep.trans_unmapped (h : SpaceStep x q a y) (ha : a.proc = q) (hm : a.MayUnmap)
    (hsz : z.sz = y.sz) (hc : Cleared y.pgdir (· ∈ done) z.pgdir)
    (hdone : ∀ v ∈ done, 0x60000 ≤ v ∧ v < 0x80000) : SpaceStep x q a z := by
  refine ⟨by rw [hsz]; exact h.sz, fun v => ?_⟩
  by_cases hv : v ∈ done
  · exact .unmapped ha hm (hdone v hv).1 (hdone v hv).2 (hc.cleared v hv)
  · rw [hc.kept v hv]
    exact h.pages v

theorem Resized.spaceStep {n : Int} {sz' : Nat} (hsz : x.sz < 0x80000000)
    (h : Resized m x.pgdir x.sz (addInt x.sz n) m' d' sz') :
    SpaceStep x q (.sbrk q n) { x with pgdir := d', sz := sz' } := by
  generalize hnew : addInt x.sz n = newsz at h
  cases h with
  | same => exact .same rfl rfl
  | grown hle hlt hxs hg =>
    refine ⟨.inr ⟨n, rfl, fun v hv => .inl ?_⟩, fun v => ?_⟩
    · have := sizePages_add hle (by omega)
      dsimp only
      omega
    by_cases hv : v < sizePages x.sz ∨ sizePages sz' ≤ v
    · have hk : d'.entry v = x.pgdir.entry v := hg.kept v (by
        have := sizePages_add hle (by omega)
        omega)
      dsimp only
      rw [hk]
      exact .kept
    · have hadd := sizePages_add hle (by omega)
      have hle := sizePages_le (show sz' ≤ 0x80000000 by omega)
      have hmap := hg.mapped (v - sizePages x.sz) (by omega)
      rw [show sizePages x.sz + (v - sizePages x.sz) = v by omega] at hmap
      exact .grown rfl (by omega) (by omega) fun _ => by rw [hmap]; rfl
  | abandoned hle hlt hxs ha =>
    refine ⟨.inl rfl, fun v => ?_⟩
    have hadd := sizePages_add hle (by omega)
    by_cases hv : v ∈ deallocRange newsz x.sz
    · have hmem := mem_deallocRange.mp hv
      rw [sizePages_eq (by omega)] at hmem
      have hp := ha.cleared.cleared v hv
      exact .grown rfl hmem.2.1 (by omega) fun h => by rw [show _ = false from hp] at h; cases h
    · have hk : d'.entry v = x.pgdir.entry v := by
        rw [ha.cleared.kept v hv, ha.grown.kept v]
        rw [mem_deallocRange, sizePages_eq (by omega)] at hv
        unfold sizePages allocPages pagesTo pgroundup at *
        omega
      dsimp only
      rw [hk]
      exact .kept
  | shrunk hlt hf hc hsz' =>
    refine ⟨.inr ⟨n, rfl, fun v hv => ?_⟩, fun v => ?_⟩
    · by_cases hmem : v ∈ deallocRange x.sz newsz
      · exact .inr (by rwa [hnew])
      · refine .inl ?_
        rw [mem_deallocRange] at hmem
        rw [sizePages_eq (by omega)] at hmem
        unfold sizePages pagesTo at *
        rcases hsz' with rfl | ⟨-, rfl⟩ <;> dsimp only <;> omega
    · by_cases hmem : v ∈ deallocRange x.sz newsz
      · exact .shrunk rfl (by rwa [hnew]) (hc.cleared v hmem)
      · dsimp only
        rw [hc.kept v hmem]
        exact .kept

theorem CowResolved.spaceStep {pa : Frame} {refCount : Nat} (ha : a.proc = q) (hsz : va < x.sz)
    (hx : x.sz < 0x80000000) {pte : Pte} (hw : x.pgdir.walk va = some pte) (hp : pte.p = true)
    (hu : pte.u = true) (hcow : pte.cow = true)
    (h : CowResolved m x.pgdir (va / 4096) pa refCount b d' m') (hy : y.sz = x.sz)
    (hd : y.pgdir = d') : SpaceStep x q a y := by
  have he := PgDir.entry_of_walk (by omega) hw
  have hpage : va / 4096 < sizePages x.sz := by
    unfold sizePages pagesTo
    omega
  have copied : ∀ {e : Pte} {f : Frame}, Rewritten x.pgdir (va / 4096) e d' →
      e = Pte.make f { (x.pgdir.entry (va / 4096)).toFlags with w := true, cow := false } →
      ∀ v, PteStep x q v a (d'.entry v) := by
    intro e f hr hf v
    rw [hr.entry]
    split
    · rename_i hv
      subst hv
      rw [hf]
      exact .copied ha hpage (by rw [he, hp]) (by rw [he, hu]) (by rw [he, hcow])
    · exact .kept
  refine ⟨.inl hy, ?_⟩
  rw [hd]
  cases h with
  | upgraded _ hr =>
    refine copied hr (f := (x.pgdir.entry (va / 4096)).ppn) ?_
    rw [he]
    simp [Pte.make, hp]
  | starved _ _ => exact fun _ => .kept
  | copied _ _ hr => exact copied hr rfl

end

/-- What becomes of a live slot `q` in a step: the process in it stays, has replaced its
address space, or was forked. -/
inductive SlotStep (k : Kernel) (q : Fin NPROC) (a : Act) (k' : Kernel) : Prop where
  | stays : (k.proc q).live → SpaceStep (k.proc q) q a (k'.proc q) → SlotStep k q a k'
  | replaced {ip : Option Nat} {path : List UInt8} {argv : List (List UInt8)} {slept : Nat → Bool}
      {k1 : Kernel} {m : Machine} {d : PgDir} {sz : Nat} {xs : List Frame} :
      a = .exec q ip path argv slept → (k.proc q).live → Replaced (k.enter q) q k1 m d sz xs →
      k' = k1.leave q → SlotStep k q a k'
  | born {p : Fin NPROC} {k1 : Kernel} {s : Frame} {km : Kmem} {m : Machine} {d : PgDir}
      {done : List Nat} : a = .fork p → (k.proc p).live →
      Forked (k.enter p) p q k1 s km m d done → k' = k1.leave p → SlotStep k q a k'

section
variable {k k' k1 : Kernel} {p q : Fin NPROC} {a : Act}

theorem SlotStep.untouched (hlive : (k'.proc q).live) (h : k'.proc q = k.proc q) :
    SlotStep k q a k' := by
  rw [h] at hlive
  exact .stays hlive (.same (by rw [h]) (by rw [h]))

theorem SlotStep.setProc (hp : (k.proc p).live) (hk : k'.proc = (k.setProc p x).proc)
    (hsz : x.sz = (k.proc p).sz) (hd : x.pgdir = (k.proc p).pgdir) (hlive : (k'.proc q).live) :
    SlotStep k q a k' := by
  by_cases hq : q = p
  · subst hq
    refine .stays hp (.same ?_ ?_) <;> rw [hk, proc_setProc_self]
    · exact hsz
    · exact hd
  · exact .untouched hlive (by rw [hk, proc_setProc_ne hq])

theorem SlotStep.of_proc (hp : (k.proc p).live) (hstep : SpaceStep (k.proc p) p a (k'.proc p))
    (hne : ∀ q, q ≠ p → (k'.proc q).sz = (k.proc q).sz ∧ (k'.proc q).pgdir = (k.proc q).pgdir ∧
      (k'.proc q).state = (k.proc q).state) (hlive : (k'.proc q).live) : SlotStep k q a k' := by
  by_cases hq : q = p
  · subst hq
    exact .stays hp hstep
  · obtain ⟨hsz, hd, hst⟩ := hne q hq
    unfold Proc.live at hlive
    rw [hst] at hlive
    exact .stays hlive (.same hsz hd)

theorem Exited.spaceStep (hs : k.Sane) (hp : (k.proc p).live) (he : Exited k p k' done k1)
    (ha : a.proc = p) (hm : a.MayUnmap) (hx : SpaceStep x p a (k.proc p)) :
    SpaceStep x p a (k'.proc p) := by
  have hsz : (k'.proc p).sz = (k.proc p).sz := by rw [he.self, he.unmapped.proc_self]
  have hd : (k'.proc p).pgdir = (k1.proc p).pgdir := by rw [he.self]
  refine hx.trans_unmapped ha hm hsz (by rw [hd]; exact he.unmapped.cleared) fun v hv => ?_
  obtain ⟨i, hi, hmem⟩ := he.pages v hv
  exact ((hs p).wmap hp i hi).pages_window hmem

theorem leaveTrap_spaceStep {user back : Bool} (hs : k.Sane) (hp : (k.proc p).live)
    (h : leaveTrap k p user = .ok (back, k')) (ha : a.proc = p) (hm : a.MayUnmap)
    (hx : SpaceStep x p a (k.proc p)) :
    SpaceStep x p a (k'.proc p) ∧ ∀ q, q ≠ p → (k'.proc q).sz = (k.proc q).sz ∧
      (k'.proc q).pgdir = (k.proc q).pgdir ∧ (k'.proc q).state = (k.proc q).state := by
  rcases leaveTrap_cases h with ⟨-, -, -, he⟩ | ⟨-, -, rfl⟩
  · obtain ⟨done, k1, he⟩ := exit_spec ((hs p).wmap hp) he
    refine ⟨he.spaceStep hs hp ha hm hx, fun q hq => ?_⟩
    rw [he.others q hq]
    exact ⟨rfl, rfl, rfl⟩
  · exact ⟨hx, fun _ _ => ⟨rfl, rfl, rfl⟩⟩

theorem setKilled_spaceStep (h : SpaceStep x p a (k.proc p)) :
    SpaceStep x p a ((if b then k else setKilled k p).proc p) := by
  split
  · exact h
  · refine h.trans_same ?_ ?_ <;> rw [setKilled, proc_setProc_self]

theorem setKilled_ne (hq : q ≠ p) : (if b then k else setKilled k p).proc q = k.proc q := by
  split
  · rfl
  · exact proc_setProc_ne hq

theorem pageFault_spaceStep (write user : Bool) (hs : k.Sane) (hlive : (k.proc p).live)
    (hva : va < 0x100000000) (h : pageFault k p va = .ok k') :
    SpaceStep (k.proc p) p (.fault p va write user) (k'.proc p) ∧
      ∀ q, q ≠ p → k'.proc q = k.proc q := by
  rcases pageFault_cases h with
    ⟨-, b, k1, hc, rfl⟩ | ⟨-, -, -, rfl⟩ | ⟨hlo, hhi, i, b, k1, -, ha, rfl⟩
  · rcases handleCowFault_spec k p hva with ⟨hr, -⟩ | ⟨pa, rc, b', d, m, hread, hres, hr⟩
    · rw [hr] at hc
      cases hc
      exact ⟨setKilled_spaceStep (.same rfl rfl), fun q hq => setKilled_ne hq⟩
    rw [hr] at hc
    cases hc
    obtain ⟨hlt, -, -, pte, hw, hp, hu, hcow, -⟩ := cowRead_some hread
    refine ⟨setKilled_spaceStep (hres.spaceStep rfl hlt ((hs p).size hlive) hw hp hu hcow ?_ ?_),
      fun q hq => ?_⟩
    · rw [proc_setProc_self]
    · rw [proc_setProc_self]
    · rw [setKilled_ne hq, proc_setProc_ne hq]
  · exact ⟨.same rfl rfl, fun _ _ => rfl⟩
  · have hal : (pgrounddown va + 4096) % 4096 = 0 := by
      unfold pgrounddown
      omega
    have hpage : 0x60000 ≤ pgrounddown va / 4096 ∧ pgrounddown va / 4096 < 0x80000 := by
      unfold pgrounddown
      omega
    suffices hstep : SpaceStep (k.proc p) p (.fault p va write user) (k1.proc p) ∧
        ∀ q, q ≠ p → k1.proc q = k.proc q from
      ⟨setKilled_spaceStep hstep.1, fun q hq => (setKilled_ne hq).trans (hstep.2 q hq)⟩
    rcases allocateAndMap_spec hlo hhi ((hs p).base hlive) ha with
      ⟨-, -, rfl⟩ | ⟨-, -, k2, done, hr⟩ | ⟨-, -, x, km, hu⟩ | ⟨-, -, x, km, hl⟩
    · exact ⟨.same rfl rfl, fun _ _ => rfl⟩
    · refine ⟨(SpaceStep.same (by rw [hr.starved.proc]) (by rw [hr.starved.proc])).trans_unmapped
        (y := k2.proc p) rfl trivial ?_ hr.unmapped.cleared fun v hv => ?_, fun q hq => ?_⟩
      · rw [hr.unmapped.proc_self]
      · have := (mem_pageRange hal).mp (hr.pages v hv)
        unfold pgrounddown at this
        omega
      · rw [hr.unmapped.proc_ne hq, hr.starved.proc]
    · exact ⟨.same (by rw [hu.proc]) (by rw [hu.proc]), fun q _ => by rw [hu.proc]⟩
    · refine ⟨⟨.inl (by rw [hl.proc_self]), fun v => ?_⟩, fun q hq => hl.proc_ne hq⟩
      rw [hl.entry]
      split
      · rename_i hv
        subst hv
        exact .loaded rfl hpage.1 hpage.2 hl.absent
      · exact .kept

theorem Forked.child_entry {s : Frame} {km : Kmem} {d : PgDir} {np : Fin NPROC} {v : Nat}
    (h : Forked k p np k' s km m d done) (hsz : (k.proc p).sz < 0x80000000)
    (hv : v < sizePages (k.proc p).sz) : (k'.proc np).sz = (k.proc p).sz ∧
      (k'.proc np).pgdir.entry v = ((k.proc p).pgdir.entry v).share := by
  obtain ⟨ofile, cwd, name, hchild⟩ := h.child
  refine ⟨by rw [hchild], ?_⟩
  rw [h.inherited.entry]
  split
  · rw [h.copy.parent, if_pos hv]
  · rw [h.copy.child v (Nat.lt_of_lt_of_le hv (sizePages_lt hsz)), if_pos hv]

theorem fork_slotStep {r : Option Nat} (hs : k.Sane) (hp : (k.proc p).live)
    (h : fork (k.enter p) p = .ok (r, k1)) (hlive : (k1.proc q).live) :
    SlotStep k q (.fork p) (k1.leave p) := by
  have hs' := hs.enter p
  have hsz := (hs' p).size hp
  have frame : ∀ {np : Fin NPROC}, ForkFrame (k.enter p) p np k1 →
      (∀ v, PteStep (k.proc p) p v (.fork p) ((k1.proc p).pgdir.entry v)) → q ≠ np →
      SlotStep k q (.fork p) (k1.leave p) := by
    intro np hf hpages hq
    by_cases hqp : q = p
    · subst hqp
      refine .stays hp ⟨.inl ?_, hpages⟩
      show (k1.proc q).sz = _
      rw [hf.parent]
      rfl
    · exact .untouched hlive (hf.others q hqp hq)
  have shared : ∀ {n v : Nat} {e : Pte}, n ≤ sizePages (k.proc p).sz →
      e = (if v < n then ((k.proc p).pgdir.entry v).share else (k.proc p).pgdir.entry v) →
      PteStep (k.proc p) p v (.fork p) e := by
    intro n v e hn he
    rw [he]
    split
    · exact .shared rfl (by omega)
    · exact .kept
  have unused : ∀ {np : Fin NPROC}, (k1.proc np).state = .unused → q ≠ np := by
    rintro np hun rfl
    exact hlive hun
  rcases fork_spec (k := k.enter p) hp (le_of_lt hsz) ((hs' p).wmap hp) h with
    ⟨-, rfl | ⟨np, hun, -, hk⟩⟩ | ⟨-, np, s, a, m, j, t, hf⟩ |
    ⟨-, np, s, a, a1, m, d, d1, done, hf⟩ | ⟨-, np, s, a, m, d, done, hf⟩
  · exact .untouched hlive rfl
  · have hq : q ≠ np := unused (by rw [hk, proc_setProc_self]; exact hun)
    refine .untouched hlive ?_
    show k1.proc q = k.proc q
    rw [hk, proc_setProc_ne hq]
    rfl
  · exact frame hf.toForkFrame (fun v => shared hf.copy.le.2 (hf.copy.parent v))
      (unused (by rw [hf.child]))
  · exact frame hf.toForkFrame (fun v => shared (Nat.le_refl _) (hf.copy.parent v))
      (unused hf.child.1)
  · by_cases hq : q = np
    · subst hq
      exact .born rfl hp hf rfl
    · exact frame hf.toForkFrame (fun v => shared (Nat.le_refl _) (hf.copy.parent v)) hq

theorem step_slot (hs : k.Sane) (h : Step k a k') (q : Fin NPROC) (hlive : (k'.proc q).live) :
    SlotStep k q a k' := by
  obtain ⟨hen, h⟩ := h
  cases perform_ok h with
  | @dispatch p =>
    have hrun : (k.proc p).state = .runnable := hen
    refine SlotStep.setProc (p := p) ?_ rfl rfl rfl hlive
    unfold Proc.live
    rw [hrun]
    decide
  | @yield p =>
    have hready : k.ready p := hen
    exact SlotStep.setProc (p := p) hready.live rfl rfl rfl hlive
  | @fork p _ _ hf =>
    have hready : k.ready p := hen
    exact fork_slotStep hs hready.live hf hlive
  | @exec p _ _ _ _ _ k1 hf =>
    have hready : k.ready p := hen
    rcases exec_spec hf with ⟨-, hk, -⟩ | ⟨-, m, d, sz, xs, hr⟩
    · refine .untouched hlive ?_
      show k1.proc q = k.proc q
      rw [hk]
      rfl
    · by_cases hq : q = p
      · subst hq
        exact .replaced rfl hready.live hr rfl
      · obtain ⟨name, tf, hk⟩ := hr.eq
        refine .untouched hlive ?_
        show k1.proc q = k.proc q
        rw [hk, proc_setProc_ne hq]
        rfl
  | @exit p k1 hf =>
    have hready : k.ready p := hen
    obtain ⟨done, k2, he⟩ := exit_spec (k := k.enter p) ((hs p).wmap hready.live) hf
    have hstep : SpaceStep (k.proc p) p (.exit p) (k1.proc p) :=
      he.spaceStep (hs.enter p) hready.live rfl trivial (.same rfl rfl)
    refine .of_proc (p := p) hready.live hstep (fun r hr => ?_) hlive
    show (k1.proc r).sz = _ ∧ (k1.proc r).pgdir = _ ∧ (k1.proc r).state = _
    rw [he.others r hr]
    exact ⟨rfl, rfl, rfl⟩
  | @wait p _ k1 hf =>
    rcases wait_spec hf with rfl | ⟨r, s, -, -, -, -, hk⟩
    · exact .untouched hlive rfl
    by_cases hq : q = r
    · subst hq
      refine absurd ?_ hlive
      show (k1.proc q).state = .unused
      rw [hk, proc_setProc_self]
    · refine .untouched hlive ?_
      show k1.proc q = k.proc q
      rw [hk, proc_setProc_ne hq]
      rfl
  | @sbrk p n _ k1 hf =>
    obtain ⟨hready, hlo, hhi⟩ := hen
    have hsz := (hs p).size hready.live
    obtain ⟨m, d, sz, hr, hk⟩ := growproc_spec (k := k.enter p) hsz hlo hhi hf
    have hself : k1.proc p = { k.proc p with pgdir := d, sz := sz } := by
      rw [hk, proc_setProc_self]
      rfl
    refine .of_proc (p := p) hready.live ?_ (fun r hr => ?_) hlive
    · show SpaceStep (k.proc p) p _ (k1.proc p)
      rw [hself]
      exact hr.spaceStep hsz
    · show (k1.proc r).sz = _ ∧ (k1.proc r).pgdir = _ ∧ (k1.proc r).state = _
      rw [hk, proc_setProc_ne hr]
      exact ⟨rfl, rfl, rfl⟩
  | @wmap p _ _ _ _ _ k1 hf =>
    obtain ⟨hready, -⟩ := hen
    rcases sysWmap_cases hf with ⟨-, rfl⟩ | ⟨-, -, -, -, -, -, hf⟩
    · exact .untouched hlive rfl
    · obtain ⟨hk, -⟩ := wmap_spec hf
      exact SlotStep.setProc (p := p) hready.live ((congrArg Kernel.proc hk).trans rfl) rfl rfl hlive
  | @wunmap p addr _ k1 hf =>
    obtain ⟨hready, -⟩ := hen
    unfold sysWunmap at hf
    split at hf
    · cases hf
      exact .untouched hlive rfl
    have hok := (hs p).wmap hready.live
    obtain ⟨done, hu, hpages⟩ := wunmap_spec (k := k.enter p) hok hf
    refine .of_proc (p := p) hready.live ((SpaceStep.same rfl rfl).trans_unmapped
      (y := k.proc p) rfl trivial ?_ hu.cleared fun v hv => ?_) (fun r hr => ?_) hlive
    · show (k1.proc p).sz = _
      rw [hu.proc_self]
      rfl
    · obtain ⟨i, hi, -, -, hmem⟩ := hpages v hv
      exact (hok i hi).pages_window hmem
    · show (k1.proc r).sz = _ ∧ (k1.proc r).pgdir = _ ∧ (k1.proc r).state = _
      rw [hu.proc_ne hr]
      exact ⟨rfl, rfl, rfl⟩
  | @fault p va write user _ k1 k2 hf hl =>
    obtain ⟨hready, hva, -⟩ := hen
    have hs1 := sane_pageFault (hs.enter p) hready.live hready.2 hva hf
    have hst := (pageFault_resolves write user hva ((hs.enter p p).base hready.live) hf).1
    obtain ⟨hstep, hne⟩ := pageFault_spaceStep write user (hs.enter p)
      hready.live hva hf
    have hlive1 : (k1.proc p).live := by
      unfold Proc.live
      rw [hst]
      exact hready.live
    obtain ⟨hstep2, hne2⟩ := leaveTrap_spaceStep (a := .fault p va write user) hs1 hlive1 hl rfl
      trivial hstep
    refine .of_proc (p := p) hready.live hstep2 (fun r hr => ?_) hlive
    have := hne2 r hr
    rwa [hne r hr] at this
  | @cowRead p va pa refCount hr =>
    have hready : k.ready p := hen.1
    exact SlotStep.setProc (p := p) hready.live rfl rfl rfl hlive
  | @cowResolve p user va pa refCount b d m back k1 hf hres hl =>
    obtain ⟨hp, hva, b', d', m', hres', hspec⟩ := hs.resolve hf (k.enter p).mach
    rw [hres] at hres'
    cases hres'
    obtain ⟨-, hlt, -, -, pte, hw, h1, h2, h3, -⟩ := (hs p).pending va pa refCount hf
    have hself := proc_cowDone (k := k.enter p) (p := p) b d m
    have hstep : SpaceStep (k.proc p) p (.cowResolve p user)
        (((k.enter p).cowDone p b d m).proc p) :=
      hspec.spaceStep rfl hlt ((hs p).size hp) hw h1 h2 h3 (by rw [hself]; rfl) (by rw [hself])
    obtain ⟨hstep2, hne2⟩ := leaveTrap_spaceStep (a := .cowResolve p user)
      (hspec.sane_cowDone (hs.enter p) hp hva) (by rw [hself]; exact hp) hl rfl trivial hstep
    refine .of_proc (p := p) hp hstep2 (fun r hr => ?_) hlive
    have := hne2 r hr
    rwa [cowDone_ne hr] at this
  | store _ => exact .untouched hlive rfl
  | @files p ofile fs =>
    have hready : k.ready p := hen
    exact SlotStep.setProc (p := p) hready.live rfl rfl rfl hlive

end

end Xv6
