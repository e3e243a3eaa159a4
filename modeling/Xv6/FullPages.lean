import Xv6.CopyPanics
import Xv6.Launch
import Xv6.PageSteps
import Xv6.Shrink

/-!
Every page below the size of a process is present, as long as no shrinking call comes to the
bottom of the address space and no process has grown into the window. `copyuvm` then finds all
the pages it copies.
-/

namespace Xv6

def Proc.Full (x : Proc) : Prop := ∀ v, v < sizePages x.sz → (x.pgdir.entry v).p = true

def Kernel.Full (k : Kernel) : Prop := ∀ q, (k.proc q).live → (k.proc q).Full

/-- The shrinking calls that do not come to the bottom of the address space, and the steps
that unmap regions for a process that has not grown into the window. -/
def KeepsPages (k : Kernel) : Act → Prop
  | .sbrk p n => n < 0 → 0 < (k.proc p).sz + n ∨ (k.proc p).sz = 0
  | .wunmap p _ | .exit p | .fault p _ _ _ | .cowResolve p _ => (k.proc p).sz ≤ 0x60000000
  | _ => True

section
variable {k k' k1 : Kernel} {p q : Fin NPROC} {a : Act}

/-- An entry below the size stays present unless a shrinking call or an unmapping takes it. -/
theorem SpaceStep.full {x y : Proc} (h : SpaceStep x q a y) (hx : x.Full)
    (hsbrk : ∀ n, a ≠ .sbrk q n) (hwindow : a.proc = q → a.MayUnmap → x.sz ≤ 0x60000000) : y.Full := by
  intro v hv
  rw [h.sz.resolve_right fun ⟨n, ha, _⟩ => hsbrk n ha] at hv
  have hstep := h.pages v
  generalize y.pgdir.entry v = e at hstep ⊢
  cases hstep with
  | kept => exact hx v hv
  | shared _ _ =>
    unfold Pte.share
    split
    · rfl
    · exact hx v hv
  | grown ha _ _ _ => exact (hsbrk _ ha).elim
  | shrunk ha _ _ => exact (hsbrk _ ha).elim
  | unmapped ha hm hlo _ _ =>
    have hbound := hwindow ha hm
    unfold sizePages pagesTo at hv
    omega
  | loaded _ _ _ habs =>
    rw [hx v hv] at habs
    cases habs
  | copied _ _ _ _ _ => rfl

/-- Growing and shrinking keep the pages below the size present, unless everything goes and
the size stays. -/
theorem Resized.full {x : Proc} {m m' : Machine} {d' : PgDir} {newsz sz' : Nat} (hsz : x.sz < 0x80000000)
    (hx : x.Full) (hkeep : newsz < x.sz → 0 < newsz) (h : Resized m x.pgdir x.sz newsz m' d' sz') :
    ({ x with pgdir := d', sz := sz' } : Proc).Full := by
  intro v hv
  dsimp only at hv ⊢
  cases h with
  | same => exact hx v hv
  | grown hle hlt hxs hg =>
    by_cases hold : v < sizePages x.sz
    · rw [hg.kept v (Or.inl hold)]
      exact hx v hold
    · have hadd := sizePages_add hle (by omega)
      have hmap := hg.mapped (v - sizePages x.sz) (by omega)
      rw [show sizePages x.sz + (v - sizePages x.sz) = v by omega] at hmap
      rw [hmap]
      rfl
  | abandoned hle hlt hxs ha =>
    have hnot : v ∉ deallocRange newsz x.sz := by
      rw [mem_deallocRange, sizePages_pgroundup (by omega)]
      omega
    rw [ha.cleared.kept v hnot, ha.grown.kept v (Or.inl hv)]
    exact hx v hv
  | shrunk hlt hf hc hsz' =>
    have hpos := hkeep hlt
    have hsize : sz' = newsz := by omega
    subst hsize
    have hnot : v ∉ deallocRange x.sz sz' := by
      rw [mem_deallocRange_pages hlt hsz]
      omega
    rw [hc.kept v hnot]
    refine hx v ?_
    unfold sizePages pagesTo at hv ⊢
    omega

theorem Replaced.full {m : Machine} {d : PgDir} {sz : Nat} {xs : List Frame}
    (h : Replaced k p k' m d sz xs) : (k'.proc p).Full := by
  obtain ⟨name, tf, hk⟩ := h.eq
  intro v hv
  rw [hk, Kernel.proc_setProc_self] at hv ⊢
  dsimp only at hv ⊢
  have hbound := h.built.length
  have hlen := h.length
  exact (h.built.present v (by omega)).mpr (by omega)

/-- Only `sbrk`, `exec` and the fork of a new process set a size. -/
def Act.Sizes : Act → Prop
  | .sbrk _ _ | .exec _ _ _ _ _ => True
  | _ => False

theorem step_full (hs : k.Sane) (hfull : k.Full) (hkeep : KeepsPages k a) (h : Step k a k') : k'.Full := by
  intro q hlive
  by_cases hsizes : a.Sizes
  · obtain ⟨hen, hperform⟩ := h
    cases perform_ok hperform with
    | @sbrk p n b k1 hf =>
      obtain ⟨hready, hlo, hhi⟩ := hen
      have hsz := (hs p).size hready.live
      obtain ⟨m, d, sz, hr, hk⟩ := growproc_spec (k := k.enter p) hsz hlo hhi hf
      change (k1.proc q).Full
      by_cases hq : q = p
      · subst hq
        rw [hk, Kernel.proc_setProc_self]
        refine hr.full hsz (hfull q hready.live) fun hlt => ?_
        have hcond : n < 0 → 0 < (k.proc q).sz + n ∨ (k.proc q).sz = 0 := hkeep
        change addInt (k.proc q).sz n < (k.proc q).sz at hlt
        change 0 < addInt (k.proc q).sz n
        unfold addInt at hlt ⊢
        omega
      · change (k1.proc q).live at hlive
        rw [hk, Kernel.proc_setProc_ne hq] at hlive ⊢
        exact hfull q hlive
    | @exec p _ _ _ _ _ k1 hf =>
      change (k1.proc q).Full
      change (k1.proc q).live at hlive
      rcases exec_spec hf with ⟨-, hk, -⟩ | ⟨-, m, d, sz, xs, hr⟩
      · rw [hk] at hlive ⊢
        exact hfull q hlive
      by_cases hq : q = p
      · subst hq
        exact hr.full
      · obtain ⟨name, tf, hk⟩ := hr.eq
        rw [hk, Kernel.proc_setProc_ne hq] at hlive ⊢
        exact hfull q hlive
    | _ => exact hsizes.elim
  · cases step_slot hs h q hlive with
    | stays hl hstep =>
      refine hstep.full (hfull q hl) ?_ ?_
      · rintro n rfl
        exact hsizes trivial
      · intro hq hm
        cases a <;> first | exact hm.elim | (rw [← hq]; exact hkeep)
    | replaced ha _ _ _ =>
      rw [ha] at hsizes
      exact (hsizes trivial).elim
    | @born p k1 s km m d done ha hl hforked hk =>
      rw [hk]
      intro v hv
      change v < sizePages (k1.proc q).sz at hv
      change ((k1.proc q).pgdir.entry v).p = true
      have hsz := (hs p).size hl
      obtain ⟨ofile, cwd, name, hchild⟩ := hforked.child
      have hsize : (k1.proc q).sz = (k.proc p).sz := by
        rw [hchild]
        rfl
      rw [hsize] at hv
      rw [(hforked.child_entry hsz hv).2]
      have hp : ((k.proc p).pgdir.entry v).p = true := hfull p hl v hv
      change (((k.proc p).pgdir.entry v).share).p = true
      unfold Pte.share
      split
      · rfl
      · exact hp

end

section
variable {m : Machine} {e : Halt}

theorem Proc.Full.copyuvm_error {x : Proc} (hx : x.Full) (hsz : x.sz < 0x80000000)
    (h : copyuvm m x.pgdir x.sz = .error e) : ¬ CopyuvmPanic e := by
  rcases Lib.bind_eq_error.mp h with h | ⟨⟨r, m1⟩, -, h⟩
  · exact setupkvm_error h
  cases r with
  | none => cases h
  | some d =>
    have hle := sizePages_le (show x.sz ≤ 0x80000000 by omega)
    unfold sizePages at hle
    exact copyLoop_error (by omega) (by omega) (fun v _ hv => hx v (by unfold sizePages; omega)) h

end

theorem Kernel.Start.full {k : Kernel} (h : k.Start) : k.Full := by
  obtain ⟨image, freelist, fs, root, initcode, -, -, hlen, hb⟩ := h
  obtain ⟨x, s, hb⟩ := boot_spec hlen hb
  intro q hlive v hv
  by_cases hq : q = 0
  · subst hq
    have hzero : v = 0 := by
      rw [hb.self] at hv
      have hone : sizePages 4096 = 1 := by decide
      change v < sizePages 4096 at hv
      omega
    rw [hzero, hb.space.entry 0 (by decide)]
    rfl
  · rw [hb.others q hq] at hlive
    exact (hlive rfl).elim

/-- Shrinking is all or nothing exactly when it leaves a page or finds none. In every run in
which each shrinking call leaves a page, every page below the size of a process is present and
`copyuvm` does not panic over a missing one. -/
theorem shrink_all_or_nothing (k0 k k' : Kernel) (p : Fin NPROC) (n : Int) (b : Bool) (acts : List Act) :
    (n < 0 → -0x80000000 ≤ n → (k.proc p).sz < 0x80000000 → growproc k p n = .ok (b, k') →
      (ShrinkWhole k p n b k' ↔ 0 < (k.proc p).sz + n ∨ (k.proc p).sz = 0 ∨
        (k.proc p).sz + n = 0 ∧ ∀ v, v < sizePages (k.proc p).sz → ((k.proc p).pgdir.entry v).p = false)) ∧
    (k0.Start → Lib.Run (Lib.When KeepsPages Step) k0 acts k →
      k.Full ∧ ∀ p m e, (k.proc p).live → copyuvm m (k.proc p).pgdir (k.proc p).sz = .error e →
        ¬ CopyuvmPanic e) := by
  refine ⟨growproc_whole_iff, fun hstart hrun => ?_⟩
  obtain ⟨hs, hfull⟩ := hrun.invariant (fun k => k.Sane ∧ k.Full) ⟨hstart.sane, hstart.full⟩
    fun _ _ _ ⟨h1, h2⟩ hstep => ⟨step_sane h1 hstep.2, step_full h1 h2 hstep.1 hstep.2⟩
  exact ⟨hfull, fun p m e hlive h => (hfull p hlive).copyuvm_error ((hs p).size hlive) h⟩

theorem shrink_by_one_byte :
    (∃ k', growproc Kernel.growing 0 (-1) = .ok (true, k') ∧ ShrinkWhole Kernel.growing 0 (-1) true k') ∧
    ∃ k0 k, k0.Start ∧ Step k0 (.dispatch 0) k ∧ k.Full ∧ (k.proc 0).live := by
  constructor
  · have hrange : deallocRange 4096 4095 = [] := by decide
    obtain ⟨sz, hd⟩ : ∃ sz, deallocuvm Kernel.growing.mach PgDir.twoPages 4096 4095 =
        .ok (sz, PgDir.twoPages, Kernel.growing.mach) :=
      deallocuvm_absent (by decide) (by rw [hrange]; nofun)
    have hsz := (deallocuvm_spec (by decide) hd).1
    rw [if_neg (by decide)] at hsz
    rw [hsz] at hd
    have hresize : resize Kernel.growing.mach (Kernel.growing.proc 0).pgdir (Kernel.growing.proc 0).sz (-1) =
        .ok (4095, PgDir.twoPages, Kernel.growing.mach) := by
      rw [Kernel.proc_growing, resize, if_neg (by decide), if_pos (by decide)]
      exact hd
    have hcall := growproc_of_pos (k := Kernel.growing) (p := 0) (by decide) hresize
    have hbound : (Kernel.growing.proc 0).sz = 4096 := by rw [Kernel.proc_growing]
    refine ⟨_, hcall, ((shrink_all_or_nothing Kernel.growing _ _ _ _ _ []).1 (by decide) (by decide) ?_
      hcall).mpr (Or.inl ?_)⟩
    · rw [hbound]
      decide
    · rw [hbound]
      decide
  · obtain ⟨k0, x, s, hstart, hb⟩ := exists_booted rootFiles 1
    have hrun : Lib.Run (Lib.When KeepsPages Step) k0 [.dispatch 0] (k0.dispatched 0) :=
      .single ⟨trivial, hb.dispatch⟩
    exact ⟨k0, _, hstart, hb.dispatch,
      ((shrink_all_or_nothing k0 _ k0 0 0 true _).2 hstart hrun).1, hb.ready.live⟩

theorem fork_panics {k : Kernel} {p : Fin NPROC} {pte : Pte} (hp : (k.proc p).live)
    (hslot : ∃ np, (k.proc np).state = .unused) (hmem : 1027 ≤ k.mach.kmem.free.card)
    (hsz : 0 < (k.proc p).sz) (hwalk : (k.proc p).pgdir.walk 0 = some pte) (habs : pte.p = false) :
    fork k p = .error (.panic "copyuvm: page not present") := by
  obtain ⟨np, k1, halloc⟩ := allocproc_total hslot (by omega)
  obtain ⟨hun, s, a, hk, hk1⟩ := allocproc_some halloc
  have hne : p ≠ np := by
    rintro rfl
    exact hp hun
  have hproc : k1.proc p = k.proc p := by
    rw [hk1, Kernel.proc_setProc_ne hne]
  have hcard : 1026 ≤ k1.mach.kmem.free.card := by
    rw [free_kalloc hk, Multiset.card_cons] at hmem
    rw [hk1]
    exact Nat.le_of_succ_le_succ hmem
  obtain ⟨d, m, hsetup⟩ := setupkvm_total hcard
  have hcopy : copyuvm k1.mach (k1.proc p).pgdir (k1.proc p).sz =
      .error (.panic "copyuvm: page not present") := by
    refine Lib.bind_eq_error.mpr (Or.inr ⟨_, hsetup, ?_⟩)
    rw [hproc, pagesTo_cons hsz]
    dsimp only
    rw [copyLoop, hwalk]
    dsimp only
    rw [if_pos (by rw [habs]; rfl)]
    rfl
  rw [fork, halloc]
  exact Lib.bind_eq_error.mpr (Or.inl hcopy)

/-- `sbrk(-4096)` of `initproc` returns -1, but its page is gone and the next `fork` panics;
`sbrk(-8192)` returns 0 and changes nothing. -/
theorem shrink_to_nothing : ∃ k0 k k1, k0.Start ∧ Step k0 (.dispatch 0) k ∧ (k.proc 0).sz = 4096 ∧
    ((k.proc 0).pgdir.entry 0).p = true ∧ growproc (k.enter 0) 0 (-4096) = .ok (false, k1) ∧
    Step k (.sbrk 0 (-4096)) (k1.leave 0) ∧ (k1.proc 0).sz = 4096 ∧ ((k1.proc 0).pgdir.entry 0).p = false ∧
    (Act.fork 0).perform (k1.leave 0) = .error (.panic "copyuvm: page not present") ∧
    ∃ k2, growproc (k.enter 0) 0 (-8192) = .ok (true, k2) ∧ (k2.proc 0).sz = 4096 := by
  obtain ⟨k0, x, s, hstart, hb⟩ := exists_booted rootFiles 1
  have hself : (k0.dispatched 0).proc 0 = { k0.proc 0 with state := .running } := Kernel.proc_dispatched_self k0 0
  have hpgdir : ((k0.dispatched 0).proc 0).pgdir = (k0.proc 0).pgdir := by rw [hself]
  have hsz : ((k0.dispatched 0).proc 0).sz = 4096 := by rw [hself, hb.self]
  have hpage : ((k0.proc 0).pgdir.entry 0).p = true := hb.page.present
  have hother : (k0.dispatched 0).proc 1 = Proc.zero :=
    (Kernel.proc_dispatched_ne k0 (by decide)).trans (hb.others 1 (by decide))
  have hcard : 1027 ≤ k0.mach.kmem.free.card := le_trans (by decide) hb.memory
  obtain ⟨sz, d, m, hd⟩ : ∃ sz d m, deallocuvm ((k0.dispatched 0).enter 0).mach (k0.proc 0).pgdir
      4096 0 = .ok (sz, d, m) :=
    deallocuvm_total (by decide) fun v hp hv => hb.freeable.pages v (by omega) hp
  obtain ⟨hzero, hf, hc⟩ := deallocuvm_spec (by decide) hd
  rw [if_neg (by decide)] at hzero
  subst hzero
  have hresize : resize ((k0.dispatched 0).enter 0).mach (((k0.dispatched 0).enter 0).proc 0).pgdir
      (((k0.dispatched 0).enter 0).proc 0).sz (-4096) = .ok (0, d, m) := by
    change resize _ ((k0.dispatched 0).proc 0).pgdir ((k0.dispatched 0).proc 0).sz _ = _
    rw [hpgdir, hsz, resize, if_neg (by decide), if_pos (by decide)]
    exact hd
  have hgone : (d.entry 0).p = false := hc.cleared 0 (mem_deallocRange.mpr (by decide))
  have hwalk : ∃ pte, d.walk 0 = some pte ∧ pte.p = false := by
    have hsome := hc.walks 0
    have hfirst : (k0.proc 0).pgdir.walk 0 = some _ := PgDir.walk_of_present (by decide) hpage
    rw [hfirst] at hsome
    obtain ⟨pte, hpte⟩ := Option.isSome_iff_exists.mp hsome
    refine ⟨pte, hpte, ?_⟩
    rw [← PgDir.entry_of_walk (by decide) hpte]
    exact hgone
  obtain ⟨pte, hpte, habs⟩ := hwalk
  have hcall := growproc_of_zero (k := (k0.dispatched 0).enter 0) (p := 0) (by decide) hresize
  generalize hk1 : Kernel.setProc _ _ _ = k1 at hcall
  have hself1 : k1.proc 0 = { (k0.dispatched 0).proc 0 with pgdir := d } := by
    rw [← hk1, Kernel.proc_setProc_self]
    rfl
  have hother1 : k1.proc 1 = Proc.zero := by
    rw [← hk1, Kernel.proc_setProc_ne (by decide)]
    exact hother
  have hfork : fork ((k1.leave 0).enter 0) 0 = .error (.panic "copyuvm: page not present") := by
    refine fork_panics ?_ ⟨1, ?_⟩ ?_ ?_ ?_ habs
    · change (k1.proc 0).live
      rw [hself1]
      exact hb.ready.live
    · change (k1.proc 1).state = .unused
      rw [hother1]
      rfl
    · change 1027 ≤ k1.mach.kmem.free.card
      rw [← hk1]
      change 1027 ≤ m.kmem.free.card
      rw [hf.free, Multiset.card_add]
      exact Nat.le_add_right_of_le hcard
    · change 0 < (k1.proc 0).sz
      rw [hself1]
      exact hsz ▸ (by decide)
    · change (k1.proc 0).pgdir.walk 0 = _
      rw [hself1]
      exact hpte
  have hwrap : ∃ k2, growproc ((k0.dispatched 0).enter 0) 0 (-8192) = .ok (true, k2) ∧ (k2.proc 0).sz = 4096 := by
    have hsame : resize ((k0.dispatched 0).enter 0).mach (((k0.dispatched 0).enter 0).proc 0).pgdir
        (((k0.dispatched 0).enter 0).proc 0).sz (-8192) =
          .ok (4096, (k0.proc 0).pgdir, ((k0.dispatched 0).enter 0).mach) := by
      change resize _ ((k0.dispatched 0).proc 0).pgdir ((k0.dispatched 0).proc 0).sz _ = _
      rw [hpgdir, hsz, resize, if_neg (by decide), if_pos (by decide), deallocuvm, if_pos (by decide)]
      rfl
    refine ⟨_, growproc_of_pos (by decide) hsame, ?_⟩
    simp [switchuvm]
  refine ⟨k0, _, k1, hstart, hb.dispatch, hsz, by rw [hpgdir]; exact hpage, hcall,
    ⟨⟨hb.ready, by decide, by decide⟩, ?_⟩, ?_, ?_, ?_, hwrap⟩
  · simp only [Act.perform, Kernel.onCpu, hcall]
    rfl
  · rw [hself1]
    exact hsz
  · rw [hself1]
    exact hgone
  · simp only [Act.perform, Kernel.onCpu, hfork]
    rfl

end Xv6
