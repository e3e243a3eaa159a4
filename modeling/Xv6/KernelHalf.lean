import Xv6.PageSteps
import Xv6.Launch
import Xv6.Lib.Run

/-!
The kernel half of every address space is the one `kmap` prescribes. No step writes an
entry there: the ranges that `wmap` accepts beyond the user half never reach a page
table, because the loops over them stay inside the window or do not end.
-/

namespace Xv6

section
variable {k k' k1 : Kernel} {p q : Fin NPROC} {a : Act}

theorem PteStep.kernel {x : Proc} {v : Nat} {e : Pte} (hsz : x.sz < 0x80000000)
    (hv : 0x80000 ≤ v) (h : PteStep x q v a e) : e = x.pgdir.entry v := by
  cases h with
  | kept => rfl
  | shared _ hlt =>
    have := sizePages_lt hsz
    omega
  | grown _ _ hlt _ => omega
  | shrunk _ hmem _ =>
    have := deallocRange_lt (by omega) hmem
    omega
  | unmapped _ _ _ hlt _ => omega
  | loaded _ _ hlt _ => omega
  | copied _ hlt _ _ _ =>
    have := sizePages_lt hsz
    omega

theorem Resized.image {m m' : Machine} {d d' : PgDir} {sz newsz sz' : Nat}
    (h : Resized m d sz newsz m' d' sz') : m'.image = m.image := by
  cases h with
  | same => rfl
  | grown _ _ _ hg => exact hg.image
  | abandoned _ _ _ ha => exact ha.image.trans ha.grown.image
  | shrunk _ hf _ _ => exact hf.image

theorem CowResolved.image {m m' : Machine} {d d' : PgDir} {v : Nat} {pa : Frame}
    {refCount : Nat} {b : Bool} (h : CowResolved m d v pa refCount b d' m') :
    m'.image = m.image := by
  cases h with
  | upgraded _ _ => rfl
  | starved _ _ => rfl
  | copied _ _ _ =>
    simp only [Machine.lcr3, Machine.setCount, Machine.decCount]
    split <;> rfl

theorem fork_image {r : Option Nat} (hs : k.Sane) (hp : (k.proc p).live)
    (h : fork k p = .ok (r, k')) : k'.mach.image = k.mach.image := by
  rcases fork_spec hp (le_of_lt ((hs p).size hp)) ((hs p).wmap hp) h with
    ⟨-, rfl | ⟨np, -, -, hk⟩⟩ | ⟨-, np, s, a, m, j, t, hf⟩ |
    ⟨-, np, s, a, a1, m, d, d1, done, hf⟩ | ⟨-, np, s, a, m, d, done, hf⟩
  · rfl
  · rw [hk]
    rfl
  · exact hf.freed.image.trans hf.copy.image
  · exact hf.freed.image.trans hf.copy.image
  · rw [hf.mach]
    exact hf.copy.image

theorem Exited.image {done : List Nat} (h : Exited k p k' done k1) :
    k'.mach.image = k.mach.image :=
  h.lowered.image.trans h.unmapped.freed.image

theorem leaveTrap_image {user back : Bool} (hs : k.Sane) (hp : (k.proc p).live)
    (h : leaveTrap k p user = .ok (back, k')) : k'.mach.image = k.mach.image := by
  rcases leaveTrap_cases h with ⟨-, -, -, he⟩ | ⟨-, -, rfl⟩
  · obtain ⟨done, k1, he⟩ := exit_spec ((hs p).wmap hp) he
    exact he.image
  · rfl

theorem pageFault_image {va : Nat} (hs : k.Sane) (hlive : (k.proc p).live)
    (hva : va < 0x100000000) (h : pageFault k p va = .ok k') :
    k'.mach.image = k.mach.image := by
  have killed : ∀ (b : Bool) (k1 : Kernel), (if b then k1 else setKilled k1 p).mach = k1.mach := by
    intro b k1
    cases b <;> rfl
  rcases pageFault_cases h with
    ⟨-, b, k1, hc, rfl⟩ | ⟨-, -, -, rfl⟩ | ⟨hlo, hhi, i, b, k1, -, ha, rfl⟩
  · rw [killed]
    rcases handleCowFault_spec k p hva with ⟨hr, -⟩ | ⟨pa, rc, b', d, m, -, hres, hr⟩
    · rw [hr] at hc
      cases hc
      rfl
    · rw [hr] at hc
      cases hc
      exact hres.image
  · rfl
  · rw [killed]
    rcases allocateAndMap_spec hlo hhi ((hs p).base hlive) ha with
      ⟨-, -, rfl⟩ | ⟨-, -, k2, done, hr⟩ | ⟨-, -, x, km, hu⟩ | ⟨-, -, x, km, hl⟩
    · rfl
    · exact hr.unmapped.freed.image.trans hr.starved.image
    · rw [hu.eq]
    · rw [hl.eq]
      rfl

theorem step_image (hs : k.Sane) (h : Step k a k') : k'.mach.image = k.mach.image := by
  obtain ⟨hen, h⟩ := h
  cases perform_ok h with
  | dispatch => rfl
  | yield => rfl
  | @fork p _ _ hf =>
    have hready : k.ready p := hen
    have himage := fork_image (hs.enter p) hready.live hf
    exact himage
  | @exec p _ _ _ _ _ k1 hf =>
    rcases exec_spec hf with ⟨-, -, hfail⟩ | ⟨-, m, d, sz, xs, hr⟩
    · exact hfail.image
    · exact hr.freed.image.trans hr.built.image
  | @exit p _ hf =>
    have hready : k.ready p := hen
    obtain ⟨done, k2, he⟩ := exit_spec (k := k.enter p) ((hs p).wmap hready.live) hf
    exact he.image
  | @wait p _ k1 hf =>
    rcases wait_spec hf with rfl | ⟨r, s, -, -, -, hf, -⟩
    · rfl
    · exact hf.image
  | @sbrk p n b k1 hf =>
    obtain ⟨hready, hlo, hhi⟩ := hen
    obtain ⟨m, d, sz, hr, hk⟩ := growproc_spec (k := k.enter p) ((hs p).size hready.live) hlo hhi hf
    show k1.mach.image = _
    rw [hk]
    cases b
    · exact hr.image
    · exact hr.image
  | @wmap p _ _ _ _ _ k1 hf =>
    rcases sysWmap_cases hf with ⟨-, rfl⟩ | ⟨-, -, -, -, -, -, hf⟩
    · rfl
    · obtain ⟨hk, -⟩ := wmap_spec hf
      show k1.mach.image = _
      rw [hk]
      rfl
  | @wunmap p addr _ k1 hf =>
    unfold sysWunmap at hf
    split at hf
    · cases hf
      rfl
    · obtain ⟨done, hu, -⟩ := wunmap_spec (k := k.enter p)
        ((hs p).wmap (show k.ready p from hen.1).live) hf
      exact hu.freed.image
  | @fault p va write user _ k1 k2 hf hl =>
    obtain ⟨hready, hva, -⟩ := hen
    have hs1 := sane_pageFault (hs.enter p) hready.live hready.2 hva hf
    have hst := (pageFault_resolves write user hva ((hs.enter p p).base hready.live) hf).1
    have hlive1 : (k1.proc p).live := by
      unfold Proc.live
      rw [hst]
      exact hready.live
    exact (leaveTrap_image hs1 hlive1 hl).trans
      (pageFault_image (k := k.enter p) (hs.enter p) hready.live hva hf)
  | cowRead _ => rfl
  | @cowResolve p user va pa refCount b d m back k1 hf hres hl =>
    obtain ⟨hp, hva, b', d', m', hres', hspec⟩ := hs.resolve hf (k.enter p).mach
    rw [hres] at hres'
    cases hres'
    refine (leaveTrap_image (hspec.sane_cowDone (hs.enter p) hp hva)
      (by rw [proc_cowDone]; exact hp) hl).trans ?_
    have hmach : ((k.enter p).cowDone p b d m).mach = m := by cases b <;> rfl
    rw [hmach]
    exact hspec.image
  | store _ => rfl
  | files => rfl

def Kernel.MapsKernel (k : Kernel) : Prop :=
  ∀ q, (k.proc q).live → (k.proc q).pgdir.MapsKernel k.mach.image

theorem step_mapsKernel (hs : k.Sane) (hk : k.MapsKernel) (h : Step k a k') : k'.MapsKernel := by
  intro q hlive
  rw [step_image hs h]
  cases step_slot hs h q hlive with
  | stays hq hstep =>
    exact (hk q hq).congr fun v hv => (hstep.pages v).kernel ((hs q).size hq) hv
  | @replaced _ _ _ _ k1 m d sz xs _ hq hr hk' =>
    obtain ⟨name, tf, heq⟩ := hr.eq
    have hd : (k'.proc q).pgdir = d := by
      rw [hk']
      show (k1.proc q).pgdir = d
      rw [heq, Kernel.proc_setProc_self]
    rw [hd]
    exact hr.built.kernel
  | @born p k1 s km m d done _ hp hf hk' =>
    have hd : (k'.proc q).pgdir = (k1.proc q).pgdir := by
      rw [hk']
      rfl
    rw [hd]
    refine PgDir.MapsKernel.congr hf.copy.kernel fun v hv => ?_
    rw [hf.inherited.entry, if_neg]
    intro hmem
    obtain ⟨i, hi, hmem⟩ := hf.pages v hmem
    have := (((hs p).wmap hp i hi).pages_window hmem).2
    omega

theorem Kernel.Start.mapsKernel (h : k.Start) : k.MapsKernel := by
  obtain ⟨image, freelist, fs, root, initcode, -, -, hlen, hb⟩ := h
  obtain ⟨x, s, hb⟩ := boot_spec hlen hb
  intro q hlive
  by_cases hq : q = 0
  · subst hq
    exact hb.space.kernel
  · rw [hb.others q hq] at hlive
    exact (hlive rfl).elim

theorem run_sane {k0 : Kernel} {as : List Act} (h0 : k0.Sane) (h : Lib.Run Step k0 as k) : k.Sane :=
  h.invariant Kernel.Sane h0 fun _ _ _ hs hstep => step_sane hs hstep

end

/-- In every state that can be reached, every process translates the addresses of the
kernel as `kmap` prescribes, and none of them is open to user code. -/
theorem kernel_half_kept {k0 k : Kernel} {as : List Act} (h0 : k0.Start)
    (h : Lib.Run Step k0 as k) (q : Fin NPROC) (hlive : (k.proc q).live) (va : Nat)
    (hlo : 0x80000000 ≤ va) (hhi : va < 0x100000000) :
    (k.proc q).pgdir.entry (va / 4096) = kernelPte k.mach.image (va / 4096) ∧
      ((k.proc q).pgdir.entry (va / 4096)).u = false := by
  have hinv := h.invariant (fun k => k.Sane ∧ k.MapsKernel) ⟨h0.sane, h0.mapsKernel⟩
    fun _ _ _ hk hstep => ⟨step_sane hk.1 hstep, step_mapsKernel hk.1 hk.2 hstep⟩
  have he := hinv.2 q hlive (va / 4096) (by omega) (by omega)
  exact ⟨he, by rw [he]; exact kernelPte_user _ _⟩

/-- The first process of a machine, once the scheduler has chosen it. -/
theorem kernel_half_kept_init :
    ∃ k0 k, k0.Start ∧ Lib.Run Step k0 [.dispatch 0] k ∧ (k.proc 0).live ∧
      (k.proc 0).pgdir.entry 0x80000 = Pte.make 0 { w := true } ∧
      ((k.proc 0).pgdir.entry 0x80000).u = false := by
  obtain ⟨k0, x, s, hstart, hb⟩ := exists_booted rootFiles 1
  have hrun := Lib.Run.single hb.dispatch
  obtain ⟨he, hu⟩ := kernel_half_kept hstart hrun 0 hb.ready.live 0x80000000 (by decide) (by decide)
  exact ⟨k0, _, hstart, hrun, hb.ready.live, he.trans (kernelPte_base _), hu⟩

/-- `va2pa(va)` of process `p`; none is FAILED. -/
def va2pa (k : Kernel) (p : Fin NPROC) (va : Nat) : Except Halt (Option Nat) :=
  match (k.proc p).pgdir.walk va with
  | none => pure none
  | some pte =>
    if pte.p = false then pure none
    else if pte.ppn = 0 then throw (.panic "kfree")
    else pure (some (pte.ppn * 4096 + va % 4096))

/-- In every state that can be reached, `va2pa` of an address in the first page of the kernel
panics, whichever process asks. -/
theorem va2pa_panics {k0 k : Kernel} {as : List Act} (h0 : k0.Start) (h : Lib.Run Step k0 as k)
    (q : Fin NPROC) (hlive : (k.proc q).live) (va : Nat) (hva : va / 4096 = 0x80000) :
    va2pa k q va = .error (.panic "kfree") := by
  obtain ⟨hp, hppn⟩ := (run_sane h0.sane h q).base hlive
  rw [← hva] at hp hppn
  rw [va2pa, PgDir.walk_of_present (by omega) hp]
  dsimp only
  rw [hp, if_neg (by decide), if_pos hppn]
  rfl

theorem va2pa_panics_init : ∃ k0 k, k0.Start ∧ Lib.Run Step k0 [.dispatch 0] k ∧
    va2pa k 0 0x80000000 = .error (.panic "kfree") := by
  obtain ⟨k0, x, s, hstart, hb⟩ := exists_booted rootFiles 1
  have hrun := Lib.Run.single hb.dispatch
  exact ⟨k0, _, hstart, hrun, va2pa_panics hstart hrun 0 hb.ready.live _ (by decide)⟩

end Xv6
