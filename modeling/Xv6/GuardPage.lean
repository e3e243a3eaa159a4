import Xv6.WritePermission

/-!
The page `exec` puts below the user stack. `clearpteu` closes it to user code but leaves
it writable, and `copyuvm` opens every writable page as it shares it. The first `fork`
turns the guard page into an ordinary copy-on-write page of parent and child; no other
step opens it.
-/

namespace Xv6

variable {e : Pte} {m : Machine} {d : PgDir} {np : Fin NPROC} {ip : Option Nat} {path : List UInt8}
  {argv : List (List UInt8)} {slept : Nat → Bool}

/-- Page `v` lies below `sz`, is there, and is closed to user code. -/
structure Proc.Closed (x : Proc) (v : Nat) : Prop where
  below : v < sizePages x.sz
  present : (x.pgdir.entry v).p = true
  user : (x.pgdir.entry v).u = false

/-- The system with the guard page of every process that was started by a successful
`exec` or descends from one. -/
structure Guards where
  kernel : Kernel
  page : Fin NPROC → Option Nat

def execSucceeds (k : Kernel) (p : Fin NPROC) (ip : Option Nat) (path : List UInt8)
    (argv : List (List UInt8)) (slept : Nat → Bool) : Bool :=
  match exec (k.enter p) p ip path argv slept with
  | .ok (b, _) => b
  | .error _ => false

/-- The guard page of process `q` after step `a` from `k` to `k'`: `exec` sets it, a child
has that of its parent, and it is given up with the process or by a `sbrk` below it. -/
def Guards.after (s : Guards) (a : Act) (k' : Kernel) (q : Fin NPROC) : Option Nat :=
  let k := s.kernel
  if (k'.proc q).state = .unused then none
  else
    match a with
    | .exec p ip path argv slept =>
      if p = q ∧ execSucceeds k p ip path argv slept then some ((k'.proc q).sz / 4096 - 2)
      else s.page q
    | .fork p => if (k.proc q).state = .unused then s.page p else s.page q
    | .sbrk p n =>
      if p = q then
        (s.page q).filter fun v => v ∉ deallocRange (k.proc q).sz (addInt (k.proc q).sz n)
      else s.page q
    | _ => s.page q

def GuardStep (s : Guards) (a : Act) (s' : Guards) : Prop :=
  Step s.kernel a s'.kernel ∧ s'.page = s.after a s'.kernel

theorem Step.guardStep {s : Guards} {a : Act} {k' : Kernel} (h : Step s.kernel a k') :
    GuardStep s a ⟨k', s.after a k'⟩ := ⟨h, rfl⟩

/-- A step that leaves the guard pages alone: no fork of a process whose guard page is
writable, and no `exec` that finds more frames on the free list than there are. -/
def Guards.Spares (s : Guards) : Act → Prop
  | .fork p => ∀ v, s.page p = some v → ((s.kernel.proc p).pgdir.entry v).w = false
  | .exec _ _ _ _ _ => s.kernel.mach.kmem.free.card ≤ 0xE000
  | _ => True

/-- Every guard page is closed, and lies below the mapping window. -/
def Guards.Closed (s : Guards) : Prop :=
  ∀ q v, s.page q = some v → (s.kernel.proc q).live ∧ (s.kernel.proc q).Closed v ∧ v < 0x60000

section
variable {k k' : Kernel} {p q : Fin NPROC} {v : Nat} {a : Act} {x y : Proc}

theorem Proc.Closed.of_entry (h : x.Closed v) (he : y.pgdir.entry v = x.pgdir.entry v)
    (hsz : v < sizePages y.sz) : y.Closed v :=
  ⟨hsz, by rw [he]; exact h.present, by rw [he]; exact h.user⟩

theorem PteStep.closed (hx : x.Closed v) (hv : v < 0x60000) (h : PteStep x q v a e)
    (hfork : a = .fork q → (x.pgdir.entry v).w = false)
    (hsbrk : ∀ n, a = .sbrk q n → v ∉ deallocRange x.sz (addInt x.sz n)) : e = x.pgdir.entry v := by
  cases h with
  | kept => rfl
  | shared ha _ => exact Pte.share_of_not_writable (hfork ha)
  | grown _ hle _ _ => exact absurd hx.below (by omega)
  | shrunk ha hmem _ => exact absurd hmem (hsbrk _ ha)
  | unmapped _ _ hle _ _ => omega
  | loaded _ hle _ _ => omega
  | copied _ _ _ hu _ =>
    rw [hx.user] at hu
    cases hu

theorem SpaceStep.closed (hx : x.Closed v) (hv : v < 0x60000) (h : SpaceStep x q a y)
    (hfork : a = .fork q → (x.pgdir.entry v).w = false)
    (hsbrk : ∀ n, a = .sbrk q n → v ∉ deallocRange x.sz (addInt x.sz n)) : y.Closed v := by
  refine hx.of_entry ((h.pages v).closed hx hv hfork hsbrk) ?_
  rcases h.size hx.below with hlt | ⟨n, ha, hmem⟩
  · exact hlt
  · exact absurd hmem (hsbrk n ha)

theorem Replaced.closed {sz : Nat} {xs : List Frame} (h : Replaced k p k' m d sz xs)
    (hmem : k.mach.kmem.free.card ≤ 0xE000) :
    (k'.proc p).Closed ((k'.proc p).sz / 4096 - 2) ∧ (k'.proc p).sz / 4096 - 2 < 0x60000 := by
  obtain ⟨name, tf, heq⟩ := h.eq
  have hself : k'.proc p = { k.proc p with name := name, pgdir := d, sz := sz, tf := tf } := by
    rw [heq, Kernel.proc_setProc_self]
  have hroom := h.guard.room
  have hcard := congrArg Multiset.card h.built.free
  have hpages : sz / 4096 - 2 < sizePages sz := by
    unfold sizePages pagesTo
    omega
  have hlen := h.length
  simp only [Multiset.card_add, Multiset.coe_card] at hcard
  rw [hself]
  exact ⟨⟨hpages, h.guard.present, h.guard.user⟩, by dsimp only; omega⟩

theorem Forked.closed {s : Frame} {km : Kmem} {done : List Nat} (h : Forked k p np k' s km m d done)
    (hsz : (k.proc p).sz < 0x80000000) (hx : (k.proc p).Closed v)
    (hw : ((k.proc p).pgdir.entry v).w = false) : (k'.proc np).Closed v := by
  obtain ⟨hsz', he⟩ := h.child_entry hsz hx.below
  refine hx.of_entry (he.trans (Pte.share_of_not_writable hw)) ?_
  rw [hsz']
  exact hx.below

variable {s s' : Guards}

theorem execSucceeds_of_ok {b : Bool} {k1 : Kernel}
    (h : exec (k.enter p) p ip path argv slept = .ok (b, k1)) :
    execSucceeds k p ip path argv slept = b := by
  rw [execSucceeds, h]

theorem Guards.Closed.after_exec (hc : s.Closed) (hmem : s.kernel.mach.kmem.free.card ≤ 0xE000)
    (h : GuardStep s (.exec p ip path argv slept) s') (hq : (s'.kernel.proc q).live)
    (hg : s'.page q = some v) : (s'.kernel.proc q).Closed v ∧ v < 0x60000 := by
  obtain ⟨b, k1, hexec, hk⟩ : ∃ b k1, exec (s.kernel.enter p) p ip path argv slept = .ok (b, k1) ∧
      s'.kernel = k1.leave p := by
    have hperf := perform_ok h.1.2
    generalize s'.kernel = k' at hperf
    cases hperf with
    | exec hexec => exact ⟨_, _, hexec, rfl⟩
  rw [h.2, Guards.after, if_neg hq, execSucceeds_of_ok hexec] at hg
  rw [hk] at hg ⊢
  rcases exec_spec hexec with ⟨rfl, heq, -⟩ | ⟨rfl, m, d, sz, xs, hr⟩
  · rw [if_neg (by simp)] at hg
    have hsame : (k1.leave p).proc q = s.kernel.proc q := by
      show k1.proc q = _
      rw [heq]
      rfl
    rw [hsame]
    exact (hc q v hg).2
  · by_cases hpq : p = q
    · subst hpq
      rw [if_pos ⟨rfl, rfl⟩] at hg
      cases hg
      exact hr.closed hmem
    · rw [if_neg (by simp [hpq])] at hg
      have hsame : (k1.leave p).proc q = s.kernel.proc q := by
        obtain ⟨name, tf, heq⟩ := hr.eq
        show k1.proc q = _
        rw [heq, Kernel.proc_setProc_ne (Ne.symm hpq)]
        rfl
      rw [hsame]
      exact (hc q v hg).2

theorem Guards.Closed.after_fork (hs : s.kernel.Sane) (hc : s.Closed)
    (hw : ∀ v, s.page p = some v → ((s.kernel.proc p).pgdir.entry v).w = false)
    (h : GuardStep s (.fork p) s') (hq : (s'.kernel.proc q).live) (hg : s'.page q = some v) :
    (s'.kernel.proc q).Closed v ∧ v < 0x60000 := by
  rw [h.2, Guards.after, if_neg hq] at hg
  cases step_slot hs h.1 q hq with
  | stays hlive hspace =>
    rw [if_neg hlive] at hg
    obtain ⟨-, hx, hv⟩ := hc q v hg
    refine ⟨hspace.closed hx hv (fun ha => ?_) (fun n ha => by cases ha), hv⟩
    cases ha
    exact hw v hg
  | replaced ha _ _ _ => cases ha
  | born ha hp hf hk =>
    cases ha
    rw [if_pos (show (s.kernel.proc q).state = .unused from hf.unused)] at hg
    obtain ⟨-, hx, hv⟩ := hc p v hg
    rw [hk]
    exact ⟨hf.closed ((hs p).size hp) hx (hw v hg), hv⟩

theorem GuardStep.closed (hs : s.kernel.Sane) (hc : s.Closed) (hspare : s.Spares a)
    (h : GuardStep s a s') : s'.Closed := by
  intro q v hg
  have hq : (s'.kernel.proc q).live := by
    intro hun
    rw [h.2] at hg
    unfold Guards.after at hg
    rw [if_pos hun] at hg
    cases hg
  refine ⟨hq, ?_⟩
  -- the step is neither `fork` nor `exec`, and no `sbrk` of `q` below its guard page
  have stays : (∀ p, a ≠ .fork p) → (∀ p ip path argv slept, a ≠ .exec p ip path argv slept) →
      (∀ n, a = .sbrk q n →
        v ∉ deallocRange (s.kernel.proc q).sz (addInt (s.kernel.proc q).sz n)) →
      s.page q = some v → (s'.kernel.proc q).Closed v ∧ v < 0x60000 := by
    intro hfork hexec hsbrk hg
    obtain ⟨-, hx, hv⟩ := hc q v hg
    cases step_slot hs h.1 q hq with
    | stays _ hspace => exact ⟨hspace.closed hx hv (fun ha => (hfork q ha).elim) hsbrk, hv⟩
    | replaced ha _ _ _ => exact (hexec _ _ _ _ _ ha).elim
    | born ha _ _ _ => exact (hfork _ ha).elim
  cases a with
  | fork p => exact hc.after_fork hs hspare h hq hg
  | exec p ip path argv slept => exact hc.after_exec hspare h hq hg
  | sbrk p n =>
    rw [h.2, Guards.after, if_neg hq] at hg
    split at hg
    · rename_i hp
      obtain ⟨hg, hv⟩ := Option.filter_eq_some_iff.mp hg
      refine stays (by simp) (by simp) (fun n' ha => ?_) hg
      cases ha
      simpa using hv
    · rename_i hp
      refine stays (by simp) (by simp) (fun n' ha => ?_) hg
      cases ha
      exact (hp rfl).elim
  | _ =>
    rw [h.2] at hg
    unfold Guards.after at hg
    rw [if_neg hq] at hg
    exact stays (by simp) (by simp) (by simp) hg

theorem Pte.share_user (h : e.w = true) : e.share.u = true := by
  simp [Pte.share, h]

/-- A successful `fork` keeps the guard page closed exactly when it was not writable. -/
theorem fork_closed_iff (hs : s.kernel.Sane) (hx : (s.kernel.proc p).Closed v)
    (h : Step s.kernel (.fork p) k') (hnew : ¬ (s.kernel.proc np).live) (hlive : (k'.proc np).live) :
    ((k'.proc p).Closed v ∧ (k'.proc np).Closed v) ↔
      ((s.kernel.proc p).pgdir.entry v).w = false := by
  cases step_slot hs h np hlive with
  | stays hnp _ => exact (hnew hnp).elim
  | replaced ha _ _ _ => cases ha
  | @born _ k1 _ _ _ _ _ ha hp hf hk =>
    cases ha
    have hparent : (k'.proc p).pgdir.entry v = ((s.kernel.proc p).pgdir.entry v).share := by
      rw [hk]
      show (k1.proc p).pgdir.entry v = _
      exact (hf.copy.parent v).trans (if_pos hx.below)
    have hsz : (k'.proc p).sz = (s.kernel.proc p).sz := by
      rw [hk]
      show (k1.proc p).sz = _
      rw [hf.parent]
      rfl
    constructor
    · rintro ⟨hclosed, -⟩
      by_contra hw
      have huser := hclosed.user
      rw [hparent, Pte.share_user (by simpa using hw)] at huser
      cases huser
    · intro hw
      refine ⟨hx.of_entry (hparent.trans (Pte.share_of_not_writable hw)) ?_, ?_⟩
      · rw [hsz]
        exact hx.below
      · rw [hk]
        exact hf.closed ((hs p).size hp) hx hw

end

/-- Guard pages stay closed in every run in which no process with a writable guard page
forks; a fork of such a process opens it. -/
theorem guard_page_closed {k0 : Kernel} {s : Guards} {as : List Act} (h0 : k0.Start)
    (h : Lib.Run (Lib.When Guards.Spares GuardStep) ⟨k0, fun _ => none⟩ as s) :
    (∀ q v, s.page q = some v → (s.kernel.proc q).Closed v) ∧
    ∀ p np v k', s.page p = some v → Step s.kernel (.fork p) k' → ¬ (s.kernel.proc np).live →
      (k'.proc np).live → (((k'.proc p).Closed v ∧ (k'.proc np).Closed v) ↔
        ((s.kernel.proc p).pgdir.entry v).w = false) := by
  have hinv := h.invariant (fun s => s.kernel.Sane ∧ s.Closed)
    ⟨h0.sane, fun q v hg => by cases hg⟩ fun s a s' hk hstep =>
      ⟨step_sane hk.1 hstep.2.1, hstep.2.closed hk.1 hk.2 hstep.1⟩
  refine ⟨fun q v hg => (hinv.2 q v hg).2.1, fun p np v k' hg hfork hnew hlive => ?_⟩
  exact fork_closed_iff hinv.1 (hinv.2 p v hg).2.1 hfork hnew hlive

theorem Launch.guards {k0 k : Kernel} (h : Launch k0 k) : ∃ g, g 0 = some 1 ∧
    Lib.Run (Lib.When Guards.Spares GuardStep) ⟨k0, fun _ => none⟩
      [.dispatch 0, .exec 0 (some 2) [] [] fun _ => false] ⟨k.leave 0, g⟩ := by
  have hdispatch := Step.guardStep (s := ⟨k0, fun _ => none⟩) (step_dispatch h.runnable)
  generalize (⟨k0, fun _ => none⟩ : Guards).after (.dispatch 0) (k0.dispatched 0) = g at hdispatch
  have hexec := Step.guardStep (s := ⟨k0.dispatched 0, g⟩) (step_exec h.ready h.exec)
  have hspares : (⟨k0.dispatched 0, g⟩ : Guards).Spares
      (.exec 0 (some 2) [] [] fun _ => false) := h.memory
  refine ⟨_, ?_, (Lib.Run.single ⟨trivial, hdispatch⟩).snoc ⟨hspares, hexec⟩⟩
  have hlive : ((k.leave 0).proc 0).state ≠ .unused := by
    rw [h.launched.state]
    decide
  rw [Guards.after, if_neg hlive, if_pos ⟨rfl, execSucceeds_of_ok h.exec⟩, h.launched.size]

theorem guard_page_closed_after_exec :
    ∃ k0 s, k0.Start ∧ Lib.Run (Lib.When Guards.Spares GuardStep) ⟨k0, fun _ => none⟩
      [.dispatch 0, .exec 0 (some 2) [] [] fun _ => false] s ∧
      s.page 0 = some 1 ∧ (s.kernel.proc 0).Closed 1 := by
  obtain ⟨k0, k, h⟩ := exists_launch
  obtain ⟨g, hg, hrun⟩ := h.guards
  exact ⟨k0, _, h.start, hrun, hg, (guard_page_closed h.start hrun).1 0 1 hg⟩

/-- After its first `fork`, user code of the program and of its child can reach the page
below the stack. -/
theorem guard_page_opened_by_fork :
    ∃ k0 s np, k0.Start ∧ Lib.Run GuardStep ⟨k0, fun _ => none⟩
      [.dispatch 0, .exec 0 (some 2) [] [] fun _ => false, .fork 0] s ∧
      s.page 0 = some 1 ∧ s.page np = some 1 ∧ np ≠ 0 ∧
      ((s.kernel.proc 0).pgdir.entry 1).u = true ∧ ((s.kernel.proc np).pgdir.entry 1).u = true := by
  obtain ⟨k0, k, h⟩ := exists_launch
  obtain ⟨g, hg, hrun⟩ := h.guards
  have hl := h.launched
  obtain ⟨np, k1, f, a, m, d, done, hfork, hf⟩ := step_forked ⟨hl.state, hl.ready⟩ hl.forkable
  have hpage : 1 < sizePages ((k.leave 0).proc 0).sz := by
    rw [hl.size]
    decide
  have hopen : (((k.leave 0).proc 0).pgdir.entry 1).share.u = true :=
    Pte.share_user hl.guard.writable
  have hstate : ((k1.leave 0).proc 0).state ≠ .unused := by
    show (k1.proc 0).state ≠ _
    rw [hf.parent]
    show ((k.leave 0).proc 0).state ≠ _
    rw [hl.state]
    decide
  have hchild : ((k1.leave 0).proc np).state ≠ .unused := by
    obtain ⟨ofile, cwd, name, hchild⟩ := hf.child
    show (k1.proc np).state ≠ _
    rw [hchild]
    simp
  have hold : ((k.leave 0).proc 0).state ≠ .unused := by
    rw [hl.state]
    decide
  have hnew : ((k.leave 0).proc np).state = .unused := hf.unused
  have hbound : ((k.leave 0).proc 0).sz < 0x80000000 := by
    rw [hl.size]
    decide
  refine ⟨k0, ⟨k1.leave 0, _⟩, np, h.start, (hrun.mono fun _ _ _ hs => hs.2).snoc
    (Step.guardStep hfork), ?_, ?_, hf.ne, ?_, ?_⟩
  · dsimp only
    rw [Guards.after, if_neg hstate, if_neg hold]
    exact hg
  · dsimp only
    rw [Guards.after, if_neg hchild, if_pos hnew]
    exact hg
  · rw [show ((k1.leave 0).proc 0).pgdir.entry 1 = _ from
      (hf.copy.parent 1).trans (if_pos hpage)]
    exact hopen
  · show ((k1.proc np).pgdir.entry 1).u = true
    rw [(hf.child_entry hbound hpage).2]
    exact hopen

end Xv6
