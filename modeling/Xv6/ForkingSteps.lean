import Xv6.Forking

/-!
The steps of a call of `fork` keep the invariant, when the caller has no mappings. Each
changes the slot of the child, which no other call is about while the child is an embryo.
-/

namespace Xv6

open Function Kernel

section
variable {s s' : Forking} {k k' : Kernel} {p q np : Fin NPROC} {pc : ForkPc}

/-- A step of a call of `fork` by process `p`. It changes at most `p`, its child, and slots
that no other call is about. -/
theorem Forking.Inv.of_fork {pc : Option ForkPc} {origin : Fin NPROC → Option Proc} (h : s.Inv)
    (hready : s.kernel.ready p)
    (hparent : k'.proc p = { s.kernel.proc p with pgdir := (k'.proc p).pgdir })
    (hwhole : ∀ r, r ≠ p → (k'.proc r).live → (k'.proc r).state ≠ .embryo → (k'.proc r).Whole)
    (hbusy : ∀ r, r ≠ p → s.pc r ≠ none → k'.proc r = s.kernel.proc r)
    (hsafe : (Forking.holding ⟨k'.leave p, update s.pc p pc, origin⟩).Safe)
    (hat : ∀ c, pc = some c → k'.AtPc p c)
    (hkept : ∀ r c, r ≠ p → s.pc r = some c → c.unborn = true →
      k'.proc c.child = s.kernel.proc c.child)
    (hnew : ∀ c, pc = some c → c.unborn = true → ∀ r c', r ≠ p → s.pc r = some c' →
      c'.unborn = true → c'.child ≠ c.child)
    (hbare : ∀ r x, origin r = some x → x.Bare ∧ (k'.proc r).wmap.total = 0 ∧
      (k'.proc r).wmap.active = ∅) :
    Forking.Inv ⟨k'.leave p, update s.pc p pc, origin⟩ := by
  have hself : (k'.proc p).live ∧ (k'.proc p).state ≠ .embryo := by
    rw [hparent]
    exact ⟨hready.live, hready.not_embryo⟩
  refine ⟨fun r hl he => ?_, hsafe, fun r hr => ?_, fun r c hc => ?_,
    fun r r' c c' hc hc' hu hu' hcc => ?_, hbare⟩
  · by_cases hrp : r = p
    · subst hrp
      obtain ⟨h1, h2, h3⟩ := h.whole r hready.live hready.not_embryo
      show (k'.proc r).Whole
      rw [hparent]
      exact ⟨h1, h2, h3⟩
    · exact hwhole r hrp hl he
  · change update s.pc p pc r ≠ none at hr
    show (k'.proc r).live ∧ (k'.proc r).state ≠ .embryo
    by_cases hrp : r = p
    · subst hrp
      exact hself
    · rw [update_of_ne hrp] at hr
      rw [hbusy r hrp hr]
      exact h.busy r hr
  · change update s.pc p pc r = some c at hc
    show k'.AtPc r c
    by_cases hrp : r = p
    · subst hrp
      rw [update_self] at hc
      exact hat c hc
    · rw [update_of_ne hrp] at hc
      refine (h.at_pc r c hc).congr (fun hu => hkept r c hrp hc hu) ?_
      rw [hbusy r hrp (by rw [hc]; simp)]
  · change update s.pc p pc r = some c at hc
    change update s.pc p pc r' = some c' at hc'
    by_cases hrp : r = p
    · subst hrp
      rw [update_self] at hc
      by_contra hne
      rw [update_of_ne (Ne.symm hne)] at hc'
      exact hnew c hc hu r' c' (Ne.symm hne) hc' hu' hcc.symm
    · rw [update_of_ne hrp] at hc
      by_cases hrp' : r' = p
      · subst hrp'
        rw [update_self] at hc'
        exact (hnew c' hc' hu' r c hrp hc hu hcc).elim
      · rw [update_of_ne hrp'] at hc'
        exact h.unique r r' c c' hc hc' hu hu' hcc

/-- The stacks of processes other than `np` when the call moves on from or to `giveUp`. -/
theorem Forking.stack_other {pc : Option ForkPc} {origin : Fin NPROC → Option Proc}
    {r : Fin NPROC} (hlive : (k'.proc r).live ↔ (s.kernel.proc r).live)
    (hstack : (k'.proc r).kstack = (s.kernel.proc r).kstack)
    (hold : s.pc p ≠ some (.giveUp r)) (hnew : pc ≠ some (.giveUp r)) :
    Forking.stack ⟨k'.leave p, update s.pc p pc, origin⟩ r = s.stack r := by
  refine stack_congr hlive hstack (forall_congr' fun r' => ?_)
  change update s.pc p pc r' ≠ _ ↔ _
  by_cases hr : r' = p
  · subst hr
    rw [update_self]
    exact iff_of_true hnew hold
  · rw [update_of_ne hr]

theorem Forking.Inv.goto {pc : Option ForkPc} (h : s.Inv) (hready : s.kernel.ready p)
    (hfree : ∀ r, s.pc p ≠ some (.giveUp r)) (hfree' : ∀ r, pc ≠ some (.giveUp r))
    (hat : ∀ c, pc = some c → c.unborn = false ∧ s.kernel.AtPc p c) :
    Forking.Inv ⟨(s.kernel.enter p).leave p, update s.pc p pc, s.origin⟩ := by
  refine h.of_fork hready rfl (fun r _ => h.whole r) (fun _ _ _ => rfl) ?_
    (fun c hc => (hat c hc).2) (fun _ _ _ _ _ => rfl)
    (fun c hc hu => absurd ((hat c hc).1.symm.trans hu) (by decide)) h.bare
  exact safe_of_le h.safe (pool_le_of_same rfl fun r => stack_other Iff.rfl rfl (hfree r) (hfree' r))
    fun r x hr => refs_of_eq hr rfl

/-- A step that changes the slot `np`, which is unused or an embryo of this call. -/
theorem Forking.Inv.of_child (np : Fin NPROC) {pc : Option ForkPc}
    {origin : Fin NPROC → Option Proc} (h : s.Inv) (hready : s.kernel.ready p)
    (hother : ∀ r, r ≠ p → r ≠ np → k'.proc r = s.kernel.proc r)
    (hparent : k'.proc p = { s.kernel.proc p with pgdir := (k'.proc p).pgdir })
    (hnp : (s.kernel.proc np).live → (s.kernel.proc np).state = .embryo)
    (hnot : ∀ r c, r ≠ p → s.pc r = some c → c.unborn = true → c.child ≠ np)
    (hwhole : (k'.proc np).live → (k'.proc np).state ≠ .embryo → (k'.proc np).Whole)
    (hsafe : (Forking.holding ⟨k'.leave p, update s.pc p pc, origin⟩).Safe)
    (hat : ∀ c, pc = some c → k'.AtPc p c)
    (hchild : ∀ c, pc = some c → c.unborn = true → c.child = np)
    (hbare : ∀ r x, origin r = some x → x.Bare ∧ (k'.proc r).wmap.total = 0 ∧
      (k'.proc r).wmap.active = ∅) :
    Forking.Inv ⟨k'.leave p, update s.pc p pc, origin⟩ := by
  refine h.of_fork hready hparent (fun r hrp hl he => ?_) (fun r hrp hr => ?_) hsafe hat
    (fun r c hrp hc hu => ?_) (fun c hc hu r c' hrp hc' hu' => ?_) hbare
  · by_cases hrn : r = np
    · subst hrn
      exact hwhole hl he
    · rw [hother r hrp hrn] at hl he ⊢
      exact h.whole r hl he
  · refine hother r hrp ?_
    rintro rfl
    exact (h.busy r hr).2 (hnp (h.busy r hr).1)
  · refine hother _ ?_ (hnot r c hrp hc hu)
    intro hcp
    have hemb := (h.at_pc r c hc).embryo hu
    rw [hcp, hready.1] at hemb
    cases hemb
  · rw [hchild c hc hu]
    exact hnot r c' hrp hc' hu'

theorem Forking.Inv.child_ne {c : ForkPc} (h : s.Inv) (hc : s.pc p = some c)
    (hu : c.unborn = true) (r : Fin NPROC) (c' : ForkPc) (hr : r ≠ p) (hc' : s.pc r = some c')
    (hu' : c'.unborn = true) : c'.child ≠ c.child :=
  fun he => hr (h.unique r p c' c hc' hc hu' hu he)

theorem Forking.Inv.child_ne_parent {c : ForkPc} (h : s.Inv) (hready : s.kernel.ready p)
    (hc : s.pc p = some c) (hu : c.unborn = true) : c.child ≠ p := by
  intro he
  have hemb := (h.at_pc p c hc).embryo hu
  rw [he, hready.1] at hemb
  cases hemb

theorem Forking.Inv.unused_ne (h : s.Inv) (hun : (s.kernel.proc np).state = .unused) (r : Fin NPROC)
    (c : ForkPc) (_ : r ≠ p) (hc : s.pc r = some c) (hu : c.unborn = true) : c.child ≠ np := by
  rintro rfl
  have hemb := (h.at_pc r c hc).embryo hu
  rw [hun] at hemb
  cases hemb

/-- A step that changes nothing but the slot `np`. -/
theorem Forking.Inv.of_slot (np : Fin NPROC) {pc : Option ForkPc} {origin : Fin NPROC → Option Proc}
    (h : s.Inv) (hready : s.kernel.ready p) (hother : ∀ r, r ≠ np → k'.proc r = s.kernel.proc r)
    (hnp : (s.kernel.proc np).live → (s.kernel.proc np).state = .embryo)
    (hnot : ∀ r c, r ≠ p → s.pc r = some c → c.unborn = true → c.child ≠ np)
    (hwhole : (k'.proc np).live → (k'.proc np).state ≠ .embryo →
      (k'.proc np).Whole ∧ (k'.proc np).wmap.isChild = true)
    (hold : ∀ r, r ≠ np → s.pc p ≠ some (.giveUp r)) (hnew : ∀ r, r ≠ np → pc ≠ some (.giveUp r))
    (hfree : k'.mach.kmem.free + Forking.stack ⟨k'.leave p, update s.pc p pc, origin⟩ np ≤
      s.kernel.mach.kmem.free + s.stack np)
    (hat : ∀ c, pc = some c → k'.AtPc p c)
    (hchild : ∀ c, pc = some c → c.unborn = true → c.child = np)
    (horigin : ∀ r, r ≠ np → origin r = s.origin r)
    (hbare : ∀ x, origin np = some x → x.Bare ∧ (k'.proc np).wmap.total = 0 ∧
      (k'.proc np).wmap.active = ∅) :
    Forking.Inv ⟨k'.leave p, update s.pc p pc, origin⟩ := by
  have hpn : p ≠ np := by
    rintro rfl
    exact hready.not_embryo (hnp hready.live)
  refine h.of_child np hready (fun r _ => hother r) (by rw [hother p hpn]) hnp hnot
    (fun hl he => (hwhole hl he).1) ?_ hat hchild fun r y hy => ?_
  · refine safe_of_le h.safe (pool_le (fun r hr => ?_) hfree) fun r y hr => ?_
    · exact stack_other (by rw [hother r hr]) (by rw [hother r hr]) (hold r hr) (hnew r hr)
    · by_cases hrn : r.1 = np
      · obtain ⟨he, hc, hm⟩ := hr
        have hl : (k'.proc r.1).live := hm.live
        rw [hrn] at he hc hl
        exact absurd (hc.symm.trans (hwhole hl he).2) (by decide)
      · exact refs_of_eq hr (hother r.1 hrn)
  · by_cases hr : r = np
    · subst hr
      exact hbare y hy
    · rw [horigin r hr] at hy
      rw [hother r hr]
      exact h.bare r y hy

theorem Forking.stack_unused {q : Fin NPROC} (h : (s.kernel.proc q).state = .unused) :
    s.stack q = 0 := by
  rw [stack, if_neg]
  rintro ⟨hl, -⟩
  exact hl h

section
variable (h : s.Inv) (hready : s.kernel.ready p)
include h hready

theorem Forking.Inv.alloc (hpc : s.pc p = none)
    (hbare : (s.kernel.proc p).Bare) (ha : allocproc (s.kernel.enter p) = (some np, k')) :
    Forking.Inv ⟨k'.leave p, update s.pc p (some (.copy np)),
      update s.origin np (some (s.kernel.proc p))⟩ := by
  obtain ⟨hun, x, a, hx, hk⟩ := allocproc_some ha
  change (s.kernel.proc np).state = .unused at hun
  change kalloc s.kernel.mach.kmem = (some x, a) at hx
  have hother : ∀ r, r ≠ np → k'.proc r = s.kernel.proc r := by
    intro r hr
    rw [hk, proc_setProc_ne hr]
    rfl
  have hself : k'.proc np = { s.kernel.proc np with
      state := .embryo, pid := s.kernel.nextpid, kstack := some x, wmap := Wmap.init } := by
    rw [hk, proc_setProc_self]
    rfl
  have hfree : s.kernel.mach.kmem.free = x ::ₘ k'.mach.kmem.free := by
    rw [free_kalloc hx, hk]
    rfl
  refine h.of_slot np hready hother (fun hl => (hl hun).elim) (h.unused_ne hun) (fun _ he => ?_)
    (by simp [hpc]) (by simp) ?_ (fun c hc => ?_) (fun c hc _ => ?_) (fun r hr => update_of_ne hr ..)
    fun y hy => ?_
  · rw [hself] at he
    exact (he rfl).elim
  · have hnew : Forking.stack ⟨k'.leave p, update s.pc p (some (.copy np)),
        update s.origin np (some (s.kernel.proc p))⟩ np ≤ {x} := by
      unfold Forking.stack
      split
      · show ((k'.proc np).kstack.toList : Multiset Frame) ≤ {x}
        rw [hself]
        exact le_rfl
      · exact Multiset.zero_le _
    rw [stack_unused hun, hfree, add_zero, ← Multiset.singleton_add, add_comm]
    exact add_le_add_left hnew _
  · cases hc
    have hpn : p ≠ np := by
      rintro rfl
      exact hready.live hun
    refine ⟨by rw [hother p hpn]; exact hbare.active, by rw [hself], ⟨x, by rw [hself]⟩, ?_⟩
    rw [hself]
    intro i hi
    simp at hi
  · cases hc
    rfl
  · rw [update_self] at hy
    cases hy
    refine ⟨hbare, ?_⟩
    rw [hself]
    exact ⟨rfl, Wmap.active_init⟩

theorem Forking.Inv.alloc_none (hpc : s.pc p = none)
    (ha : allocproc (s.kernel.enter p) = (none, k')) :
    Forking.Inv ⟨k'.leave p, update s.pc p none, s.origin⟩ := by
  rcases allocproc_none ha with rfl | ⟨np, hun, hempty, hk⟩
  · exact h.goto hready (by rw [hpc]; simp) (by simp) (by simp)
  change (s.kernel.proc np).state = .unused at hun
  have hself : k'.proc np = { s.kernel.proc np with pid := s.kernel.nextpid, kstack := none } := by
    rw [hk, proc_setProc_self]
    rfl
  have hun' : (k'.proc np).state = .unused := by
    rw [hself]
    exact hun
  refine h.of_slot np hready (fun r hr => ?_) (fun hl => (hl hun).elim) (h.unused_ne hun)
    (fun hl => (hl hun').elim) (by simp [hpc]) (by simp) ?_ (by simp) (by simp) (fun _ _ => rfl)
    (by rw [hself]; exact h.bare np)
  · rw [hk, proc_setProc_ne hr]
    rfl
  · rw [stack_unused (show ((k'.leave p).proc np).state = .unused from hun'), stack_unused hun, hk]
    exact le_rfl

theorem Forking.Inv.copy {b : Bool}
    (hpc : s.pc p = some (.copy np)) (hc : forkCopy (s.kernel.enter p) p np = .ok (b, k')) :
    Forking.Inv ⟨k'.leave p, update s.pc p (some (if b then .publish np else .free np)),
      s.origin⟩ := by
  have hpn : p ≠ np := (h.child_ne_parent hready hpc rfl).symm
  have hwhole := h.whole p hready.live hready.not_embryo
  obtain ⟨hactive, hemb, ⟨x, hx⟩, hok⟩ := h.at_pc p _ hpc
  have hf := forkCopy_spec (k := s.kernel.enter p) hpn hwhole.size.le hc
  have hchild : (k'.proc np).state = .embryo ∧ (k'.proc np).kstack = some x ∧
      (k'.proc np).wmap.total = (s.kernel.proc np).wmap.total ∧
      (k'.proc np).wmap.active = (s.kernel.proc np).wmap.active ∧ (k'.proc np).wmap.Ok := by
    cases b with
    | false =>
      rw [hf.failed rfl]
      exact ⟨hemb, hx, rfl, rfl, hok⟩
    | true =>
      obtain ⟨d, parent, tf, ofile, cwd, name, hnp⟩ := hf.child rfl
      rw [hnp]
      exact ⟨hemb, hx, rfl, rfl, hok⟩
  have hwmap : (k'.proc p).wmap = (s.kernel.proc p).wmap := by
    rw [hf.parent]
    rfl
  have hpc' : ∀ r, (some (if b then .publish np else .free np) : Option ForkPc) ≠
      some (.giveUp r) := by
    intro r
    cases b <;> simp
  refine h.of_child np hready hf.others hf.parent (fun _ => hemb)
    (h.child_ne hpc rfl) (fun _ he => (he hchild.1).elim) ?_ (fun c hc => ?_) (fun c hc _ => ?_)
    fun r y hy => ?_
  · have hsame : ∀ r, (k'.proc r).state = (s.kernel.proc r).state ∧
        (k'.proc r).kstack = (s.kernel.proc r).kstack := by
      intro r
      by_cases hrn : r = np
      · subst hrn
        exact ⟨hchild.1.trans hemb.symm, hchild.2.1.trans hx.symm⟩
      by_cases hrp : r = p
      · subst hrp
        rw [hf.parent]
        exact ⟨rfl, rfl⟩
      · rw [hf.others r hrp hrn]
        exact ⟨rfl, rfl⟩
    have hstack : ∀ r, Forking.stack ⟨k'.leave p, update s.pc p
        (some (if b then .publish np else .free np)), s.origin⟩ r = s.stack r := fun r =>
      stack_other (by unfold Proc.live; rw [(hsame r).1]) (hsame r).2 (by rw [hpc]; simp) (hpc' r)
    refine safe_of_le h.safe (pool_le (q := np) (fun r _ => hstack r) ?_) fun r y hr => ?_
    · rw [hstack np]
      exact add_le_add_left hf.free _
    by_cases hrn : r.1 = np
    · obtain ⟨he, -⟩ := hr
      rw [hrn] at he
      exact (he hchild.1).elim
    by_cases hrp : r.1 = p
    · obtain ⟨r, v⟩ := r
      dsimp only at hrp
      subst hrp
      exact refs_of hr (hsame r).1 (congrArg Wmap.isChild hwmap) (hf.present v) (hf.ppn v)
    · exact refs_of_eq hr (hf.others r.1 hrp hrn)
  · cases b with
    | false =>
      cases hc
      exact ⟨hchild.1, x, hchild.2.1⟩
    | true =>
      cases hc
      obtain ⟨d, parent, tf, ofile, cwd, name, hnp⟩ := hf.child rfl
      refine ⟨by rw [hwmap]; exact hactive, hchild.1, ⟨x, hchild.2.1⟩, hchild.2.2.2.2, ?_, ?_⟩
      · rw [hnp]
        exact hwhole.size
      · rw [hnp]
  · cases hc
    cases b <;> rfl
  · by_cases hrn : r = np
    · subst hrn
      rw [hchild.2.2.1, hchild.2.2.2.1]
      exact h.bare r y hy
    by_cases hrp : r = p
    · subst hrp
      rw [hwmap]
      exact h.bare r y hy
    · rw [hf.others r hrp hrn]
      exact h.bare r y hy

theorem Forking.Inv.publish {is : List (Fin MAX_WMMAP_INFO)} (hpc : s.pc p = some (.publish np)) :
    Forking.Inv ⟨(Xv6.publish (s.kernel.enter p) np).leave p,
      update s.pc p (some (.slots np is)), s.origin⟩ := by
  have hpn : p ≠ np := (h.child_ne_parent hready hpc rfl).symm
  obtain ⟨hactive, hemb, hx, hok, hsz, hchild⟩ := h.at_pc p _ hpc
  generalize hk : Xv6.publish (s.kernel.enter p) np = k'
  have hself : k'.proc np = { s.kernel.proc np with state := .runnable } := by
    rw [← hk, Xv6.publish, proc_setProc_self]
    rfl
  have hother : ∀ r, r ≠ np → k'.proc r = s.kernel.proc r := by
    intro r hr
    rw [← hk, Xv6.publish, proc_setProc_ne hr]
    rfl
  refine h.of_slot np hready hother (fun _ => hemb) (h.child_ne hpc rfl) (fun _ _ => ?_)
    (by simp [hpc]) (by simp) ?_ (fun c hc => ?_) (fun c hc hu => ?_) (fun _ _ => rfl)
    (by rw [hself]; exact h.bare np)
  · rw [hself]
    exact ⟨⟨hsz, hok, hx⟩, hchild⟩
  · rw [stack_other ?_ (by rw [hself]) (by simp [hpc]) (by simp), ← hk]
    · exact le_rfl
    · rw [hself]
      exact iff_of_true (by rintro ⟨⟩) (Proc.live_of_embryo hemb)
  · cases hc
    show (k'.proc p).wmap.active = ∅
    rw [hother p hpn]
    exact hactive
  · cases hc
    cases hu

theorem Forking.Inv.free
    (hpc : s.pc p = some (.free np)) (hf : freeStack (s.kernel.enter p) np = .ok k') :
    Forking.Inv ⟨k'.leave p, update s.pc p (some (.giveUp np)), s.origin⟩ := by
  obtain ⟨hemb, x, hx⟩ := h.at_pc p _ hpc
  obtain ⟨m, hm, rfl⟩ : ∃ m, kfree (s.kernel.enter p).mach x = .ok m ∧
      k' = { s.kernel.enter p with mach := m } := by
    unfold freeStack at hf
    rw [show ((s.kernel.enter p).proc np).kstack = some x from hx] at hf
    obtain ⟨m, hm, hf⟩ := Lib.bind_eq_ok.mp hf
    cases hf
    exact ⟨m, hm, rfl⟩
  have hfree : m.kmem.free = s.kernel.mach.kmem.free + {x} := (kfree_spec hm).free
  refine h.of_slot np hready (fun _ _ => rfl) (fun _ => hemb) (h.child_ne hpc rfl)
    (fun _ he => (he hemb).elim) (by simp [hpc]) (fun r hr => by simp [Ne.symm hr]) ?_ (fun c hc => ?_)
    (fun c hc _ => ?_) (fun _ _ => rfl) (h.bare np)
  · have hold : s.stack np = {x} := by
      rw [stack, if_pos, hx]
      · rfl
      · refine ⟨Proc.live_of_embryo hemb, fun r hr => ?_⟩
        obtain rfl := h.unique r p _ _ hr hpc rfl rfl rfl
        rw [hpc] at hr
        cases hr
    rw [hold, ← hfree, stack, if_neg, add_zero]
    rintro ⟨-, hno⟩
    exact hno p (update_self _ _ _)
  · cases hc
    exact hemb
  · cases hc
    rfl

theorem Forking.Inv.give_up (hpc : s.pc p = some (.giveUp np)) :
    Forking.Inv ⟨(giveUp (s.kernel.enter p) np).leave p, update s.pc p none, s.origin⟩ := by
  have hemb : (s.kernel.proc np).state = .embryo := h.at_pc p _ hpc
  generalize hk : giveUp (s.kernel.enter p) np = k'
  have hself : k'.proc np = { s.kernel.proc np with kstack := none, state := .unused } := by
    rw [← hk, giveUp, proc_setProc_self]
    rfl
  have hun : (k'.proc np).state = .unused := by rw [hself]
  refine h.of_slot np hready (fun r hr => ?_) (fun _ => hemb) (h.child_ne hpc rfl)
    (fun hl => (hl hun).elim) (fun r hr => by simp [hpc, Ne.symm hr]) (by simp) ?_ (by simp) (by simp)
    (fun _ _ => rfl) (by rw [hself]; exact h.bare np)
  · rw [← hk, giveUp, proc_setProc_ne hr]
    rfl
  · rw [stack_unused (show ((k'.leave p).proc np).state = .unused from hun), add_zero, ← hk]
    exact Multiset.le_add_right _ _

end

theorem copySlots_bare {i : Fin MAX_WMMAP_INFO} (h : (k.proc p).wmap.active = ∅) :
    copySlots p np [i] k = .ok (true, k) := by
  have hi : ((k.proc p).wmap.slot i).isEmpty = true := by
    rw [← Wmap.notMem_active, h]
    simp
  rw [copySlots]
  dsimp only
  rw [if_pos hi]
  rfl

theorem Forking.Inv.step {a : ForkingAct} (h : s.Inv) (hclear : s.Clear a) (hstep : s.Step a s') :
    s'.Inv := by
  cases hstep with
  | @fork p pc k1 hready hf =>
    cases hpc : s.pc p with
    | none =>
      rw [hpc, forkStep] at hf
      split at hf
      · rename_i ha
        cases hf
        exact h.alloc_none hready hpc ha
      · rename_i np _ ha
        cases hf
        exact h.alloc hready hpc (hclear hpc) ha
    | some c =>
      rw [hpc] at hf
      cases c with
      | copy np =>
        obtain ⟨⟨b, k2⟩, hc, hf⟩ := Lib.bind_eq_ok.mp hf
        cases hf
        have := h.copy hready hpc hc
        cases b <;> exact this
      | publish np =>
        cases hf
        exact h.publish hready hpc
      | slots np is =>
        have hactive : (s.kernel.proc p).wmap.active = ∅ := h.at_pc p _ hpc
        cases is with
        | nil =>
          cases hf
          exact h.goto hready (by rw [hpc]; simp) (by simp) (by simp)
        | cons i is =>
          rw [forkStep, copySlots_bare (k := s.kernel.enter p) hactive] at hf
          cases hf
          refine h.goto hready (by rw [hpc]; simp) (by simp) fun c hc => ?_
          cases hc
          exact ⟨rfl, hactive⟩
      | free np =>
        obtain ⟨k2, hfree, hf⟩ := Lib.bind_eq_ok.mp hf
        cases hf
        exact h.free hready hpc hfree
      | giveUp np =>
        cases hf
        exact h.give_up hready hpc
  | schedule ha hk => exact h.schedule ha hk
  | @call a k' ha hpc hk =>
    obtain ⟨hen, hperform⟩ := hk
    cases perform_ok hperform with
    | wmap hcall => exact h.wmap hen.1 hpc hen.2.1 hen.2.2.2 hcall
    | wunmap hcall => exact h.wunmap hen.1 hpc hclear hcall
    | _ => exact ha.elim

end

end Xv6
