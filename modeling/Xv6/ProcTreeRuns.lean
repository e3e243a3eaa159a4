import Xv6.ProcExit

/-!
Runs of the process table: every step keeps the tree, a slot is emptied only by the parent of
the process in it, and the results hold in every state that is reached.
-/

namespace Xv6

open Function

namespace Ptable

variable {t t' : Ptable} {ex : List (Fin NPROC × Nat)} {p q c np : Fin NPROC}

theorem Inv.take (h : t.Inv ex) (hp : (t.task p).state = .running) (hcall : (t.task p).call = .none)
    (hnp : (t.task np).state = .unused) :
    (t.take p np).Inv ex ∧ Effect t .silent (t.take p np) := by
  have hpn : p ≠ np := by
    rintro rfl
    rw [hp] at hnp
    cases hnp
  have hother : ∀ q, q ≠ p → q ≠ np → (t.take p np).task q = t.task q := fun q hq hqn => by
    simp [Ptable.take, set, hq, hqn]
  have hself : (t.take p np).task p = { t.task p with call := .fork np false } := by
    simp [Ptable.take, set]
  have hnew : (t.take p np).task np = { t.task np with state := .embryo, pid := t.nextpid } := by
    simp [Ptable.take, set, Ne.symm hpn]
  have hgen : (t.take p np).gen np = t.gen np + 1 := by simp [Ptable.take]
  constructor
  · refine h.of_fork (p := p) (x := { t.task p with call := .fork np false })
      (y := { t.task np with state := .embryo, pid := t.nextpid }) (Or.inr (Or.inl hp)) hpn
      (Or.inl hnp) hself (by simp) hnew hother rfl (fun q hq => ?_) (fun _ _ => rfl) (Or.inl rfl)
      (Or.inl rfl) (fun _ hpar => ?_) (fun n b hf => ?_) (fun q b hf => ?_) (fun n b hf => ?_)
    · simp [Ptable.take, hq]
    · rw [show (t.task np).parent = none from h.unused np hnp] at hpar
      cases hpar
    · cases hf
      exact ⟨rfl, rfl, by simp⟩
    · have := (h.forking q np b hf).2.1
      rw [hnp] at this
      cases this
    · rw [hcall] at hf
      cases hf
  · refine ⟨fun c => ?_, fun c hc => ?_, fun c hc hg => ?_, by simp⟩
    · by_cases hcn : c = np
      · rw [hcn, hgen]
        exact Nat.le_succ _
      · simp [Ptable.take, hcn]
    · have hcn : c ≠ np := by
        rintro rfl
        rw [hnew] at hc
        cases hc
      refine Or.inl ⟨?_, by simp [Ptable.take, hcn]⟩
      by_cases hcp : c = p
      · subst hcp
        rw [hself] at hc
        exact hc
      · rwa [hother c hcp hcn] at hc
    · have hcn : c ≠ np := by
        rintro rfl
        rw [hgen] at hg
        omega
      have hcp : c ≠ p := by
        rintro rfl
        rw [hp] at hc
        cases hc
      rwa [hother c hcp hcn]

/-- The two later steps of `fork`: the child gets its parent, and becomes runnable. -/
theorem Inv.child {x y : Task} {b : Bool} (h : t.Inv ex)
    (maker : Fin NPROC → Option (Fin NPROC × Nat)) (hp : (t.task p).state = .running) (hcall : (t.task p).call = .fork np b)
    (hxw : x.call ≠ .wait) (hmaker : ∀ q, q ≠ np → maker q = t.maker q)
    (hstate : y.state = .embryo ∨ y.state = .runnable ∧ y.parent = some p ∧
      maker np = some (t.ident p))
    (hpar : y.parent = some p) (hadopt : y.state = .embryo → x.call = .fork np true)
    (hfork : ∀ n b, x.call = .fork n b → n = np ∧ y.state = .embryo ∧
      (b = true → maker np = some (t.ident p))) :
    ({ (t.set np { t.task np with state := y.state, parent := y.parent }).set p
      { t.task p with call := x.call } with maker := maker } : Ptable).Inv ex ∧
    Effect t .silent { (t.set np { t.task np with state := y.state, parent := y.parent }).set p
      { t.task p with call := x.call } with maker := maker } := by
  obtain ⟨-, hemb, -⟩ := h.forking p np b hcall
  have hpn : p ≠ np := by
    rintro rfl
    rw [hp] at hemb
    cases hemb
  constructor
  · refine h.of_fork (p := p) (x := x) (y := { y with pid := (t.task np).pid })
      (Or.inr (Or.inl hp)) hpn (Or.inr hemb) (by simp [set]) hxw ?_ (fun q hq hqn => ?_) rfl
      (fun _ _ => rfl) hmaker hstate (Or.inr hpar) (fun hs _ => hadopt hs) (fun n b' hf => ?_)
      (fun q b' hf => h.unique q p np b' b hf hcall) (fun n b' hf => ?_)
    · simp [set, Ne.symm hpn]
    · simp [set, hq, hqn]
    · obtain ⟨h1, h2, h3⟩ := hfork n b' hf
      exact ⟨h1, h2, fun hb => ⟨hpar, h3 hb⟩⟩
    · rw [hcall] at hf
      cases hf
      rfl
  · refine .quiet rfl (fun c hc => ?_) (fun c hc => ?_) (by simp)
    · by_cases hcp : c = p
      · subst hcp
        simpa [set] using hc
      by_cases hcn : c = np
      · subst hcn
        simp only [set, update_of_ne hcp, update_self] at hc
        rcases hstate with hs | ⟨hs, -⟩
        · rw [hc] at hs
          cases hs
        · rw [hc] at hs
          cases hs
      · simpa [set, hcp, hcn] using hc
    · have hcp : c ≠ p := by
        rintro rfl
        rw [hp] at hc
        cases hc
      have hcn : c ≠ np := by
        rintro rfl
        rw [hemb] at hc
        cases hc
      simpa [set, hcp, hcn] using hc

theorem Inv.step {l : TreeAct × TreeEvent} (h : t.Inv ex) (hs : TreeStep t l t') :
    t'.Inv (ex ++ l.2.exits) ∧ Effect t l.2 t' := by
  obtain ⟨a, e⟩ := l
  -- only `exit` adds to the processes that have exited
  have hnone : ∀ {t'}, t'.Inv ex ∧ Effect t .silent t' → t'.Inv (ex ++ []) ∧ Effect t .silent t' :=
    fun hs => by rwa [List.append_nil]
  unfold TreeStep Ptable.step at hs
  cases a with
  | dispatch p =>
    dsimp only at hs
    split at hs
    · rename_i hr
      split at hs
      · rename_i hw
        have hcall : ∀ n b, (t.task p).call ≠ .fork n b := fun n b hf => by
          rw [show (t.task p).call = .wait from hw] at hf
          cases hf
        have he := Option.some.inj hs
        have h1 : ((t.set p { t.task p with state := .running, chan := none }).scan p).1 = e :=
          congrArg Prod.fst he
        have h2 : ((t.set p { t.task p with state := .running, chan := none }).scan p).2 = t' :=
          congrArg Prod.snd he
        subst h1 h2
        obtain ⟨hinv, heff, hex⟩ := h.scan (x := { t.task p with state := .running, chan := none })
          (Or.inl hr) hcall rfl rfl
        rw [hex, List.append_nil]
        exact ⟨hinv, heff⟩
      · rename_i hw
        cases hs
        exact hnone (h.calm_set (h.calm_of rfl rfl (Or.inr ⟨Or.inl hr, Or.inr (Or.inl rfl)⟩)
          fun hc => (hw hc).elim))
    · cases hs
  | yield p =>
    dsimp only at hs
    split at hs
    · rename_i hr
      cases hs
      exact hnone (h.calm_set (h.calm_of rfl rfl (Or.inr ⟨Or.inr (Or.inl hr), Or.inl rfl⟩)
        fun _ => Or.inl rfl))
    · cases hs
  | sleep p n =>
    dsimp only at hs
    split at hs
    · rename_i hr
      cases hs
      refine hnone (h.calm_set (h.calm_of rfl rfl (Or.inr ⟨Or.inr (Or.inl hr), Or.inr (Or.inr rfl)⟩)
        fun hc => ?_))
      rcases h.waiting p hc with hw | ⟨hw, -⟩
      · rw [hr] at hw
        cases hw
      · rw [hr] at hw
        cases hw
    · cases hs
  | wakeup n =>
    cases hs
    have hq : ∀ q, Calm t q (wakeup1 t.task (.other n) q) := by
      intro q
      have hw := woken_wakeup1 t.task (.other n) q
      refine h.calm_of hw.parent hw.call ?_ fun _ => ?_
      · exact hw.state.imp_right fun hx => ⟨Or.inr (Or.inr hx.1), Or.inl hx.2.2⟩
      · rcases hw.state with he | ⟨-, -, he⟩
        · exact Or.inr ⟨he, hw.chan⟩
        · exact Or.inl he
    exact hnone ⟨h.calm rfl rfl rfl fun q => Or.inl (hq q), .calm rfl hq⟩
  | allocproc p =>
    dsimp only at hs
    split at hs
    · rename_i hr
      obtain ⟨np, hfind, he⟩ := Option.map_eq_some_iff.mp hs
      cases he
      have hnp := List.find?_some hfind
      exact hnone (h.take hr.1 hr.2 (of_decide_eq_true hnp))
    · cases hs
  | adopt p =>
    dsimp only at hs
    split at hs
    · rename_i np hcall
      split at hs
      · rename_i hr
        cases hs
        have hemb := (h.forking p np false hcall).2.1
        exact hnone (h.child (x := { t.task p with call := .fork np true })
          (y := { t.task np with parent := some p })
          (update t.maker np (some (t.ident p))) hr hcall (by simp)
          (fun q hq => update_of_ne hq ..) (Or.inl hemb) rfl (fun _ => rfl)
          (fun n b hf => by cases hf; exact ⟨rfl, hemb, fun _ => update_self ..⟩))
      · cases hs
    · cases hs
  | publish p =>
    dsimp only at hs
    split at hs
    · rename_i np hcall
      split at hs
      · rename_i hr
        cases hs
        obtain ⟨-, -, hb⟩ := h.forking p np true hcall
        obtain ⟨hpar, hmaker⟩ := hb rfl
        exact hnone (h.child (x := { t.task p with call := .none })
          (y := { t.task np with state := .runnable }) t.maker hr hcall (by simp)
          (fun _ _ => rfl) (Or.inr ⟨rfl, hpar, hmaker⟩) hpar (by simp) (by simp))
      · cases hs
    · cases hs
  | exit p =>
    dsimp only at hs
    split at hs
    · rename_i hr
      cases hs
      have hp : (t.task p).Alive := Or.inr (Or.inl hr.1)
      have he := exit_exited (t := t) hr.2.2
      refine ⟨h.exit hp hr.2.1 he hr.2.2, fun c => by rw [he.gen], fun c hc => ?_, fun c hc _ => ?_,
        by simp⟩
      · by_cases hcp : c = p
        · subst hcp
          exact Or.inr (by rw [ident, ident, he.gen])
        · rcases he.state c hcp with hst | ⟨-, hst⟩
          · exact Or.inl ⟨hst.symm.trans hc, by rw [he.gen]⟩
          · rw [hc] at hst
            cases hst
      · have hcp : c ≠ p := by
          rintro rfl
          exact hp.ne.1 hc
        rcases he.state c hcp with hst | ⟨hst, -⟩
        · exact hst.trans hc
        · rw [hc] at hst
          cases hst
    · cases hs
  | wait p =>
    dsimp only at hs
    split at hs
    · rename_i hr
      have hp : (t.task p).Alive := Or.inr (Or.inl hr.1)
      have hcall : ∀ n b, (t.task p).call ≠ .fork n b := fun n b hf => by
        rw [hr.2] at hf
        cases hf
      have hsame : t.set p (t.task p) = t := by simp [set]
      have he := Option.some.inj hs
      have h1 : (t.scan p).1 = e := congrArg Prod.fst he
      have h2 : (t.scan p).2 = t' := congrArg Prod.snd he
      subst h1 h2
      obtain ⟨hinv, heff, hex⟩ := h.scan (x := t.task p) hp hcall hr.1 rfl
      rw [hsame] at hinv heff hex
      rw [hex, List.append_nil]
      exact ⟨hinv, heff⟩
    · cases hs
  | kill pid =>
    dsimp only at hs
    split at hs
    · cases hs
      exact hnone ⟨h, .quiet rfl (fun _ => id) (fun _ => id) (by simp)⟩
    rename_i q hq
    cases hs
    refine hnone (h.calm_set (h.calm_of ?_ ?_ ?_ fun _ => ?_))
    · split <;> rfl
    · split <;> rfl
    · split
      · rename_i hsl
        exact Or.inr ⟨Or.inr (Or.inr hsl), Or.inl rfl⟩
      · exact Or.inl rfl
    · split
      · exact Or.inl rfl
      · exact Or.inr ⟨rfl, rfl⟩

theorem start_self (init : Fin NPROC) :
    (start init).task init = { state := .runnable, pid := 1 } := by
  simp [start]

theorem start_ne {init : Fin NPROC} (hq : q ≠ init) : (start init).task q = {} := by
  simp [start, hq]

theorem Inv.start (init : Fin NPROC) : (Ptable.start init).Inv [] := by
  have hnone : ∀ q, ((Ptable.start init).task q).call = .none ∧
      ((Ptable.start init).task q).parent = none := by
    intro q
    by_cases hq : q = init
    · rw [hq, start_self]
      exact ⟨rfl, rfl⟩
    · rw [start_ne hq]
      exact ⟨rfl, rfl⟩
  refine ⟨Or.inl (by rw [show (Ptable.start init).initproc = init from rfl, start_self]),
    fun c hc hu _ => (hu (by rw [start_ne (show c ≠ init from hc)])).elim, fun c _ => (hnone c).2,
    fun c w _ hp => ?_, fun p np b hf => ?_, fun p q np b b' hf => ?_, fun p hw => ?_, fun p c _ hw => ?_, (hnone _).2,
    fun c hp => ?_⟩
  · simp [hnone] at hp
  · simp [hnone] at hf
  · simp [hnone] at hf
  · simp [hnone] at hw
  · simp [hnone] at hw
  · simp [hnone] at hp

/-- A table together with the processes that have exited and those that have been reaped. -/
structure History (t : Ptable) (exited reaped : List (Fin NPROC × Nat)) : Prop where
  inv : t.Inv exited
  zombie : ∀ c, (t.task c).state = .zombie → t.ident c ∈ exited
  gone : ∀ c ∈ reaped, c.2 < t.gen c.1 ∨ c.2 = t.gen c.1 ∧ (t.task c.1).state = .unused
  once : reaped.Nodup

variable {rp : List (Fin NPROC × Nat)}

/-- The slot of a process that was reaped is empty or holds a later process. -/
theorem History.not_reaped (h : t.History ex rp) (hc : (t.task c).state = .zombie) :
    t.ident c ∉ rp := by
  intro hmem
  rcases h.gone _ hmem with hlt | ⟨-, hu⟩
  · exact Nat.lt_irrefl _ hlt
  · rw [show (t.ident c).1 = c from rfl, hc] at hu
    cases hu

theorem History.step {l : TreeAct × TreeEvent} (h : t.History ex rp) (hs : TreeStep t l t') :
    t'.History (ex ++ l.2.exits) (rp ++ l.2.reaps) := by
  obtain ⟨hinv, heff⟩ := h.inv.step hs
  refine ⟨hinv, fun c hc => ?_, fun c hc => ?_, ?_⟩
  · rcases heff.zombie c hc with ⟨hz, hg⟩ | he
    · have hmem := h.zombie c hz
      rw [ident, ← hg] at hmem
      exact List.mem_append_left _ hmem
    · rw [he]
      exact List.mem_append_right _ (List.mem_singleton_self _)
  · rcases List.mem_append.mp hc with hc | hc
    · rcases h.gone c hc with hlt | ⟨heq, hu⟩
      · exact Or.inl (hlt.trans_le (heff.gen c.1))
      · rcases (heff.gen c.1).eq_or_lt with hg | hg
        · exact Or.inr ⟨heq.trans hg, heff.unused c.1 hu hg.symm⟩
        · exact Or.inl (heq.trans_lt hg)
    · obtain ⟨a, e⟩ := l
      cases e with
      | silent => cases hc
      | exited d => cases hc
      | reaped w d =>
        cases List.mem_singleton.mp hc
        obtain ⟨-, hd, -, -, hu, hg⟩ := heff.reaped w c rfl
        exact Or.inr ⟨(congrArg Prod.snd hd).trans hg.symm, hu⟩
  · obtain ⟨a, e⟩ := l
    cases e with
    | silent => exact (List.append_nil rp).symm ▸ h.once
    | exited d => exact (List.append_nil rp).symm ▸ h.once
    | reaped w d =>
      obtain ⟨-, hd, hz, -⟩ := heff.reaped w d rfl
      refine List.nodup_append.mpr ⟨h.once, List.nodup_singleton _, fun x hx y hy hxy => ?_⟩
      cases List.mem_singleton.mp hy
      rw [hxy, hd] at hx
      exact h.not_reaped hz hx

theorem History.run {init : Fin NPROC} {ls : List (TreeAct × TreeEvent)}
    (h : Lib.Run TreeStep (.start init) ls t) : t.History (treeExited ls) (treeReaped ls) := by
  induction h with
  | refl =>
    refine ⟨.start init, fun c hc => ?_, nofun, List.nodup_nil⟩
    by_cases hci : c = init
    · rw [hci, start_self] at hc
      cases hc
    · rw [start_ne hci] at hc
      cases hc
  | snoc _ hs ih =>
    rw [treeExited_snoc, treeReaped_snoc]
    exact ih.step hs

end Ptable

/-- In every table that is reached each process but `initproc` has a parent that can still wait
for it, each process is reaped at most once, by the process that forked it or, when that one has
exited, by `initproc`, and nobody sleeps in `wait` while it has a child to reap. -/
theorem process_tree {init : Fin NPROC} {ls : List (TreeAct × TreeEvent)} {t : Ptable}
    (h : Lib.Run TreeStep (.start init) ls t) :
    (∀ c, c ≠ t.initproc → (t.task c).Alive ∨ (t.task c).state = .zombie →
      ∃ w, (t.task c).parent = some w ∧ (t.task w).state ≠ .unused ∧ (t.task w).state ≠ .zombie) ∧
    (treeReaped ls).Nodup ∧
    (∀ a w c t', TreeStep t (a, .reaped w c) t' → c ∈ treeExited ls ∧ c ∉ treeReaped ls ∧
      (t.task c.1).parent = some w.1 ∧ w = t.ident w.1 ∧
      t.MayReap (treeExited ls) w.1 c.1) ∧
    ∀ p c, (t.task p).state = .sleeping → (t.task p).call = .wait →
      (t.task c).parent = some p → (t.task c).state ≠ .zombie := by
  have hist := Ptable.History.run h
  refine ⟨fun c hc hst => ?_, hist.once, fun a w c t' hs => ?_, hist.inv.sleeper⟩
  · have hne : (t.task c).state ≠ .unused ∧ (t.task c).state ≠ .embryo := by
      rcases hst with ha | hz
      · exact ⟨ha.ne.1, ha.ne.2.1⟩
      · rw [hz]
        exact ⟨nofun, nofun⟩
    obtain ⟨w, hw, ha, -⟩ := hist.inv.parent c hc hne.1 hne.2
    exact ⟨w, hw, ha.ne.1, ha.ne.2.2⟩
  · obtain ⟨hw, hc, hz, hpar, -⟩ := (hist.inv.step hs).2.reaped w c rfl
    have hzi := hist.inv.ne_init_of_zombie hz
    obtain ⟨w', hw', -, hmay⟩ := hist.inv.parent c.1 hzi (by rw [hz]; nofun) (by rw [hz]; nofun)
    rw [hpar] at hw'
    cases hw'
    exact ⟨hc ▸ hist.zombie c.1 hz, hc ▸ hist.not_reaped hz, hpar, hw, hmay⟩

/-- A child that has forked exits while `init` waits: `init` reaps it, and then the grandchild. -/
theorem process_tree_two_reaped : ∃ ls t, Lib.Run TreeStep (.start 0) ls t ∧
    treeReaped ls = [(1, 1), (2, 1)] ∧ (treeReaped ls).Nodup := by
  obtain ⟨ls, t, hrun, hp⟩ := Lib.Run.exists_of_trace (f := Ptable.step) (s := .start 0)
    (p := fun r => treeReaped r.1 = [(1, 1), (2, 1)])
    [.dispatch 0, .allocproc 0, .adopt 0, .publish 0, .wait 0, .dispatch 1, .allocproc 1, .adopt 1,
      .publish 1, .exit 1, .dispatch 0, .wait 0, .dispatch 2, .exit 2, .dispatch 0] (by decide)
  rw [decide_eq_true_iff] at hp
  exact ⟨ls, t, hrun, hp, (process_tree hrun).2.1⟩

end Xv6
