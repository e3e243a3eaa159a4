import Xv6.Ptable
import Xv6.Lib.Run

/-!
The tree of processes. Every process has a parent that can still wait for it, each process
that has exited is reaped once, by its parent or by `initproc`, and nobody sleeps in `wait`
while it has a child to reap.
-/

namespace Xv6

def Task.Alive (x : Task) : Prop :=
  x.state = .runnable ∨ x.state = .running ∨ x.state = .sleeping

theorem Task.Alive.ne {x : Task} (h : x.Alive) :
    x.state ≠ .unused ∧ x.state ≠ .embryo ∧ x.state ≠ .zombie := by
  rcases h with h | h | h <;> simp [h]

def TreeEvent.exits : TreeEvent → List (Fin NPROC × Nat)
  | .exited c => [c]
  | _ => []

def TreeEvent.reaps : TreeEvent → List (Fin NPROC × Nat)
  | .reaped _ c => [c]
  | _ => []

def treeExited (ls : List (TreeAct × TreeEvent)) : List (Fin NPROC × Nat) :=
  ls.flatMap fun l => l.2.exits

def treeReaped (ls : List (TreeAct × TreeEvent)) : List (Fin NPROC × Nat) :=
  ls.flatMap fun l => l.2.reaps

theorem treeExited_snoc (ls : List (TreeAct × TreeEvent)) (l : TreeAct × TreeEvent) :
    treeExited (ls ++ [l]) = treeExited ls ++ l.2.exits := by
  simp [treeExited]

theorem treeReaped_snoc (ls : List (TreeAct × TreeEvent)) (l : TreeAct × TreeEvent) :
    treeReaped (ls ++ [l]) = treeReaped ls ++ l.2.reaps := by
  simp [treeReaped]

namespace Ptable

/-- Process `w` may reap `c`: it has forked `c`, or it is `initproc` and the process that has
forked `c` has exited. -/
def MayReap (t : Ptable) (exited : List (Fin NPROC × Nat)) (w c : Fin NPROC) : Prop :=
  t.maker c = some (t.ident w) ∨ w = t.initproc ∧ ∃ m, t.maker c = some m ∧ m ∈ exited

structure Inv (t : Ptable) (exited : List (Fin NPROC × Nat)) : Prop where
  init : (t.task t.initproc).Alive
  parent : ∀ c, c ≠ t.initproc → (t.task c).state ≠ .unused → (t.task c).state ≠ .embryo →
    ∃ w, (t.task c).parent = some w ∧ (t.task w).Alive ∧ t.MayReap exited w c
  unused : ∀ c, (t.task c).state = .unused → (t.task c).parent = none
  embryo : ∀ c w, (t.task c).state = .embryo → (t.task c).parent = some w →
    (t.task w).call = .fork c true
  forking : ∀ p np b, (t.task p).call = .fork np b → (t.task p).Alive ∧
    (t.task np).state = .embryo ∧
    (b = true → (t.task np).parent = some p ∧ t.maker np = some (t.ident p))
  unique : ∀ p q np b b', (t.task p).call = .fork np b → (t.task q).call = .fork np b' → p = q
  waiting : ∀ p, (t.task p).call = .wait → (t.task p).state = .runnable ∨
    (t.task p).state = .sleeping ∧ (t.task p).chan = some (.proc p)
  sleeper : ∀ p c, (t.task p).state = .sleeping → (t.task p).call = .wait →
    (t.task c).parent = some p → (t.task c).state ≠ .zombie
  root : (t.task t.initproc).parent = none
  other : ∀ c, (t.task c).parent ≠ some c

variable {t t' : Ptable} {ex : List (Fin NPROC × Nat)} {p q c np : Fin NPROC}

@[simp] theorem task_set_self (x : Task) : (t.set p x).task p = x := by simp [set]

theorem task_set_ne (x : Task) (h : q ≠ p) : (t.set p x).task q = t.task q := by simp [set, h]

theorem Inv.ne_init_of_zombie (h : t.Inv ex) (hc : (t.task c).state = .zombie) : c ≠ t.initproc := by
  rintro rfl
  exact h.init.ne.2.2 hc

/-- A step leaves `q` as `y`: it may change whether the process runs, sleeps or waits for a CPU,
and the call it is in unless that is `fork`. -/
structure Calm (t : Ptable) (q : Fin NPROC) (y : Task) : Prop where
  parent : y.parent = (t.task q).parent
  state : y.state = (t.task q).state ∨ (t.task q).Alive ∧ y.Alive
  fork : ∀ np b, y.call = .fork np b ↔ (t.task q).call = .fork np b
  wait : y.call = .wait → y.state = .runnable ∨ y.state = .sleeping ∧ y.chan = some (.proc q) ∧
    ∀ c, (t.task c).parent = some q → (t.task c).state ≠ .zombie

theorem Calm.alive {y : Task} (h : Calm t q y) (hx : (t.task q).Alive) : y.Alive := by
  rcases h.state with he | ⟨-, hy⟩
  · unfold Task.Alive
    rw [he]
    exact hx
  · exact hy

theorem Calm.state_iff {y : Task} (h : Calm t q y) {σ : ProcState}
    (hσ : σ = .unused ∨ σ = .embryo ∨ σ = .zombie) : y.state = σ ↔ (t.task q).state = σ := by
  rcases h.state with he | ⟨hx, hy⟩
  · rw [he]
  obtain ⟨hx1, hx2, hx3⟩ := hx.ne
  obtain ⟨hy1, hy2, hy3⟩ := hy.ne
  rcases hσ with rfl | rfl | rfl
  · exact iff_of_false hy1 hx1
  · exact iff_of_false hy2 hx2
  · exact iff_of_false hy3 hx3

/-- A process that keeps its call and stays as it is or becomes runnable. -/
theorem Inv.calm_of {y : Task} (h : t.Inv ex) (hparent : y.parent = (t.task q).parent)
    (hcall : y.call = (t.task q).call)
    (hstate : y.state = (t.task q).state ∨ (t.task q).Alive ∧ y.Alive)
    (hwait : y.call = .wait → y.state = .runnable ∨
      y.state = (t.task q).state ∧ y.chan = (t.task q).chan) : Calm t q y := by
  refine ⟨hparent, hstate, fun np b => by rw [hcall], fun hw => ?_⟩
  rcases hwait hw with hr | ⟨hs, hc⟩
  · exact Or.inl hr
  rw [hcall] at hw
  rw [hs, hc]
  rcases h.waiting q hw with hr | ⟨hsl, hch⟩
  · exact Or.inl hr
  · exact Or.inr ⟨hsl, hch, fun c => h.sleeper q c hsl hw⟩

theorem Inv.calm_refl (h : t.Inv ex) (q : Fin NPROC) : Calm t q (t.task q) :=
  h.calm_of rfl rfl (Or.inl rfl) fun _ => Or.inr ⟨rfl, rfl⟩

theorem Inv.call_none (h : t.Inv ex) (hc : ¬ (t.task c).Alive) : (t.task c).call = .none := by
  cases hcall : (t.task c).call with
  | none => rfl
  | fork np b => exact (hc (h.forking c np b hcall).1).elim
  | wait =>
    rcases h.waiting c hcall with hs | ⟨hs, -⟩
    · exact (hc (Or.inl hs)).elim
    · exact (hc (Or.inr (Or.inr hs))).elim

/-- `wait` empties the slot of a process that has exited. -/
structure Reaped (x y : Task) : Prop where
  zombie : x.state = .zombie
  state : y.state = .unused
  parent : y.parent = none
  call : y.call = x.call

theorem Inv.calm (h : t.Inv ex) (hi : t'.initproc = t.initproc) (hg : t'.gen = t.gen)
    (hm : t'.maker = t.maker) (hq : ∀ q, Calm t q (t'.task q) ∨ Reaped (t.task q) (t'.task q)) :
    t'.Inv ex := by
  have hident : t'.ident = t.ident := by
    funext q
    rw [ident, ident, hg]
  have halive : ∀ q, (t.task q).Alive → (t'.task q).Alive := by
    intro q ha
    rcases hq q with hc | hr
    · exact hc.alive ha
    · exact (ha.ne.2.2 hr.zombie).elim
  have hpar : ∀ q w, (t'.task q).parent = some w → (t.task q).parent = some w := by
    intro q w hw
    rcases hq q with hc | hr
    · exact hc.parent.symm.trans hw
    · rw [hr.parent] at hw
      cases hw
  have hfork : ∀ q np b, (t'.task q).call = .fork np b ↔ (t.task q).call = .fork np b := by
    intro q np b
    rcases hq q with hc | hr
    · exact hc.fork np b
    · rw [hr.call]
  have hused : ∀ q, (t'.task q).state ≠ .unused → Calm t q (t'.task q) := fun q hu =>
    (hq q).resolve_right fun hr => hu hr.state
  have hwait : ∀ q, (t'.task q).call = .wait → Calm t q (t'.task q) := by
    intro q hw
    refine (hq q).resolve_right fun hr => ?_
    rw [hr.call, h.call_none fun ha => ha.ne.2.2 hr.zombie] at hw
    cases hw
  refine ⟨?_, fun c hc hu he => ?_, fun c hu => ?_, fun c w he hp => ?_, fun p np b hf => ?_,
    fun p q np b b' hp hq' => ?_, fun p hw => ?_, fun p c hs hw hp hz => ?_, ?_,
    fun c hc => h.other c (hpar c c hc)⟩
  · rw [hi]
    exact halive _ h.init
  · rw [hi] at hc
    have hcalm := hused c hu
    obtain ⟨w, hw, ha, hr⟩ := h.parent c hc
      (fun hx => hu ((hcalm.state_iff (by simp)).mpr hx))
      (fun hx => he ((hcalm.state_iff (by simp)).mpr hx))
    refine ⟨w, hcalm.parent.trans hw, halive w ha, ?_⟩
    unfold MayReap
    rw [hm, hident, hi]
    exact hr
  · rcases hq c with hc | hr
    · rw [hc.parent]
      exact h.unused c ((hc.state_iff (by simp)).mp hu)
    · exact hr.parent
  · have hcalm := hused c (by simp [he])
    rw [hfork]
    exact h.embryo c w ((hcalm.state_iff (by simp)).mp he) (hpar c w hp)
  · obtain ⟨ha, he, hb⟩ := h.forking p np b ((hfork p np b).mp hf)
    have hcalm : Calm t np (t'.task np) := (hq np).resolve_right fun hr => by simp [hr.zombie] at he
    rw [hm, hident, hcalm.parent]
    exact ⟨halive p ha, (hcalm.state_iff (by simp)).mpr he, hb⟩
  · exact h.unique p q np b b' ((hfork ..).mp hp) ((hfork ..).mp hq')
  · exact ((hwait p hw).wait hw).imp_right fun hs => ⟨hs.1, hs.2.1⟩
  · rcases (hwait p hw).wait hw with hr | ⟨-, -, hno⟩
    · rw [hs] at hr
      cases hr
    · have hcalm := hused c (by simp [hz])
      exact hno c (hpar c p hp) ((hcalm.state_iff (by simp)).mp hz)
  · rw [hi]
    rcases hq t.initproc with hc | hr
    · rw [hc.parent]
      exact h.root
    · exact hr.parent

/-- What a step does to slots that hold no process or one that has exited. -/
structure Effect (t : Ptable) (e : TreeEvent) (t' : Ptable) : Prop where
  gen : ∀ c, t.gen c ≤ t'.gen c
  zombie : ∀ c, (t'.task c).state = .zombie →
    (t.task c).state = .zombie ∧ t'.gen c = t.gen c ∨ e = .exited (t'.ident c)
  unused : ∀ c, (t.task c).state = .unused → t'.gen c = t.gen c → (t'.task c).state = .unused
  reaped : ∀ w c, e = .reaped w c → w = t.ident w.1 ∧ c = t.ident c.1 ∧
    (t.task c.1).state = .zombie ∧ (t.task c.1).parent = some w.1 ∧
    (t'.task c.1).state = .unused ∧ t'.gen c.1 = t.gen c.1

theorem Effect.quiet {e : TreeEvent} (hg : t'.gen = t.gen)
    (hz : ∀ c, (t'.task c).state = .zombie → (t.task c).state = .zombie)
    (hu : ∀ c, (t.task c).state = .unused → (t'.task c).state = .unused)
    (he : ∀ w c, e ≠ .reaped w c) : Effect t e t' :=
  ⟨fun c => by rw [hg], fun c hc => Or.inl ⟨hz c hc, by rw [hg]⟩, fun c hc _ => hu c hc,
    fun w c h => (he w c h).elim⟩

theorem Effect.calm (hg : t'.gen = t.gen) (hq : ∀ q, Calm t q (t'.task q)) : Effect t .silent t' :=
  .quiet hg (fun c hc => ((hq c).state_iff (by simp)).mp hc)
    (fun c hc => ((hq c).state_iff (by simp)).mpr hc) nofun

theorem Inv.calm_set {x : Task} (h : t.Inv ex) (hx : Calm t p x) :
    (t.set p x).Inv ex ∧ Effect t .silent (t.set p x) := by
  have hq : ∀ q, Calm t q ((t.set p x).task q) := by
    intro q
    by_cases hqp : q = p
    · subst hqp
      rw [task_set_self]
      exact hx
    · rw [task_set_ne _ hqp]
      exact h.calm_refl q
  exact ⟨h.calm rfl rfl rfl fun q => Or.inl (hq q), .calm rfl hq⟩

theorem Inv.reap {y : Task} (h : t.Inv ex) (hy : Reaped (t.task c) y) : (t.set c y).Inv ex := by
  refine h.calm rfl rfl rfl fun q => ?_
  by_cases hqc : q = c
  · subst hqc
    rw [task_set_self]
    exact Or.inr hy
  · rw [task_set_ne _ hqc]
    exact Or.inl (h.calm_refl q)

theorem children_find {c : Fin NPROC}
    (h : (t.children p).find? (fun q => (t.task q).state = .zombie) = some c) :
    (t.task c).parent = some p ∧ (t.task c).state = .zombie := by
  have hmem := List.mem_of_find?_eq_some h
  have hz := List.find?_some h
  simp only [children, List.mem_filter, decide_eq_true_eq] at hmem
  exact ⟨hmem.2, of_decide_eq_true hz⟩

theorem children_none
    (h : (t.children p).find? (fun q => (t.task q).state = .zombie) = none) (c : Fin NPROC)
    (hc : (t.task c).parent = some p) : (t.task c).state ≠ .zombie := by
  have hmem : c ∈ t.children p := by simp [children, hc]
  have hnot := List.find?_eq_none.mp h c hmem
  intro hz
  exact hnot (decide_eq_true hz)

/-- Process `p`, on its CPU, scans the table in `wait`. -/
theorem Inv.scan {x : Task} (h : t.Inv ex) (hp : (t.task p).Alive)
    (hcall : ∀ np b, (t.task p).call ≠ .fork np b) (hx : x.state = .running)
    (hparent : x.parent = (t.task p).parent) : ((t.set p x).scan p).2.Inv ex ∧
    Effect t ((t.set p x).scan p).1 ((t.set p x).scan p).2 ∧ ((t.set p x).scan p).1.exits = [] := by
  have hset : ∀ y z : Task, (t.set p y).set p z = t.set p z := by
    intro y z
    simp [set]
  have hne : ∀ c, ((t.set p x).task c).state = .zombie → c ≠ p := by
    rintro c hz rfl
    rw [task_set_self, hx] at hz
    cases hz
  unfold Ptable.scan
  split
  · rename_i c hfind
    obtain ⟨hpc, hz⟩ := children_find hfind
    have hcp := hne c hz
    rw [task_set_ne _ hcp] at hpc hz
    have hcomm : ∀ y z : Task, ((t.set p x).set c y).set p z = (t.set c y).set p z := by
      intro y z
      unfold set
      dsimp only
      rw [Function.update_comm hcp.symm, Function.update_idem]
    dsimp only
    rw [hcomm, task_set_self, task_set_ne _ hcp]
    have hreap := h.reap (y := { t.task c with
      pid := 0, parent := none, killed := false, state := .unused }) ⟨hz, rfl, rfl, rfl⟩
    have hself := task_set_ne (t := t) { t.task c with
      pid := 0, parent := none, killed := false, state := .unused } hcp.symm
    obtain ⟨hinv, heff⟩ := hreap.calm_set (p := p) (x := { x with call := .none })
      ⟨hself ▸ hparent, Or.inr ⟨hself ▸ hp, Or.inr (Or.inl hx)⟩,
        fun np b => iff_of_false nofun (hself ▸ hcall np b), nofun⟩
    refine ⟨hinv, ⟨fun _ => le_rfl, fun d hd => ?_, fun d hd _ => ?_, fun w d he => ?_⟩, rfl⟩
    · rcases heff.zombie d hd with ⟨hd, -⟩ | he
      · have hdc : d ≠ c := by
          rintro rfl
          rw [task_set_self] at hd
          cases hd
        exact Or.inl ⟨task_set_ne (t := t) _ hdc ▸ hd, rfl⟩
      · cases he
    · refine heff.unused d ?_ rfl
      by_cases hdc : d = c
      · rw [hdc, task_set_self]
      · rwa [task_set_ne _ hdc]
    · cases he
      refine ⟨rfl, rfl, hz, hpc, ?_, rfl⟩
      change (((t.set c _).set p _).task c).state = _
      rw [task_set_ne _ hcp, task_set_self]
  · rename_i hfind
    have hchild : ∀ c, ((t.set p x).task c).parent = (t.task c).parent := by
      intro c
      by_cases hcp : c = p
      · subst hcp
        rw [task_set_self, hparent]
      · rw [task_set_ne _ hcp]
    have hnone : ∀ c, (t.task c).parent = some p → (t.task c).state ≠ .zombie := fun c hc hz => by
      have hcp : c ≠ p := by
        rintro rfl
        exact hp.ne.2.2 hz
      exact children_none hfind c ((hchild c).trans hc) (by rwa [task_set_ne _ hcp])
    have hfork : ∀ y : Task, (∀ np b, y.call ≠ .fork np b) →
        ∀ np b, y.call = .fork np b ↔ (t.task p).call = .fork np b := fun y hy np b =>
      iff_of_false (hy np b) (hcall np b)
    split
    · dsimp only
      rw [hset, task_set_self]
      obtain ⟨hinv, heff⟩ := h.calm_set (p := p) (x := { x with call := .none })
        ⟨hparent, Or.inr ⟨hp, Or.inr (Or.inl hx)⟩, hfork _ nofun, nofun⟩
      exact ⟨hinv, heff, rfl⟩
    · dsimp only
      rw [hset, task_set_self]
      obtain ⟨hinv, heff⟩ := h.calm_set (p := p)
        (x := { x with call := .wait, chan := some (.proc p), state := .sleeping })
        ⟨hparent, Or.inr ⟨hp, Or.inr (Or.inr rfl)⟩, hfork _ nofun, fun _ => Or.inr ⟨rfl, rfl, hnone⟩⟩
      exact ⟨hinv, heff, rfl⟩

/-- A step of a call of `fork` by process `p`, which changes `p` itself and the slot `np`. -/
theorem Inv.of_fork {x y : Task} (h : t.Inv ex) (hp : (t.task p).Alive) (hpn : p ≠ np)
    (hnp : (t.task np).state = .unused ∨ (t.task np).state = .embryo)
    (hx : t'.task p = { t.task p with call := x.call }) (hxw : x.call ≠ .wait)
    (hy : t'.task np = { t.task np with state := y.state, parent := y.parent, pid := y.pid })
    (hother : ∀ q, q ≠ p → q ≠ np → t'.task q = t.task q) (hi : t'.initproc = t.initproc)
    (hgen : ∀ q, q ≠ np → t'.gen q = t.gen q) (hmaker : ∀ q, q ≠ np → t'.maker q = t.maker q)
    (hstate : y.state = .embryo ∨ y.state = .runnable ∧ y.parent = some p ∧
      t'.maker np = some (t.ident p))
    (hpar : y.parent = (t.task np).parent ∨ y.parent = some p)
    (hadopt : y.state = .embryo → y.parent = some p → x.call = .fork np true)
    (hcall : ∀ n b, x.call = .fork n b → n = np ∧ y.state = .embryo ∧
      (b = true → y.parent = some p ∧ t'.maker np = some (t.ident p)))
    (hold : ∀ q b, (t.task q).call = .fork np b → q = p)
    (hkept : ∀ n b, (t.task p).call = .fork n b → n = np) : t'.Inv ex := by
  have hndead : ¬ (t.task np).Alive := by
    intro ha
    rcases hnp with hnp | hnp
    · exact ha.ne.1 hnp
    · exact ha.ne.2.1 hnp
  have hncall := h.call_none hndead
  have halive : ∀ q, (t.task q).Alive → q ≠ np ∧ (t'.task q).Alive := by
    intro q hq
    have hqn : q ≠ np := by
      rintro rfl
      exact hndead hq
    refine ⟨hqn, ?_⟩
    by_cases hqp : q = p
    · subst hqp
      rw [hx]
      exact hq
    · rwa [hother q hqp hqn]
  have hident : ∀ q, q ≠ np → t'.ident q = t.ident q := fun q hq => by
    rw [ident, ident, hgen q hq]
  have hsame : ∀ q, q ≠ np → (t'.task q).state = (t.task q).state ∧
      (t'.task q).parent = (t.task q).parent ∧ (t'.task q).chan = (t.task q).chan := by
    intro q hq
    by_cases hqp : q = p
    · subst hqp
      rw [hx]
      exact ⟨rfl, rfl, rfl⟩
    · rw [hother q hqp hq]
      exact ⟨rfl, rfl, rfl⟩
  have hcalls : ∀ q, q ≠ p → (t'.task q).call = (t.task q).call := by
    intro q hqp
    by_cases hqn : q = np
    · subst hqn
      rw [hy]
    · rw [hother q hqp hqn]
  have hcallp : (t'.task p).call = x.call := by rw [hx]
  have hsn : (t'.task np).state = y.state := by rw [hy]
  have hpn' : (t'.task np).parent = y.parent := by rw [hy]
  have hinit : t.initproc ≠ np := (halive _ h.init).1
  have hyne : y.state ≠ .unused ∧ y.state ≠ .zombie := by
    rcases hstate with hs | ⟨hs, -⟩ <;> simp [hs]
  have hparn : ∀ w, (t'.task np).parent = some w → w = p ∨ (t.task np).parent = some w := by
    intro w hw
    rw [hpn'] at hw
    rcases hpar with he | he
    · exact Or.inr (he.symm.trans hw)
    · exact Or.inl (Option.some.inj (hw.symm.trans he))
  have hwait : ∀ q, (t'.task q).call = .wait → q ≠ np ∧ (t.task q).call = .wait := by
    intro q hw
    have hqp : q ≠ p := by
      rintro rfl
      exact hxw (hcallp.symm.trans hw)
    rw [hcalls q hqp] at hw
    refine ⟨?_, hw⟩
    rintro rfl
    rw [hncall] at hw
    cases hw
  refine ⟨?_, fun c hc hu he => ?_, fun c hu => ?_, fun c w he hw => ?_, fun q n b hf => ?_,
    fun q r n b b' hq hr => ?_, fun q hw => ?_, fun q c hs hw hpc hz => ?_, ?_, fun c hc => ?_⟩
  · rw [hi]
    exact (halive _ h.init).2
  · rw [hi] at hc
    unfold MayReap
    rw [hi]
    by_cases hcn : c = np
    · subst hcn
      rw [hsn] at he
      rcases hstate with hs | ⟨-, hpp, hm⟩
      · exact (he hs).elim
      · exact ⟨p, hpn'.trans hpp, (halive p hp).2, Or.inl (by rw [hident p hpn]; exact hm)⟩
    · obtain ⟨h1, h2, -⟩ := hsame c hcn
      rw [h1] at hu he
      obtain ⟨w, hw, ha, hr⟩ := h.parent c hc hu he
      refine ⟨w, h2.trans hw, (halive w ha).2, ?_⟩
      rw [hmaker c hcn, hident w (halive w ha).1]
      exact hr
  · by_cases hcn : c = np
    · subst hcn
      exact (hyne.1 (hsn.symm.trans hu)).elim
    · obtain ⟨h1, h2, -⟩ := hsame c hcn
      rw [h1] at hu
      rw [h2]
      exact h.unused c hu
  · by_cases hcn : c = np
    · subst hcn
      have hwp : w = p := by
        rcases hparn w hw with hwp | hw'
        · exact hwp
        rcases hnp with hn | hn
        · rw [h.unused c hn] at hw'
          cases hw'
        · exact hold w true (h.embryo c w hn hw')
      subst hwp
      rw [hcallp]
      exact hadopt (hsn.symm.trans he) (hpn'.symm.trans hw)
    · obtain ⟨h1, h2, -⟩ := hsame c hcn
      rw [h1] at he
      rw [h2] at hw
      have hfork := h.embryo c w he hw
      have hwp : w ≠ p := by
        rintro rfl
        exact hcn (hkept c true hfork)
      rw [hcalls w hwp]
      exact hfork
  · by_cases hqp : q = p
    · subst hqp
      rw [hcallp] at hf
      obtain ⟨rfl, he, hb⟩ := hcall n b hf
      rw [hident q hpn]
      exact ⟨(halive q hp).2, hsn.trans he, fun hbt => ⟨hpn'.trans (hb hbt).1, (hb hbt).2⟩⟩
    · rw [hcalls q hqp] at hf
      obtain ⟨ha, he, hb⟩ := h.forking q n b hf
      have hnn : n ≠ np := by
        rintro rfl
        exact hqp (hold q b hf)
      obtain ⟨h1, h2, -⟩ := hsame n hnn
      rw [h1, h2, hmaker n hnn, hident q (halive q ha).1]
      exact ⟨(halive q ha).2, he, hb⟩
  · by_cases hqp : q = p
    · subst hqp
      rw [hcallp] at hq
      obtain ⟨rfl, -⟩ := hcall n b hq
      by_contra hne
      rw [hcalls r (Ne.symm hne)] at hr
      exact hne (hold r b' hr).symm
    · rw [hcalls q hqp] at hq
      by_cases hrp : r = p
      · subst hrp
        rw [hcallp] at hr
        obtain ⟨rfl, -⟩ := hcall n b' hr
        exact hold q b hq
      · rw [hcalls r hrp] at hr
        exact h.unique q r n b b' hq hr
  · obtain ⟨hqn, hw⟩ := hwait q hw
    obtain ⟨h1, -, h3⟩ := hsame q hqn
    rw [h1, h3]
    exact h.waiting q hw
  · obtain ⟨hqn, hw⟩ := hwait q hw
    have hcn : c ≠ np := by
      rintro rfl
      exact hyne.2 (hsn.symm.trans hz)
    rw [(hsame q hqn).1] at hs
    rw [(hsame c hcn).2.1] at hpc
    rw [(hsame c hcn).1] at hz
    exact h.sleeper q c hs hw hpc hz
  · rw [hi, (hsame _ hinit).2.1]
    exact h.root
  · by_cases hcn : c = np
    · subst hcn
      rcases hparn c hc with rfl | hc'
      · exact hpn rfl
      · exact h.other c hc'
    · rw [(hsame c hcn).2.1] at hc
      exact h.other c hc

end Ptable

end Xv6
