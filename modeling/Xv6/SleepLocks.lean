import Xv6.Lib.Outcome
import Xv6.Sleep

/-!
Who runs, and who holds the locks. Each statement is given the locks that a process holds
there; a lock then has the processor that runs such a process for its holder, and a process
that is in no processor stands behind its `swtch`.
-/

namespace Xv6.Sleep

open Function Lib Sys

def Pc.holds (lk : Lock) : Pc → Lock → Bool
  | idle, _ | enter _, _ | reacquire, _ | yield _, _ => false
  | test, l | leave, l | setCond, l | sleepAcquire, l | wakeup, l => l = lk
  | sleepRelease, l | scan _, l | wakeupRelease, l => l = lk ∨ l = .ptable
  | setChan, l | setState, l | sched, l | clearChan, l | woken, l => l = .ptable
  | yieldSet _, l | yieldSched _, l | yieldRelease _, l => l = .ptable

/-- The statements that occur with `lk`; only a process that holds no lock is preempted. -/
def Pc.Used (lk : Lock) : Pc → Prop
  | sleepAcquire | sleepRelease | woken | reacquire | wakeup | wakeupRelease => lk = .own
  | yield next | yieldSet next | yieldSched next | yieldRelease next =>
    next.Used lk ∧ next.holds lk = fun _ => false
  | _ => True

/-- At the call of `sched`. -/
def Pc.parked : Pc → Bool
  | sched | yieldSched _ => true
  | _ => false

/-- Behind the `swtch` in `sched`. -/
def Pc.switched : Pc → Bool
  | clearChan | yieldRelease _ => true
  | _ => false

/-- The condition was false, and `lk` is still held. -/
def Pc.dozes : Pc → Bool
  | sleepAcquire | sleepRelease => true
  | _ => false

/-- Under `ptable.lock`, and not yet `SLEEPING`. -/
def Pc.drops : Pc → Bool
  | setChan | setState => true
  | _ => false

/-- The condition is true, and `wakeup1` still comes to slot `q`. -/
def Pc.reaches (q : Fin NPROC) : Pc → Bool
  | wakeup => true
  | scan i => i ≤ q
  | _ => false

/-- What carries over from a statement to the next one. -/
@[mk_iff] structure Flow (lk : Lock) (a next : Pc) : Prop where
  used : next.Used lk
  dozes : next.dozes = true → a.dozes = true
  drops : next.drops = true → a.dozes = true ∨ a.drops = true
  reaches : ∀ q, a.reaches q = true → next.reaches q = true

/-- What the operation at statement `a` relies on. -/
def Op.Fits (lk : Lock) (a : Pc) : Op → Prop
  | .stop => True
  | .skip next => next.holds lk = a.holds lk ∧ Flow lk a next ∧ a.parked = false ∧ next.parked = false
  | .acquire l next =>
    a.holds lk l = false ∧ next.holds lk = update (a.holds lk) l true ∧ Flow lk a next ∧
      a.parked = false ∧ next.parked = false
  | .release l next =>
    a.holds lk l = true ∧ next.holds lk = update (a.holds lk) l false ∧ Flow lk a next ∧
      a.parked = false ∧ next.parked = false
  | .test yes no =>
    a.holds lk = yes.holds lk ∧ a.holds lk = no.holds lk ∧ Flow lk a yes ∧ no.Used lk ∧
      a.parked = false ∧ yes.parked = false ∧ no.parked = false
  | .setCond next =>
    next.holds lk = a.holds lk ∧ a.holds lk lk = true ∧ next.Used lk ∧ a.parked = false ∧
      next.parked = false ∧ next.dozes = false ∧ ∀ q, next.reaches q = true
  | .setChan _ next =>
    next.holds lk = a.holds lk ∧ Flow lk a next ∧ a.parked = false ∧ next.parked = false
  | .setState x next =>
    next.holds lk = a.holds lk ∧ Flow lk a next ∧ a.parked = false ∧ next.parked = true ∧
      x ≠ .running ∧ (x = .sleeping → a.drops = true)
  | .swtch next =>
    a.holds lk = (fun l => decide (l = .ptable)) ∧ Flow lk a next ∧ a.parked = true ∧
      next.switched = true
  | .wake i next =>
    next.holds lk = a.holds lk ∧ a.holds lk .ptable = true ∧ next.Used lk ∧ a.parked = false ∧
      next.parked = false ∧ next.dozes = false ∧ next.drops = false ∧
      ∀ q, a.reaches q = true → q ≠ i → next.reaches q = true

theorem Lock.forall {f : Lock → Prop} : (∀ l, f l) ↔ f .ptable ∧ f .own :=
  ⟨fun h => ⟨h _, h _⟩, fun h l => by cases l <;> simp [h]⟩

theorem Pc.calm {lk : Lock} {a : Pc} (h : a.holds lk = fun _ => false) :
    a.parked = false ∧ a.dozes = false ∧ a.drops = false ∧ ∀ q, a.reaches q = false := by
  have hlk := congrFun h lk
  have htable := congrFun h .ptable
  cases a <;> simp_all [holds, parked, dozes, drops, reaches]

theorem Pc.fits {lk : Lock} {a : Pc} (h : a.Used lk) : (a.op lk).Fits lk a := by
  cases a with
  | idle => trivial
  | enter r =>
    cases r <;> cases lk <;>
      simp [op, Op.Fits, holds, parked, funext_iff, Lock.forall, flow_iff, Used, dozes, drops, reaches]
  | scan i =>
    by_cases hi : i < NPROC
    · have hnext : ∀ q : Fin NPROC, i ≤ q → q ≠ ⟨i, hi⟩ → i + 1 ≤ q := fun q hq hne =>
        Nat.lt_of_le_of_ne hq (fun heq => hne (Fin.ext heq.symm))
      cases lk <;> simpa [op, hi, Op.Fits, holds, funext_iff, parked, Used, dozes, drops, reaches] using hnext
    · have hlast : ∀ q : Fin NPROC, q < i := fun q => by omega
      cases lk <;>
        simpa [op, hi, Op.Fits, holds, parked, flow_iff, funext_iff, Lock.forall, Used, dozes, drops,
          reaches] using hlast
  | yield next | yieldSet next | yieldSched next =>
    cases lk <;>
      simp_all [op, Op.Fits, holds, parked, funext_iff, Lock.forall, flow_iff, Used, dozes, drops,
        reaches, switched]
  | yieldRelease next =>
    obtain ⟨hparked, hdozes, hdrops, -⟩ := calm h.2
    have hused := h.1
    have hholds : ∀ l, next.holds lk l = false := fun l => congrFun h.2 l
    refine ⟨by simp [holds], ?_, ⟨hused, by simp [hdozes], by simp [hdrops], by simp [reaches]⟩, rfl, hparked⟩
    funext l
    rw [hholds l]
    cases l <;> simp [holds]
  | _ =>
    cases lk <;>
      simp_all [op, Op.Fits, holds, parked, funext_iff, Lock.forall, flow_iff, Used, dozes, drops,
        reaches, switched]

def Sys.holds (lk : Lock) (s : Sys) (c : Nat) (l : Lock) : Bool :=
  match s.cpu c with
  | .runs p => (s.pc p).holds lk l
  | .acquire => false
  | .look _ | .release => l = .ptable

structure Tidy (lk : Lock) (s : Sys) : Prop where
  used : ∀ p, (s.pc p).Used lk
  lock : ∀ c l, s.holder l = some c ↔ s.holds lk c l = true
  placed : ∀ p, (s.pc p).switched = true ∨ ∃ c, s.cpu c = .runs p
  unique : ∀ {c c' p}, s.cpu c = .runs p → s.cpu c' = .runs p → c = c'
  running : ∀ {c p}, s.cpu c = .runs p → (s.state p = .running ↔ (s.pc p).parked = false)

section
variable {lk : Lock} {s t : Sys} {c : Nat} {p q : Fin NPROC} {l : Lock} {next : Pc} {take : Bool}

structure Moves (lk : Lock) (s : Sys) (c : Nat) (p : Fin NPROC) (next : Pc) (t : Sys) : Prop where
  cpu : t.cpu = s.cpu
  pc : t.pc = update s.pc p next
  used : next.Used lk
  own : ∀ l, t.holder l = some c ↔ next.holds lk l = true
  other : ∀ c', c' ≠ c → ∀ l, t.holder l = some c' ↔ s.holder l = some c'
  self : t.state p = .running ↔ next.parked = false
  state : ∀ q, q ≠ p → t.state q = s.state q ∨ s.state q = .sleeping ∧ t.state q = .runnable
  chan : ∀ q, q ≠ p → t.chan q = s.chan q

theorem Sys.holds_runs (h : s.cpu c = .runs p) : s.holds lk c l = (s.pc p).holds lk l := by
  rw [Sys.holds, h]

theorem Sys.holds_congr {c' : Nat} (hcpu : t.cpu c' = s.cpu c')
    (hpc : ∀ q, s.cpu c' = .runs q → t.pc q = s.pc q) : t.holds lk c' l = s.holds lk c' l := by
  rw [Sys.holds, Sys.holds, hcpu]
  cases h : s.cpu c' with
  | runs q => simp only [hpc q h]
  | acquire | look _ | release => rfl

theorem Tidy.holder_runs (h : Tidy lk s) (hcpu : s.cpu c = .runs p) :
    s.holder l = some c ↔ (s.pc p).holds lk l = true := by
  rw [h.lock, holds_runs hcpu]

theorem Tidy.exclusive (h : Tidy lk s) (hc : s.holder l = some c) (hswitched : (s.pc q).switched = false)
    (hq : (s.pc q).holds lk l = true) : s.cpu c = .runs q := by
  obtain hs | ⟨c', hc'⟩ := h.placed q
  · rw [hswitched] at hs
    cases hs
  · have hheld := (h.holder_runs hc').mpr hq
    rw [hc] at hheld
    rw [Option.some.inj hheld]
    exact hc'

theorem Moves.tidy (m : Moves lk s c p next t) (h : Tidy lk s) (hcpu : s.cpu c = .runs p) : Tidy lk t := by
  have hpc : ∀ q, q ≠ p → t.pc q = s.pc q := fun q hq => by rw [m.pc, update_of_ne hq]
  have hself : t.pc p = next := by rw [m.pc, update_self]
  have hne : ∀ {c' q}, s.cpu c' = .runs q → c' ≠ c → q ≠ p := fun hq hc' heq =>
    hc' (h.unique (heq ▸ hq) hcpu)
  refine ⟨fun q => ?_, fun c' l => ?_, fun q => ?_, fun hq hq' => ?_, fun {c' q} hq => ?_⟩
  · by_cases hq : q = p
    · rw [hq, hself]
      exact m.used
    · rw [hpc q hq]
      exact h.used q
  · by_cases hc' : c' = c
    · have ht : t.cpu c = .runs p := by rw [m.cpu, hcpu]
      rw [hc', m.own, holds_runs ht, hself]
    · rw [m.other c' hc', h.lock, holds_congr (congrFun m.cpu c') fun q hq => hpc q (hne hq hc')]
  · by_cases hq : q = p
    · exact .inr ⟨c, by rw [m.cpu, hcpu, hq]⟩
    · rw [hpc q hq, m.cpu]
      exact h.placed q
  · rw [m.cpu] at hq hq'
    exact h.unique hq hq'
  · rw [m.cpu] at hq
    by_cases heq : q = p
    · rw [heq, hself]
      exact m.self
    · rw [hpc q heq, ← h.running hq]
      obtain hst | ⟨hs, ht⟩ := m.state q heq
      · rw [hst]
      · simp [hs, ht]

section
variable (h : Tidy lk s) (hcpu : s.cpu c = .runs p) (hused : next.Used lk)
  (hholds : next.holds lk = (s.pc p).holds lk)
include h hcpu hused hholds

theorem Tidy.moves (hcpus : t.cpu = s.cpu) (hholder : t.holder = s.holder)
    (hpc : t.pc = update s.pc p next) (hself : t.state p = .running ↔ next.parked = false)
    (hstate : ∀ q, q ≠ p → t.state q = s.state q ∨ s.state q = .sleeping ∧ t.state q = .runnable)
    (hchan : ∀ q, q ≠ p → t.chan q = s.chan q) : Moves lk s c p next t where
  cpu := hcpus
  pc := hpc
  used := hused
  own l := by rw [hholder, hholds, ← h.holder_runs hcpu]
  other c' _ l := by rw [hholder]
  self := hself
  state := hstate
  chan := hchan

theorem Tidy.goto (hparked : (s.pc p).parked = false)
    (hnext : next.parked = false) : Moves lk s c p next (s.goto p next) := by
  refine h.moves hcpu hused hholds rfl rfl rfl ?_ (fun _ _ => .inl rfl) fun _ _ => rfl
  exact iff_of_true ((h.running hcpu).mpr hparked) hnext

end

theorem Sys.acquire_ok (h : s.acquire c l = .ok t) :
    s.holder l = none ∧ t = { s with holder := update s.holder l (some c) } := by
  unfold Sys.acquire at h
  split at h
  · cases h
  · split at h
    · cases h
      exact ⟨‹_›, rfl⟩
    · cases h

theorem Sys.release_ok (h : s.release c l = .ok t) :
    s.holder l = some c ∧ t = { s with holder := update s.holder l none } := by
  unfold Sys.release at h
  split at h
  · cases h
    exact ⟨‹_›, rfl⟩
  · cases h

section
variable (h : Tidy lk s)
include h

theorem Tidy.relock (hcpu : s.cpu c = .runs p) (hused : next.Used lk) {held : Bool}
    {holder : Option Nat} (hholds : next.holds lk = update ((s.pc p).holds lk) l held)
    (hown : holder = some c ↔ held = true) (hother : ∀ c', c' ≠ c → (holder = some c' ↔ s.holder l = some c'))
    (hparked : (s.pc p).parked = false) (hnext : next.parked = false) :
    Moves lk s c p next ({ s with holder := update s.holder l holder }.goto p next) := by
  refine ⟨rfl, rfl, hused, fun l' => ?_, fun c' hc' l' => ?_, ?_, fun _ _ => .inl rfl, fun _ _ => rfl⟩
  · change update s.holder l holder l' = some c ↔ _
    rw [hholds]
    by_cases hl : l' = l
    · rw [hl, update_self, update_self, hown]
    · rw [update_of_ne hl, update_of_ne hl]
      exact h.holder_runs hcpu
  · change update s.holder l holder l' = some c' ↔ _
    by_cases hl : l' = l
    · rw [hl, update_self, hother c' hc']
    · rw [update_of_ne hl]
  · exact iff_of_true ((h.running hcpu).mpr hparked) hnext

/-- A processor turns to `x`, and the other processors go on with what they do. -/
theorem Tidy.turn {x : Ctx} (hcpu : t.cpu = update s.cpu c x)
    (hused : ∀ q, (t.pc q).Used lk) (hown : ∀ l, t.holder l = some c ↔ t.holds lk c l = true)
    (hother : ∀ c', c' ≠ c → ∀ l, t.holder l = some c' ↔ s.holder l = some c')
    (hpc : ∀ c' q, c' ≠ c → s.cpu c' = .runs q → t.pc q = s.pc q ∧ t.state q = s.state q ∧ x ≠ .runs q)
    (hplaced : ∀ q, (t.pc q).switched = true ∨ ∃ c', t.cpu c' = .runs q)
    (hself : ∀ q, x = .runs q → (t.state q = .running ↔ (t.pc q).parked = false)) : Tidy lk t := by
  have hne : ∀ c', c' ≠ c → t.cpu c' = s.cpu c' := fun c' hc' => by rw [hcpu, update_of_ne hc']
  have heq : t.cpu c = x := by rw [hcpu, update_self]
  refine ⟨hused, fun c' l => ?_, hplaced, fun {c1 c2 q} h1 h2 => ?_, fun {c' q} hq => ?_⟩
  · by_cases hc' : c' = c
    · rw [hc']
      exact hown l
    · rw [hother c' hc', h.lock, holds_congr (hne c' hc') fun q hq => (hpc c' q hc' hq).1]
  · by_cases hc1 : c1 = c
    · by_cases hc2 : c2 = c
      · rw [hc1, hc2]
      · rw [hne c2 hc2] at h2
        exact absurd (heq ▸ hc1 ▸ h1) (hpc c2 q hc2 h2).2.2
    · rw [hne c1 hc1] at h1
      by_cases hc2 : c2 = c
      · exact absurd (heq ▸ hc2 ▸ h2) (hpc c1 q hc1 h1).2.2
      · rw [hne c2 hc2] at h2
        exact h.unique h1 h2
  · by_cases hc' : c' = c
    · exact hself q (heq ▸ hc' ▸ hq)
    · rw [hne c' hc'] at hq
      obtain ⟨hpcq, hst, -⟩ := hpc c' q hc' hq
      rw [hpcq, hst]
      exact h.running hq

theorem Tidy.look {x : Ctx} (hs : ∀ q, s.cpu c ≠ .runs q) (hx : ∀ q, x ≠ .runs q)
    (hcpu : t.cpu = update s.cpu c x) (hpc : t.pc = s.pc) (hstate : t.state = s.state)
    (hown : ∀ l, t.holder l = some c ↔ t.holds lk c l = true)
    (hother : ∀ c', c' ≠ c → ∀ l, t.holder l = some c' ↔ s.holder l = some c') : Tidy lk t := by
  refine h.turn hcpu (fun q => hpc ▸ h.used q) hown hother
    (fun c' q _ _ => ⟨by rw [hpc], by rw [hstate], hx q⟩) (fun q => ?_) fun q hq => absurd hq (hx q)
  rw [hpc]
  refine (h.placed q).imp_right fun ⟨c', hc'⟩ => ⟨c', ?_⟩
  rw [hcpu, update_of_ne, hc']
  rintro rfl
  exact hs q hc'

theorem Tidy.swtch (hcpu : s.cpu c = .runs p) (hused : next.Used lk)
    (htable : (s.pc p).holds lk = fun l => decide (l = .ptable)) (hswitched : next.switched = true) :
    Tidy lk ((s.goto p next).turn c (.look (p + 1))) := by
  have hself : update s.pc p next p = next := update_self ..
  have hpc : ∀ q, q ≠ p → update s.pc p next q = s.pc q := fun q hq => update_of_ne hq ..
  refine h.turn rfl (fun q => ?_) (fun l => ?_) (fun _ _ _ => Iff.rfl) (fun c' q hc' hq => ?_) (fun q => ?_)
    fun q hq => by cases hq
  · change (update s.pc p next q).Used lk
    by_cases hq : q = p
    · rwa [hq, hself]
    · rw [hpc q hq]
      exact h.used q
  · change s.holder l = some c ↔ _
    rw [h.holder_runs hcpu, htable]
    simp [Sys.holds, Sys.turn]
  · have hne : q ≠ p := fun heq => hc' (h.unique (heq ▸ hq) hcpu)
    exact ⟨hpc q hne, rfl, by simp⟩
  · change (update s.pc p next q).switched = true ∨ _
    by_cases hq : q = p
    · rw [hq, hself]
      exact .inl hswitched
    rw [hpc q hq]
    refine (h.placed q).imp_right fun ⟨c', hc'⟩ => ⟨c', ?_⟩
    have hne : c' ≠ c := by
      rintro rfl
      exact hq (Ctx.runs.inj (hc'.symm.trans hcpu))
    exact (update_of_ne hne ..).trans hc'

/-- The scheduler starts a process. It is not on another processor: a `RUNNABLE` process there
would be at its `sched`, with the lock that the scheduler holds. -/
theorem Tidy.dispatch {i : Fin NPROC} {n : Nat} (hcpu : s.cpu c = .look n)
    (hstate : s.state i = .runnable) : Tidy lk ((s.mark i .running).turn c (.runs i)) := by
  have hheld : s.holder .ptable = some c := by
    rw [h.lock, Sys.holds, hcpu]
    rfl
  have hidle : ∀ c', s.cpu c' ≠ .runs i := by
    intro c' hc'
    have hparked : (s.pc i).parked = true := by
      by_contra hp
      have hrun := (h.running hc').mpr (Bool.eq_false_of_not_eq_true hp)
      rw [hstate] at hrun
      cases hrun
    have hholds : (s.pc i).holds lk .ptable = true := by
      cases hcase : s.pc i <;> simp_all [Pc.parked, Pc.holds]
    have hheld' := (h.holder_runs hc').mpr hholds
    rw [hheld] at hheld'
    rw [← Option.some.inj hheld', hcpu] at hc'
    cases hc'
  have hswitched : (s.pc i).switched = true := (h.placed i).resolve_right fun ⟨c', hc'⟩ => hidle c' hc'
  have hfacts : (s.pc i).parked = false ∧ (s.pc i).holds lk = fun l => decide (l = .ptable) := by
    cases hcase : s.pc i <;> simp_all [Pc.switched, Pc.parked, Pc.holds, funext_iff]
  have hne : ∀ {c' q}, s.cpu c' = .runs q → q ≠ i := fun hq heq => hidle _ (heq ▸ hq)
  refine h.turn rfl h.used (fun l => ?_) (fun _ _ _ => Iff.rfl) (fun c' q _ hq => ?_) (fun q => ?_) fun q hq => ?_
  · change s.holder l = some c ↔ _
    rw [h.lock, Sys.holds, hcpu]
    simp [Sys.holds, Sys.turn, Sys.mark, hfacts.2]
  · exact ⟨rfl, update_of_ne (hne hq) .., fun heq => hne hq (Ctx.runs.inj heq).symm⟩
  · refine (h.placed q).imp_right fun ⟨c', hc'⟩ => ⟨c', ?_⟩
    have hcc : c' ≠ c := by
      rintro rfl
      rw [hcpu] at hc'
      cases hc'
    exact (update_of_ne hcc ..).trans hc'
  · obtain rfl := Ctx.runs.inj hq
    exact iff_of_true (update_self ..) hfacts.1

theorem Tidy.schedTests (hcpu : s.cpu c = .runs p)
    (htable : (s.pc p).holds lk = fun l => decide (l = .ptable)) (hparked : (s.pc p).parked = true) :
    s.schedTests c p = .ok () := by
  have hheld : s.holder .ptable = some c := by
    rw [h.holder_runs hcpu, htable]
    rfl
  have hown : s.holder .own ≠ some c := by
    rw [Ne, h.holder_runs hcpu, htable]
    exact Bool.false_ne_true
  have hstate : s.state p ≠ .running := by
    rw [Ne, h.running hcpu, hparked]
    exact Bool.noConfusion
  rw [Sys.schedTests, if_neg (not_not.mpr hheld), if_neg hown, if_neg hstate]
  rfl

end

theorem Sys.acquire_no_panic (h : s.holder l ≠ some c) (msg : String) : s.acquire c l ≠ .error (.panic msg) := by
  rw [Sys.acquire, if_neg h]
  split <;> exact nofun

theorem Sys.release_no_panic (h : s.holder l = some c) (msg : String) : s.release c l ≠ .error (.panic msg) := by
  rw [Sys.release, if_pos h]
  exact nofun

theorem Tidy.no_panic (h : Tidy lk s) (msg : String) : s.exec lk c take ≠ .error (.panic msg) := by
  intro herr
  unfold Sys.exec at herr
  cases hcpu : s.cpu c with
  | runs p =>
    rw [hcpu] at herr
    have hfits := Pc.fits (h.used p)
    dsimp only [Sys.run] at herr
    generalize (s.pc p).op lk = op at hfits herr
    cases op with
    | stop | skip _ | setCond _ | setChan _ _ | setState _ _ => cases herr
    | acquire l next =>
      have hfree : s.holder l ≠ some c := by
        rw [Ne, h.holder_runs hcpu, hfits.1]
        exact Bool.false_ne_true
      obtain hacq | ⟨_, -, hret⟩ := bind_eq_error.mp herr
      · exact acquire_no_panic hfree msg hacq
      · cases hret
    | release l next =>
      obtain hrel | ⟨_, -, hret⟩ := bind_eq_error.mp herr
      · exact release_no_panic ((h.holder_runs hcpu).mpr hfits.1) msg hrel
      · cases hret
    | test yes no =>
      dsimp only at herr
      split at herr <;> cases herr
    | swtch next =>
      obtain ⟨htable, -, hparked, -⟩ := hfits
      obtain htests | ⟨_, -, hret⟩ := bind_eq_error.mp herr
      · rw [h.schedTests hcpu htable hparked] at htests
        cases htests
      · cases hret
    | wake i next =>
      dsimp only at herr
      split at herr <;> cases herr
  | acquire =>
    rw [hcpu] at herr
    have hfree : s.holder .ptable ≠ some c := by
      rw [Ne, h.lock, Sys.holds, hcpu]
      exact Bool.false_ne_true
    obtain hacq | ⟨_, -, hret⟩ := bind_eq_error.mp herr
    · exact acquire_no_panic hfree msg hacq
    · cases hret
  | look i =>
    rw [hcpu] at herr
    dsimp only at herr
    split at herr
    · split at herr <;> cases herr
    · cases herr
  | release =>
    rw [hcpu] at herr
    have hheld : s.holder .ptable = some c := by
      rw [h.lock, Sys.holds, hcpu]
      rfl
    obtain hrel | ⟨_, -, hret⟩ := bind_eq_error.mp herr
    · exact release_no_panic hheld msg hrel
    · cases hret

end

end Xv6.Sleep
