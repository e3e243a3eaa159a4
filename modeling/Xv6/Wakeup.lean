import Xv6.SleepLocks

/-!
No wakeup is lost. The locks say who can be where: a process between its test and its
`swtch` holds `lk` or `ptable.lock`, so that a process that makes the condition true finds
it in the table as `SLEEPING` when its `wakeup1` comes to the slot.
-/

namespace Xv6.Sleep

open Function Lib

def Sys.Asleep (s : Sys) (p : Fin NPROC) : Prop :=
  (s.state p = .sleeping ∧ s.chan p = true) ∨ (s.pc p).drops = true

/-- A process that sleeps while the condition is true has a process on the way to wake it. -/
structure Kept (s : Sys) : Prop where
  dozing : ∀ p, (s.pc p).dozes = true → s.cond = false
  pending : ∀ p, s.Asleep p → s.cond = true → ∃ w, (s.pc w).reaches p = true

section
variable {lk : Lock} {s t : Sys} {c : Nat} {p q : Fin NPROC} {l : Lock} {next : Pc} {take : Bool}

theorem Moves.asleep (m : Moves lk s c p next t) (hq : q ≠ p) (h : t.Asleep q) : s.Asleep q := by
  obtain ⟨hst, hchan⟩ | hdrops := h
  · obtain heq | ⟨-, hrun⟩ := m.state q hq
    · exact .inl ⟨heq ▸ hst, m.chan q hq ▸ hchan⟩
    · rw [hrun] at hst
      cases hst
  · rw [m.pc, update_of_ne hq] at hdrops
    exact .inr hdrops

/-- The invariant carries over when no process falls asleep but one that was about to, and the
condition does not become true. -/
theorem Kept.carry (h : Kept s) (hpc : t.pc = update s.pc p next) (hflow : Flow lk (s.pc p) next)
    (hcond : t.cond = true → s.cond = true)
    (hasleep : ∀ q, t.Asleep q → (s.pc q).dozes = true ∨ s.Asleep q) : Kept t := by
  refine ⟨fun q hq => ?_, fun q hq ht => ?_⟩
  · have hdozes : (s.pc q).dozes = true := by
      rw [hpc] at hq
      by_cases heq : q = p
      · rw [heq, update_self] at hq
        exact heq ▸ hflow.dozes hq
      · rwa [update_of_ne heq] at hq
    have hfalse := h.dozing q hdozes
    by_contra ht
    rw [hcond (Bool.eq_true_of_not_eq_false ht)] at hfalse
    cases hfalse
  · have hs := hcond ht
    obtain hdozes | hasl := hasleep q hq
    · rw [h.dozing q hdozes] at hs
      cases hs
    obtain ⟨w, hw⟩ := h.pending q hasl hs
    refine ⟨w, ?_⟩
    rw [hpc]
    by_cases heq : w = p
    · rw [heq, update_self]
      exact hflow.reaches q (heq ▸ hw)
    · rwa [update_of_ne heq]

theorem Moves.kept (m : Moves lk s c p next t) (h : Kept s) (hflow : Flow lk (s.pc p) next)
    (hcond : t.cond = true → s.cond = true) (hself : t.state p = .sleeping → (s.pc p).drops = true) :
    Kept t := by
  refine h.carry m.pc hflow hcond fun q hq => ?_
  by_cases heq : q = p
  · subst heq
    obtain ⟨hst, -⟩ | hdrops := hq
    · exact .inr (.inr (hself hst))
    · rw [m.pc, update_self] at hdrops
      exact (hflow.drops hdrops).imp_right .inr
  · exact .inr (m.asleep heq hq)

theorem Moves.kept_awake (m : Moves lk s c p next t) (h : Kept s) (hflow : Flow lk (s.pc p) next)
    (hcond : t.cond = true → s.cond = true) (hnext : next.parked = false) : Kept t := by
  refine m.kept h hflow hcond fun hst => ?_
  rw [m.self.mpr hnext] at hst
  cases hst

/-- `wakeup1` at slot `i`: a process that is still asleep afterwards is in another slot. -/
theorem Moves.kept_wake {i : Fin NPROC} (m : Moves lk s c p next t) (h : Tidy lk s) (hk : Kept s)
    (hcpu : s.cpu c = .runs p) (htable : (s.pc p).holds lk .ptable = true) (hnext : next.parked = false)
    (hdozes : next.dozes = false) (hdrops : next.drops = false) (hcond : t.cond = s.cond)
    (hpast : ∀ q, (s.pc p).reaches q = true → q ≠ i → next.reaches q = true)
    (hwoken : ¬(t.state i = .sleeping ∧ t.chan i = true)) : Kept t := by
  have hself : t.pc p = next := by rw [m.pc, update_self]
  have hpc : ∀ q, q ≠ p → t.pc q = s.pc q := fun q hq => by rw [m.pc, update_of_ne hq]
  -- a process that has not reached its SLEEPING would hold the lock of the scan
  have hdropping : ∀ q, q ≠ p → (s.pc q).drops = false := by
    intro q hq
    by_contra hd
    have hd := Bool.eq_true_of_not_eq_false hd
    have hfacts : (s.pc q).switched = false ∧ (s.pc q).holds lk .ptable = true := by
      cases hcase : s.pc q <;> simp_all [Pc.drops, Pc.switched, Pc.holds]
    have hrun := h.exclusive ((h.holder_runs hcpu).mpr htable) hfacts.1 hfacts.2
    rw [hcpu] at hrun
    exact hq (Ctx.runs.inj hrun).symm
  have hne : ∀ q, t.Asleep q → q ≠ p := by
    rintro q (⟨hst, -⟩ | hd) rfl
    · rw [m.self.mpr hnext] at hst
      cases hst
    · rw [hself, hdrops] at hd
      cases hd
  refine ⟨fun q hq => ?_, fun q hq ht => ?_⟩
  · by_cases heq : q = p
    · rw [heq, hself, hdozes] at hq
      cases hq
    · rw [hcond]
      exact hk.dozing q (hpc q heq ▸ hq)
  have hqp := hne q hq
  have hqi : q ≠ i := by
    rintro rfl
    obtain hst | hd := hq
    · exact hwoken hst
    · rw [hpc q hqp, hdropping q hqp] at hd
      cases hd
  obtain ⟨w, hw⟩ := hk.pending q (m.asleep hqp hq) (hcond ▸ ht)
  refine ⟨w, ?_⟩
  by_cases heq : w = p
  · rw [heq, hself]
    exact hpast q (heq ▸ hw) hqi
  · rwa [hpc w heq]

/-- Making the condition true: under `lk` nobody is between its test and `ptable.lock`, and the
process itself goes on to wake everybody. -/
theorem Moves.kept_set (m : Moves lk s c p next t) (h : Tidy lk s) (hcpu : s.cpu c = .runs p)
    (hlk : (s.pc p).holds lk lk = true) (hdozes : next.dozes = false)
    (hreaches : ∀ q, next.reaches q = true) : Kept t := by
  refine ⟨fun q hq => ?_, fun q _ _ => ⟨p, by rw [m.pc, update_self]; exact hreaches q⟩⟩
  rw [m.pc] at hq
  by_cases heq : q = p
  · rw [heq, update_self, hdozes] at hq
    cases hq
  rw [update_of_ne heq] at hq
  have hfacts : (s.pc q).switched = false ∧ (s.pc q).holds lk lk = true := by
    cases hcase : s.pc q <;> simp_all [Pc.dozes, Pc.switched, Pc.holds]
  have hrun := h.exclusive ((h.holder_runs hcpu).mpr hlk) hfacts.1 hfacts.2
  rw [hcpu] at hrun
  exact absurd (Ctx.runs.inj hrun).symm heq

theorem Kept.congr (h : Kept s) (hpc : t.pc = s.pc) (hcond : t.cond = s.cond)
    (hasleep : ∀ q, t.Asleep q → s.Asleep q) : Kept t := by
  refine ⟨fun q hq => ?_, fun q hq ht => ?_⟩
  · rw [hcond]
    exact h.dozing q (hpc ▸ hq)
  · rw [hpc]
    exact h.pending q (hasleep q hq) (hcond ▸ ht)

section
variable (h : Tidy lk s) (hk : Kept s)
include h hk

theorem Tidy.run (hcpu : s.cpu c = .runs p) (hrun : s.run lk c p take = .ok t) :
    Tidy lk t ∧ Kept t := by
  have hfits := Pc.fits (h.used p)
  unfold Sys.run at hrun
  generalize (s.pc p).op lk = op at hfits hrun
  cases op with
  | stop => cases hrun
  | skip next =>
    obtain ⟨hholds, hflow, hparked, hnext⟩ := hfits
    cases hrun
    have m := h.goto hcpu hflow.used hholds hparked hnext
    exact ⟨m.tidy h hcpu, m.kept_awake hk hflow id hnext⟩
  | acquire l next =>
    obtain ⟨-, hholds, hflow, hparked, hnext⟩ := hfits
    obtain ⟨s1, hacq, hret⟩ := bind_eq_ok.mp hrun
    obtain ⟨hfree, rfl⟩ := Sys.acquire_ok hacq
    cases hret
    have hown : (some c : Option Nat) = some c ↔ true = true := by simp
    have m := h.relock hcpu hflow.used hholds hown
      (fun c' hc' => by rw [hfree]; simp [Ne.symm hc']) hparked hnext
    exact ⟨m.tidy h hcpu, m.kept_awake hk hflow id hnext⟩
  | release l next =>
    obtain ⟨-, hholds, hflow, hparked, hnext⟩ := hfits
    obtain ⟨s1, hrel, hret⟩ := bind_eq_ok.mp hrun
    obtain ⟨hheld, rfl⟩ := Sys.release_ok hrel
    cases hret
    have hown : (none : Option Nat) = some c ↔ false = true := by simp
    have m := h.relock hcpu hflow.used hholds hown
      (fun c' hc' => by rw [hheld]; simp [Ne.symm hc']) hparked hnext
    exact ⟨m.tidy h hcpu, m.kept_awake hk hflow id hnext⟩
  | test yes no =>
    obtain ⟨hyes, hno, hflow, hused, hparked, hpyes, hpno⟩ := hfits
    dsimp only at hrun
    split at hrun
    · cases hrun
      have m : Moves lk s c p yes ({ s with cond := !take }.goto p yes) :=
        h.moves hcpu hflow.used hyes.symm rfl rfl rfl
          (iff_of_true ((h.running hcpu).mpr hparked) hpyes) (fun _ _ => .inl rfl) fun _ _ => rfl
      exact ⟨m.tidy h hcpu, m.kept_awake hk hflow (fun _ => ‹_›) hpyes⟩
    · cases hrun
      have hfalse : s.cond = false := Bool.eq_false_of_not_eq_true ‹_›
      refine ⟨?_, fun _ _ => hfalse, fun _ _ ht => absurd (hfalse.symm.trans ht) Bool.false_ne_true⟩
      cases take with
      | true => exact (h.goto hcpu hflow.used hyes.symm hparked hpyes).tidy h hcpu
      | false => exact (h.goto hcpu hused hno.symm hparked hpno).tidy h hcpu
  | setCond next =>
    obtain ⟨hholds, hlk, hused, hparked, hnext, hdozes, hreaches⟩ := hfits
    cases hrun
    have m : Moves lk s c p next ({ s with cond := true }.goto p next) :=
      h.moves hcpu hused hholds rfl rfl rfl (iff_of_true ((h.running hcpu).mpr hparked) hnext)
        (fun _ _ => .inl rfl) fun _ _ => rfl
    exact ⟨m.tidy h hcpu, m.kept_set h hcpu hlk hdozes hreaches⟩
  | setChan chan next =>
    obtain ⟨hholds, hflow, hparked, hnext⟩ := hfits
    cases hrun
    have m : Moves lk s c p next ({ s with chan := update s.chan p chan }.goto p next) :=
      h.moves hcpu hflow.used hholds rfl rfl rfl (iff_of_true ((h.running hcpu).mpr hparked) hnext)
        (fun _ _ => .inl rfl) fun q hq => update_of_ne hq ..
    exact ⟨m.tidy h hcpu, m.kept_awake hk hflow id hnext⟩
  | setState x next =>
    obtain ⟨hholds, hflow, hparked, hnext, hx, hdrops⟩ := hfits
    cases hrun
    have hmark : ((s.mark p x).goto p next).state p = x := update_self ..
    have m : Moves lk s c p next ((s.mark p x).goto p next) :=
      h.moves hcpu hflow.used hholds rfl rfl rfl (by rw [hmark, hnext]; simp [hx])
        (fun q hq => .inl (update_of_ne hq ..)) fun _ _ => rfl
    exact ⟨m.tidy h hcpu, m.kept hk hflow id fun hst => hdrops (hmark ▸ hst)⟩
  | swtch next =>
    obtain ⟨htable, hflow, -, hswitched⟩ := hfits
    obtain ⟨-, -, hret⟩ := bind_eq_ok.mp hrun
    cases hret
    refine ⟨h.swtch hcpu hflow.used htable hswitched, hk.carry rfl hflow id fun q hq => ?_⟩
    obtain hst | hdrops := hq
    · exact .inr (.inl hst)
    by_cases heq : q = p
    · subst heq
      have hdrops : next.drops = true := by
        simpa only [Sys.turn, Sys.goto, update_self] using hdrops
      exact (hflow.drops hdrops).imp_right .inr
    · refine .inr (.inr ?_)
      simpa only [Sys.turn, Sys.goto, update_of_ne heq] using hdrops
  | wake i next =>
    obtain ⟨hholds, htable, hused, hparked, hnext, hdozes, hdrops, hpast⟩ := hfits
    have hrunning := (h.running hcpu).mpr hparked
    dsimp only at hrun
    split at hrun
    case isTrue hsleeps =>
      cases hrun
      have hip : i ≠ p := by
        rintro rfl
        rw [hrunning] at hsleeps
        cases hsleeps.1
      have m : Moves lk s c p next ((s.mark i .runnable).goto p next) := by
        refine h.moves hcpu hused hholds rfl rfl rfl (iff_of_true ?_ hnext) (fun q hq => ?_) fun _ _ => rfl
        · exact (update_of_ne hip.symm ..).trans hrunning
        · by_cases hqi : q = i
          · exact .inr ⟨hqi ▸ hsleeps.1, by rw [hqi]; exact update_self ..⟩
          · exact .inl (update_of_ne hqi ..)
      refine ⟨m.tidy h hcpu, m.kept_wake h hk hcpu htable hnext hdozes hdrops rfl hpast fun hst => ?_⟩
      have hi : ((s.mark i .runnable).goto p next).state i = .runnable := update_self ..
      rw [hi] at hst
      cases hst.1
    case isFalse hawake =>
      cases hrun
      have m := h.goto hcpu hused hholds hparked hnext
      exact ⟨m.tidy h hcpu, m.kept_wake h hk hcpu htable hnext hdozes hdrops rfl hpast hawake⟩

theorem Tidy.exec (hexec : s.exec lk c take = .ok t) : Tidy lk t ∧ Kept t := by
  unfold Sys.exec at hexec
  cases hcpu : s.cpu c with
  | runs p =>
    rw [hcpu] at hexec
    exact h.run hk hcpu hexec
  | acquire =>
    rw [hcpu] at hexec
    obtain ⟨s1, hacq, hret⟩ := bind_eq_ok.mp hexec
    obtain ⟨hfree, rfl⟩ := Sys.acquire_ok hacq
    cases hret
    refine ⟨h.look (by simp [hcpu]) (by simp) rfl rfl rfl (fun l => ?_) fun c' hc' l => ?_,
      hk.congr rfl rfl fun _ hq => hq⟩
    · have hnone : s.holder .own ≠ some c := by
        rw [Ne, h.lock, Sys.holds, hcpu]
        exact Bool.false_ne_true
      cases l <;> simp [Sys.holds, Sys.turn, hnone]
    · cases l <;> simp [Sys.turn, hfree, Ne.symm hc']
  | look i =>
    have hholds : ∀ l, s.holder l = some c ↔ l = .ptable := by
      intro l
      rw [h.lock, Sys.holds, hcpu]
      exact decide_eq_true_iff
    rw [hcpu] at hexec
    dsimp only at hexec
    split at hexec
    · split at hexec
      case isTrue hlt hrunnable =>
        cases hexec
        refine ⟨h.dispatch hcpu hrunnable, hk.congr rfl rfl fun q hq => hq.imp_left fun hq => ⟨?_, hq.2⟩⟩
        by_cases hqi : q = ⟨i, hlt⟩
        · rw [hqi] at hq
          cases (update_self ..).symm.trans hq.1
        · exact (update_of_ne hqi ..).symm.trans hq.1
      case isFalse =>
        cases hexec
        refine ⟨h.look (by simp [hcpu]) (by simp) rfl rfl rfl (fun l => ?_) fun _ _ _ => Iff.rfl,
          hk.congr rfl rfl fun _ hq => hq⟩
        simp [Sys.holds, Sys.turn, hholds]
    · cases hexec
      refine ⟨h.look (by simp [hcpu]) (by simp) rfl rfl rfl (fun l => ?_) fun _ _ _ => Iff.rfl,
        hk.congr rfl rfl fun _ hq => hq⟩
      simp [Sys.holds, Sys.turn, hholds]
  | release =>
    rw [hcpu] at hexec
    obtain ⟨s1, hrel, hret⟩ := bind_eq_ok.mp hexec
    obtain ⟨hheld, rfl⟩ := Sys.release_ok hrel
    cases hret
    refine ⟨h.look (by simp [hcpu]) (by simp) rfl rfl rfl (fun l => ?_) fun c' hc' l => ?_,
      hk.congr rfl rfl fun _ hq => hq⟩
    · have hnone : s.holder .own ≠ some c := by
        rw [Ne, h.lock, Sys.holds, hcpu]
        simp
      cases l <;> simp [Sys.holds, Sys.turn, hnone]
    · cases l <;> simp [Sys.turn, hheld, Ne.symm hc']

theorem Tidy.call {r : Routine} (hcpu : s.cpu c = .runs p) (hpc : s.pc p = .idle) :
    Tidy lk (s.goto p (.enter r)) ∧ Kept (s.goto p (.enter r)) := by
  have hflow : Flow lk (s.pc p) (.enter r) := by
    rw [hpc]
    exact ⟨trivial, nofun, nofun, nofun⟩
  have m := h.goto hcpu hflow.used (by rw [hpc]; rfl) (by rw [hpc]; rfl) rfl
  exact ⟨m.tidy h hcpu, m.kept_awake hk hflow id rfl⟩

theorem Tidy.preempt (hcpu : s.cpu c = .runs p) (hfree : ∀ l, s.holder l ≠ some c) :
    Tidy lk (s.goto p (.yield (s.pc p))) ∧ Kept (s.goto p (.yield (s.pc p))) := by
  have hholds : (s.pc p).holds lk = fun _ => false := by
    funext l
    exact Bool.eq_false_of_not_eq_true fun hl => hfree l ((h.holder_runs hcpu).mpr hl)
  obtain ⟨hparked, -, -, hreaches⟩ := Pc.calm hholds
  have hflow : Flow lk (s.pc p) (.yield (s.pc p)) := by
    refine ⟨⟨h.used p, hholds⟩, nofun, nofun, fun q hq => ?_⟩
    rw [hreaches q] at hq
    cases hq
  have m := h.goto hcpu hflow.used hholds.symm hparked rfl
  exact ⟨m.tidy h hcpu, m.kept_awake hk hflow id rfl⟩

theorem Tidy.kill (hsleeps : s.state p = .sleeping) :
    Tidy lk (s.mark p .runnable) ∧ Kept (s.mark p .runnable) := by
  have hother : ∀ q, q ≠ p → (s.mark p .runnable).state q = s.state q := fun q hq => update_of_ne hq ..
  have hself : (s.mark p .runnable).state p = .runnable := update_self ..
  refine ⟨⟨h.used, h.lock, h.placed, h.unique, fun {c q} hq => ?_⟩, hk.congr rfl rfl fun q hq => ?_⟩
  · refine Iff.trans ?_ (h.running hq)
    by_cases hqp : q = p
    · rw [hqp, hself, hsleeps]
      simp
    · rw [hother q hqp]
  · refine hq.imp_left fun ⟨hst, hchan⟩ => ⟨?_, hchan⟩
    by_cases hqp : q = p
    · rw [hqp, hself] at hst
      cases hst
    · exact (hother q hqp).symm.trans hst

theorem Tidy.step {a : Act} (hstep : Step lk s a t) : Tidy lk t ∧ Kept t := by
  unfold Step Sys.act at hstep
  cases a with
  | exec c take => exact h.exec hk hstep
  | call c r =>
    dsimp only at hstep
    split at hstep
    · split at hstep
      · cases hstep
        exact h.call hk ‹_› ‹_›
      · cases hstep
    · cases hstep
  | preempt c =>
    dsimp only at hstep
    split at hstep
    · split at hstep
      case isTrue => cases hstep
      case isFalse p hcpu hfree =>
        cases hstep
        exact h.preempt hk hcpu (Lock.forall.mpr (not_or.mp hfree))
    · cases hstep
  | kill p =>
    dsimp only at hstep
    split at hstep
    · cases hstep
    · split at hstep
      · cases hstep
        exact h.kill hk ‹_›
      · cases hstep
        exact ⟨h, hk⟩

end

theorem Start.tidy (h : Start s) : Tidy lk s where
  used p := by
    rw [h.pc]
    exact ⟨trivial, rfl⟩
  lock c l := by
    rw [h.holder, Sys.holds, h.cpu]
    simp
  placed p := by
    rw [h.pc]
    exact .inl rfl
  unique hc := by
    rw [h.cpu] at hc
    cases hc
  running hc := by
    rw [h.cpu] at hc
    cases hc

theorem Start.kept (h : Start s) : Kept s := by
  refine ⟨fun p hp => ?_, fun p hp => ?_⟩
  · rw [h.pc] at hp
    cases hp
  · obtain ⟨hst, -⟩ | hp := hp
    · rw [h.state] at hst
      cases hst
    · rw [h.pc] at hp
      cases hp

theorem Start.run {acts : List Act} (h : Start s) (hrun : Lib.Run (Step lk) s acts t) : Tidy lk t ∧ Kept t :=
  hrun.invariant (fun s => Tidy lk s ∧ Kept s) ⟨h.tidy, h.kept⟩ fun _ _ _ ⟨ht, hk⟩ hstep => ht.step hk hstep

theorem Tidy.waker_holds (h : Tidy lk s) {w : Fin NPROC} (hw : (s.pc w).reaches p = true) :
    s.holder lk ≠ none := by
  have hfacts : (s.pc w).switched = false ∧ (s.pc w).holds lk lk = true := by
    cases hcase : s.pc w <;> simp_all [Pc.reaches, Pc.switched, Pc.holds]
  obtain hs | ⟨c, hc⟩ := h.placed w
  · rw [hfacts.1] at hs
    cases hs
  · rw [(h.holder_runs hc).mpr hfacts.2]
    exact Option.some_ne_none c

/-- In every state of every run, a process that is `SLEEPING` on the channel while the condition
is true has a process that has made it true and whose `wakeup` has still to come to the slot.
When `lk` is free, no process is `SLEEPING` on the channel while the condition is true. -/
theorem no_lost_wakeup {acts : List Act} (hstart : Start s) (hrun : Lib.Run (Step lk) s acts t) (p : Fin NPROC)
    (hstate : t.state p = .sleeping) (hchan : t.chan p = true) :
    (t.cond = true → ∃ w, (t.pc w).reaches p = true) ∧ (t.holder lk = none → t.cond = false) := by
  obtain ⟨htidy, hkept⟩ := hstart.run hrun
  have hpending := hkept.pending p (.inl ⟨hstate, hchan⟩)
  refine ⟨hpending, fun hfree => Bool.eq_false_of_not_eq_true fun hcond => ?_⟩
  obtain ⟨w, hw⟩ := hpending hcond
  exact htidy.waker_holds hw hfree

/-- All processes are new, and the condition is false. -/
def Sys.boot : Sys where
  cond := false
  holder _ := none
  state _ := .runnable
  chan _ := false
  pc _ := .yieldRelease .idle
  cpu _ := .acquire

theorem no_lost_wakeup_two :
    ∃ acts t, Lib.Run (Step .own) Sys.boot acts t ∧ t.state 0 = .sleeping ∧ t.cond = true ∧
      ∃ w, (t.pc w).reaches 0 = true := by
  have hstart : Start Sys.boot := ⟨fun _ => rfl, fun _ => rfl, fun _ => rfl, fun _ => rfl⟩
  obtain ⟨t, hrun, ht⟩ := Lib.Run.exists_of_foldlM (s := Sys.boot)
    ([.exec 0 false, .exec 0 false, .exec 0 false, .call 0 .waits] ++ List.replicate 7 (.exec 0 false) ++
      [.exec 0 false, .exec 0 false, .call 0 .wakes, .exec 0 false, .exec 0 false])
    (f := Sys.act .own) (p := fun t => t.state 0 = .sleeping ∧ t.chan 0 = true ∧ t.cond = true) (by decide)
  obtain ⟨hstate, hchan, hcond⟩ := of_decide_eq_true ht
  exact ⟨_, t, hrun, hstate, hcond, (no_lost_wakeup hstart hrun 0 hstate hchan).1 hcond⟩

/-- In every state of every run no statement panics, no process is on two processors, and one
that is on a processor is `RUNNING` when `ptable.lock` is free. -/
theorem scheduling_safe {acts : List Act} (hstart : Start s) (hrun : Lib.Run (Step lk) s acts t) (c : Nat) :
    (∀ take msg, t.exec lk c take ≠ .error (.panic msg)) ∧ ∀ p, t.cpu c = .runs p →
      (∀ c', t.cpu c' = .runs p → c' = c) ∧ (t.holder .ptable = none → t.state p = .running) := by
  have htidy := (hstart.run hrun).1
  refine ⟨fun _ msg => htidy.no_panic msg, fun p hp => ⟨fun _ hc => htidy.unique hc hp, fun hfree => ?_⟩⟩
  rw [htidy.running hp, Bool.eq_false_iff]
  intro hparked
  have hheld : (t.pc p).holds lk .ptable = true := by
    cases hpc : t.pc p <;> simp_all [Pc.parked, Pc.holds]
  rw [← htidy.holder_runs hp, hfree] at hheld
  cases hheld

theorem scheduling_safe_first : ∃ t, Lib.Run (Step .own) Sys.boot [.exec 0 false, .exec 0 false] t ∧
    t.cpu 0 = .runs 0 ∧ ∀ c, t.cpu c = .runs 0 → c = 0 := by
  obtain ⟨t, hrun, ht⟩ := Lib.Run.exists_of_foldlM (s := Sys.boot) [.exec 0 false, .exec 0 false]
    (f := Sys.act .own) (p := fun t => t.cpu 0 = .runs 0) (by decide)
  have hcpu := of_decide_eq_true ht
  exact ⟨t, hrun, hcpu,
    ((scheduling_safe ⟨fun _ => rfl, fun _ => rfl, fun _ => rfl, fun _ => rfl⟩ hrun 0).2 0 hcpu).1⟩

end

end Xv6.Sleep
