import Xv6.PipeFifo

/-!
Readers that sleep. `pipewrite` wakes the readers when it is done and before it sleeps on a
full pipe, but not when it gives up on a full pipe because the writer was killed. As long as
that happens only while no reader sleeps, no reader sleeps on a pipe that has data or that
no writer has open.
-/

namespace Xv6

open Function

def PipeAt.Reads : PipeAt → Prop
  | .read _ | .empty _ | .waitData _ | .copy _ _ | .gave _ | .finish _ => True
  | _ => False

/-- The control points of `pipewrite` from which a wakeup of the readers is still to come. -/
def PipeAt.Signals : PipeAt → Prop
  | .write _ | .full _ | .signal _ | .wrote => True
  | _ => False

/-- Where a call goes on, whether it has the lock, waits for it or sleeps. -/
def PipePc.point : PipePc → Option PipeAt
  | .idle => none
  | .acquire c | .holds c | .sleeping _ c => some c

@[simp] theorem PipePc.point_woken (pc : PipePc) (chan : PipeChan) :
    (pc.woken chan).point = pc.point := by
  cases pc with
  | sleeping ch c =>
    simp only [PipePc.woken]
    split <;> rfl
  | idle | acquire _ | holds _ => rfl

@[simp] theorem PipePc.point_roused (pc : PipePc) : pc.roused.point = pc.point := by
  cases pc <;> rfl

namespace PipeSys

structure Used (s : PipeSys) : Prop where
  reads : ∀ p c, (s.pc p).point = some c → c.Reads → s.files false = true ∧ s.busy p = some false
  closing : ∀ p w, (s.pc p).point = some (.close w) → s.files w = false
  readopen : s.pipe.readopen = false → s.files false = false
  asleep : ∀ p c, s.pc p = .sleeping .nread c → c.Reads

variable {s s' : PipeSys} {p q : Fin NPROC} {c : PipeAt} {chan : PipeChan}

theorem Used.exec_of (h : s.Used) (hc : (s.pc p).point = some c)
    (hfiles : s'.files = s.files) (hbusy : ∀ q, q ≠ p → s'.busy q = s.busy q)
    (hopen : s'.pipe.readopen = false → s.pipe.readopen = false ∨ c = .close false)
    (hself : ∀ d, (s'.pc p).point = some d →
      (d.Reads → c.Reads ∧ s'.busy p = s.busy p) ∧ ∀ w, d ≠ .close w)
    (hasleep : ∀ d, s'.pc p = .sleeping .nread d → d.Reads)
    (hother : ∀ q, q ≠ p → ∃ ch, s'.pc q = s.pc q ∨ s'.pc q = (s.pc q).woken ch) : s'.Used := by
  have hpoint : ∀ q, q ≠ p → (s'.pc q).point = (s.pc q).point := by
    intro q hq
    obtain ⟨ch, he | he⟩ := hother q hq
    · rw [he]
    · rw [he, PipePc.point_woken]
  refine ⟨fun q d hd hr => ?_, fun q w hd => ?_, fun ho => ?_, fun q d hd => ?_⟩
  · by_cases hqp : q = p
    · subst hqp
      obtain ⟨hcr, hb⟩ := (hself d hd).1 hr
      rw [hfiles, hb]
      exact h.reads q c hc hcr
    · rw [hpoint q hqp] at hd
      rw [hfiles, hbusy q hqp]
      exact h.reads q d hd hr
  · by_cases hqp : q = p
    · subst hqp
      exact ((hself _ hd).2 w rfl).elim
    · rw [hpoint q hqp] at hd
      rw [hfiles]
      exact h.closing q w hd
  · rw [hfiles]
    rcases hopen ho with ho | rfl
    · exact h.readopen ho
    · exact h.closing p false hc
  · by_cases hqp : q = p
    · subst hqp
      exact hasleep d hd
    · obtain ⟨ch, he | he⟩ := hother q hqp
      · rw [he] at hd
        exact h.asleep q d hd
      · rw [he] at hd
        exact h.asleep q d (woken_sleeping.mp hd).1

theorem Used.goto (h : s.Used) (hc : (s.pc p).point = some c) {t : PipeSys} {d : PipeAt}
    (hfiles : t.files = s.files) (hbusy : t.busy = s.busy)
    (hopen : t.pipe.readopen = false → s.pipe.readopen = false ∨ c = .close false)
    (hd : (d.Reads → c.Reads) ∧ ∀ w, d ≠ .close w)
    (hother : ∃ ch, ∀ q, t.pc q = s.pc q ∨ t.pc q = (s.pc q).woken ch) : (t.goto p d).Used := by
  have hself : (t.goto p d).pc p = .holds d := by simp [PipeSys.goto, setPc]
  refine h.exec_of hc hfiles (fun q _ => congrFun hbusy q) hopen (fun d' hd' => ?_) (fun d' hd' => ?_)
    fun q hq => ?_
  · rw [hself] at hd'
    cases hd'
    exact ⟨fun hr => ⟨hd.1 hr, congrFun hbusy p⟩, hd.2⟩
  · rw [hself] at hd'
    cases hd'
  · obtain ⟨ch, hch⟩ := hother
    refine ⟨ch, ?_⟩
    have hpc : (t.goto p d).pc q = t.pc q := by simp [PipeSys.goto, setPc, hq]
    rw [hpc]
    exact hch q

theorem Used.exec (h : s.Used) (hc : s.pc p = .holds c) : (s.exec p c).2.Used := by
  have hpt : (s.pc p).point = some c := by rw [hc]; rfl
  have stay : ∀ d : PipeAt, (d.Reads → c.Reads) ∧ (∀ w, d ≠ .close w) → (s.goto p d).Used :=
    fun d hd => h.goto hpt rfl rfl Or.inl hd ⟨.nread, fun _ => Or.inl rfl⟩
  have wake : ∀ (ch : PipeChan) (d : PipeAt), (d.Reads → c.Reads) ∧ (∀ w, d ≠ .close w) →
      ((s.wakeup ch).goto p d).Used :=
    fun ch d hd => h.goto hpt rfl rfl Or.inl hd ⟨ch, fun _ => Or.inr rfl⟩
  have out : ∀ t : PipeSys, t.files = s.files → t.pipe = s.pipe →
      (∀ q, q ≠ p → t.busy q = s.busy q ∧ t.pc q = s.pc q) → t.pc p = .idle → t.Used :=
    fun t hf hpipe hq hidle => h.exec_of hpt hf (fun q hqp => (hq q hqp).1)
      (fun ho => Or.inl (by rw [← hpipe]; exact ho)) (by simp [hidle, PipePc.point])
      (by simp [hidle]) fun q hqp => ⟨.nread, Or.inl (hq q hqp).2⟩
  cases c with
  | write src =>
    cases src with
    | nil => exact stay _ ⟨False.elim, by simp⟩
    | cons b src =>
      simp only [PipeSys.exec]
      split
      · exact stay _ ⟨False.elim, by simp⟩
      · exact h.goto (t := { s with pipe := s.pipe.put b }) hpt rfl rfl Or.inl
          ⟨False.elim, by simp⟩ ⟨.nread, fun _ => Or.inl rfl⟩
  | full src =>
    simp only [PipeSys.exec]
    split <;> exact stay _ ⟨False.elim, by simp⟩
  | signal src | wrote => exact wake .nread _ ⟨False.elim, by simp⟩
  | waitRoom src =>
    refine h.exec_of hpt rfl (fun _ _ => rfl) Or.inl (fun d hd => ?_) (fun d hd => ?_)
      fun q hq => ⟨.nread, Or.inl (by simp [PipeSys.exec, PipeSys.sleep, setPc, hq])⟩
    · simp only [PipeSys.exec, PipeSys.sleep, setPc, update_self] at hd
      cases hd
      exact ⟨False.elim, by simp⟩
    · simp [PipeSys.exec, PipeSys.sleep, setPc] at hd
  | read n =>
    simp only [PipeSys.exec]
    split <;> exact stay _ ⟨fun _ => trivial, by simp⟩
  | empty n =>
    simp only [PipeSys.exec]
    split
    · exact stay _ ⟨False.elim, by simp⟩
    · exact stay _ ⟨fun _ => trivial, by simp⟩
  | waitData n =>
    refine h.exec_of hpt rfl (fun _ _ => rfl) Or.inl (fun d hd => ?_) (fun d hd => ?_)
      fun q hq => ⟨.nread, Or.inl (by simp [PipeSys.exec, PipeSys.sleep, setPc, hq])⟩
    · simp only [PipeSys.exec, PipeSys.sleep, setPc, update_self] at hd
      cases hd
      exact ⟨fun _ => ⟨trivial, rfl⟩, by simp⟩
    · simp only [PipeSys.exec, PipeSys.sleep, setPc, update_self] at hd
      cases hd
      trivial
  | copy n got =>
    simp only [PipeSys.exec]
    split
    · exact stay _ ⟨fun _ => trivial, by simp⟩
    · exact h.goto (t := { s with pipe := s.pipe.get.2 }) hpt rfl rfl Or.inl
        ⟨fun _ => trivial, by simp⟩ ⟨.nread, fun _ => Or.inl rfl⟩
  | gave got => exact wake .nwrite _ ⟨fun _ => trivial, by simp⟩
  | finish got | release =>
    exact out _ rfl rfl (fun q hq => by simp [PipeSys.exec, PipeSys.leave, setPc, hq])
      (by simp [PipeSys.exec, PipeSys.leave, setPc])
  | close w =>
    refine h.goto (t := { s with pipe := s.pipe.shut w }.wakeup _) (d := .last) hpt rfl rfl
      (fun ho => ?_) ⟨False.elim, by simp⟩ ⟨_, fun _ => Or.inr rfl⟩
    cases w with
    | true => exact Or.inl ho
    | false => exact Or.inr rfl
  | last =>
    simp only [PipeSys.exec]
    split
    · exact h.goto (t := { s with freed := true }) hpt rfl rfl Or.inl ⟨False.elim, by simp⟩
        ⟨.nread, fun _ => Or.inl rfl⟩
    · exact stay _ ⟨False.elim, by simp⟩

theorem Used.congr (h : s.Used) (hpoint : ∀ q, (s'.pc q).point = (s.pc q).point)
    (hfiles : s'.files = s.files) (hbusy : s'.busy = s.busy) (hpipe : s'.pipe = s.pipe)
    (hasleep : ∀ q d, s'.pc q = .sleeping .nread d → s.pc q = .sleeping .nread d) : s'.Used := by
  refine ⟨fun q d hd => ?_, fun q w hd => ?_, fun ho => ?_, fun q d hd => h.asleep q d (hasleep q d hd)⟩
  · rw [hfiles, hbusy]
    exact h.reads q d ((hpoint q).symm.trans hd)
  · rw [hfiles]
    exact h.closing q w ((hpoint q).symm.trans hd)
  · rw [hfiles]
    exact h.readopen (hpipe ▸ ho)

theorem Used.step {a : PipeAct} {e : PipeEvent} (h : s.Used) (hs : s.Stepped a e s') : s'.Used := by
  cases hs with
  | @call p c hidle hfile hclose =>
    have hpc : ∀ q, q ≠ p → update s.pc p (.acquire c.enter) q = s.pc q := fun q hq =>
      update_of_ne hq ..
    -- a call that closes the read end finds no reader
    have hread : ∀ q d, (s.pc q).point = some d → d.Reads →
        ¬ (c.closes = true ∧ c.side = false) := by
      rintro q d hd hr ⟨hcl, hside⟩
      have hb := (h.reads q d hd hr).2
      rw [← hside] at hb
      exact hclose hcl q hb
    have hgone : ∀ w, s.files w = false →
        (if c.closes then update s.files c.side false else s.files) w = false := by
      intro w hw
      split
      · rw [update_apply]
        split
        · rfl
        · exact hw
      · exact hw
    refine ⟨fun q d hd hr => ?_, fun q w hd => ?_, fun ho => ?_, fun q d hd => ?_⟩
    · by_cases hqp : q = p
      · subst hqp
        simp only [setPc, update_self] at hd ⊢
        cases hd
        cases c with
        | read n => exact ⟨by simpa [PipeCall.closes, PipeCall.side] using hfile, rfl⟩
        | write src => exact hr.elim
        | close w => exact hr.elim
      · simp only [setPc, hpc q hqp] at hd
        have hkeep := hread q d hd hr
        obtain ⟨hf, hb⟩ := h.reads q d hd hr
        refine ⟨?_, by simpa [setPc, hqp] using hb⟩
        simp only [setPc]
        split
        · rename_i hcl
          rw [update_of_ne]
          · exact hf
          · exact fun he => hkeep ⟨hcl, he.symm⟩
        · exact hf
    · by_cases hqp : q = p
      · subst hqp
        simp only [setPc, update_self] at hd ⊢
        cases c with
        | close w' =>
          cases hd
          simp [PipeCall.closes, PipeCall.side]
        | read n => cases hd
        | write src => cases hd
      · simp only [setPc, hpc q hqp] at hd
        exact hgone w (h.closing q w hd)
    · exact hgone false (h.readopen ho)
    · by_cases hqp : q = p
      · subst hqp
        simp [setPc] at hd
      · simp only [setPc, hpc q hqp] at hd
        exact h.asleep q d hd
  | @acquire p c hc hl =>
    refine h.congr (fun q => ?_) rfl rfl rfl fun q d hd => ?_
    all_goals by_cases hqp : q = p
    · simp [PipeSys.goto, setPc, hqp, hc, PipePc.point]
    · simp [PipeSys.goto, setPc, hqp]
    · simp [PipeSys.goto, setPc, hqp] at hd
    · simpa [PipeSys.goto, setPc, hqp] using hd
  | exec hc => exact h.exec hc
  | @kill p =>
    refine h.congr (fun q => ?_) rfl rfl rfl fun q d hd => ?_
    all_goals by_cases hqp : q = p
    · simp [setPc, hqp]
    · simp [setPc, hqp]
    · subst hqp
      simp only [setPc, update_self] at hd
      cases hpc : s.pc q <;> simp [hpc, PipePc.roused] at hd
    · simpa [setPc, hqp] using hd

/-- A reader sleeps on an empty pipe with a writer, or a wakeup is still to come. -/
structure Attended (s : PipeSys) : Prop where
  waits : ∀ p n, s.pc p = .holds (.empty n) ∨ s.pc p = .holds (.waitData n) →
    s.pipe.isEmpty = true ∧ s.pipe.writeopen = true
  sleeper : ∀ q c, s.pc q = .sleeping .nread c → s.pipe.writeopen = true ∧
    (s.pipe.isEmpty = true ∨ ∃ p d, s.pc p = .holds d ∧ d.Signals)

/-- A writer that has been killed gives up on a full pipe only while no reader sleeps. -/
def Heard (s : PipeSys) : PipeAct → Prop
  | .run p => ∀ src, s.pc p = .holds (.full src) → s.killed p = true →
      ∀ q c, s.pc q ≠ .sleeping .nread c
  | _ => True

/-- When the holder of the lock owes no wakeup, readers sleep on an empty pipe only. -/
theorem Attended.empty_of (h : s.Attended) (hlock : s.Locked) (hc : s.pc p = .holds c)
    (hno : ¬ c.Signals) {d : PipeAt} (hq : s.pc q = .sleeping .nread d) : s.pipe.isEmpty = true := by
  rcases (h.sleeper q d hq).2 with he | ⟨r, d', hr, hd'⟩
  · exact he
  · obtain rfl : p = r := Option.some.inj ((hlock.holder p c hc).symm.trans (hlock.holder r d' hr))
    rw [hc] at hr
    cases hr
    exact (hno hd').elim

theorem Attended.goto (hlock : s.Locked) (hc : s.pc p = .holds c) {t : PipeSys} {d : PipeAt}
    (hother : ∀ q, q ≠ p → ∀ d', t.pc q = .holds d' → s.pc q = .holds d')
    (hself : ∀ n, d = .empty n ∨ d = .waitData n → t.pipe.isEmpty = true ∧ t.pipe.writeopen = true)
    (hsleep : ∀ q d', q ≠ p → t.pc q = .sleeping .nread d' → t.pipe.writeopen = true ∧
      (t.pipe.isEmpty = true ∨ d.Signals)) : (t.goto p d).Attended := by
  have hp : (t.goto p d).pc p = .holds d := by simp [PipeSys.goto, setPc]
  have hne : ∀ q, q ≠ p → (t.goto p d).pc q = t.pc q := fun q hq => by
    simp [PipeSys.goto, setPc, hq]
  refine ⟨fun q n hq => ?_, fun q d' hq => ?_⟩
  · by_cases hqp : q = p
    · subst hqp
      rw [hp] at hq
      exact hself n (hq.imp PipePc.holds.inj PipePc.holds.inj)
    rw [hne q hqp] at hq
    obtain ⟨d', hd'⟩ : ∃ d', s.pc q = .holds d' :=
      hq.elim (fun hq => ⟨_, hother q hqp _ hq⟩) fun hq => ⟨_, hother q hqp _ hq⟩
    exact (hqp (Option.some.inj
      ((hlock.holder q d' hd').symm.trans (hlock.holder p c hc)))).elim
  · by_cases hqp : q = p
    · subst hqp
      rw [hp] at hq
      cases hq
    · rw [hne q hqp] at hq
      obtain ⟨hw, he⟩ := hsleep q d' hqp hq
      exact ⟨hw, he.imp_right fun hs => ⟨p, d, hp, hs⟩⟩

theorem Attended.unlock (h : s.Attended) (hlock : s.Locked) (hc : s.pc p = .holds c)
    (hno : ¬ c.Signals) (hpipe : s'.pipe = s.pipe) (hother : ∀ q, q ≠ p → s'.pc q = s.pc q)
    (hnot : ∀ d, s'.pc p ≠ .holds d)
    (hself : ∀ d, s'.pc p = .sleeping .nread d →
      s.pipe.isEmpty = true ∧ s.pipe.writeopen = true) : s'.Attended := by
  have hfree : ∀ q d, s'.pc q ≠ .holds d := by
    intro q d hq
    by_cases hqp : q = p
    · subst hqp
      exact hnot d hq
    · rw [hother q hqp] at hq
      exact hqp (Option.some.inj ((hlock.holder q d hq).symm.trans (hlock.holder p c hc)))
  refine ⟨fun q n hq => ?_, fun q d hq => ?_⟩
  · exact (hq.elim (hfree q _) (hfree q _)).elim
  rw [hpipe]
  by_cases hqp : q = p
  · subst hqp
    exact ⟨(hself d hq).2, Or.inl (hself d hq).1⟩
  · rw [hother q hqp] at hq
    exact ⟨(h.sleeper q d hq).1, Or.inl (h.empty_of hlock hc hno hq)⟩

theorem Attended.exec (h : s.Attended) (hlock : s.Locked) (hused : s.Used)
    (hheard : s.Heard (.run p)) (hc : s.pc p = .holds c) : (s.exec p c).2.Attended := by
  -- the pipe and the other processes stay as they are
  have stay : ∀ d : PipeAt, (c.Signals → d.Signals) →
      (∀ n, d = .empty n ∨ d = .waitData n → s.pipe.isEmpty = true ∧ s.pipe.writeopen = true) →
      (s.goto p d).Attended := by
    intro d hd hself
    refine .goto hlock hc (fun _ _ _ => id) hself fun q d' _ hq => ⟨(h.sleeper q d' hq).1, ?_⟩
    by_cases hs : c.Signals
    · exact Or.inr (hd hs)
    · exact Or.inl (h.empty_of hlock hc hs hq)
  -- nobody sleeps on `nread` afterwards
  have wake : ∀ (t : PipeSys) (d : PipeAt), t.pc = s.pc → (∀ n, d ≠ .empty n ∧ d ≠ .waitData n) →
      ((t.wakeup .nread).goto p d).Attended := by
    intro t d ht hd
    refine .goto hlock hc (fun q _ d' hq => ?_) (fun n hn => ?_) fun q d' _ hq => ?_
    · rw [← ht]
      exact woken_holds.mp hq
    · exact (hn.elim (hd n).1 (hd n).2).elim
    · exact ((woken_sleeping.mp hq).2 rfl).elim
  cases c with
  | write src =>
    cases src with
    | nil => exact stay _ (fun _ => trivial) (by simp)
    | cons b src =>
      simp only [PipeSys.exec]
      split
      · exact stay _ (fun _ => trivial) (by simp)
      · exact .goto (t := { s with pipe := s.pipe.put b }) hlock hc (fun _ _ _ => id) (by simp)
          fun q d' _ hq => ⟨(h.sleeper q d' hq).1, Or.inr trivial⟩
  | full src =>
    simp only [PipeSys.exec]
    split
    · rename_i hgive
      -- a killed writer, or one without readers
      have hnone : ∀ q d, s.pc q ≠ .sleeping .nread d := by
        rw [Bool.or_eq_true, Bool.not_eq_true'] at hgive
        rcases hgive with hro | hk
        · intro q d hq
          have hf := (hused.reads q d (by rw [hq]; rfl) (hused.asleep q d hq)).1
          rw [hused.readopen hro] at hf
          cases hf
        · exact hheard src hc hk
      exact .goto hlock hc (fun _ _ _ => id) (by simp) fun q d' _ hq => (hnone q d' hq).elim
    · exact stay _ (fun _ => trivial) (by simp)
  | signal src | wrote => exact wake s _ rfl (by simp)
  | waitRoom src =>
    exact h.unlock hlock hc id rfl (fun q hq => by simp [PipeSys.exec, PipeSys.sleep, setPc, hq])
      (by simp [PipeSys.exec, PipeSys.sleep, setPc]) (by simp [PipeSys.exec, PipeSys.sleep, setPc])
  | read n =>
    simp only [PipeSys.exec]
    split
    · rename_i he
      rw [Bool.and_eq_true] at he
      exact stay _ False.elim fun _ _ => he
    · exact stay _ False.elim (by simp)
  | empty n =>
    simp only [PipeSys.exec]
    split
    · exact stay _ False.elim (by simp)
    · exact stay _ False.elim fun _ _ => h.waits p n (Or.inl hc)
  | waitData n =>
    exact h.unlock hlock hc id rfl (fun q hq => by simp [PipeSys.exec, PipeSys.sleep, setPc, hq])
      (by simp [PipeSys.exec, PipeSys.sleep, setPc]) fun _ _ => h.waits p n (Or.inr hc)
  | copy n got =>
    simp only [PipeSys.exec]
    split
    · exact stay _ False.elim (by simp)
    · rename_i hcopy
      refine .goto (t := { s with pipe := s.pipe.get.2 }) hlock hc (fun _ _ _ => id) (by simp)
        fun q d' _ hq => ?_
      simp [h.empty_of hlock hc id hq] at hcopy
  | gave got =>
    refine .goto (t := s.wakeup .nwrite) hlock hc (fun q _ d' hq => woken_holds.mp hq) (by simp)
      fun q d' _ hq => ?_
    have hq := (woken_sleeping.mp hq).1
    exact ⟨(h.sleeper q d' hq).1, Or.inl (h.empty_of hlock hc id hq)⟩
  | finish got | release =>
    exact h.unlock hlock hc id rfl (fun q hq => by simp [PipeSys.exec, PipeSys.leave, setPc, hq])
      (by simp [PipeSys.exec, PipeSys.leave, setPc]) (by simp [PipeSys.exec, PipeSys.leave, setPc])
  | close w =>
    cases w with
    | true => exact wake { s with pipe := s.pipe.shut true } _ rfl (by simp)
    | false =>
      refine .goto (t := { s with pipe := s.pipe.shut false }.wakeup .nwrite) (d := .last) hlock hc
        (fun q _ d' hq => woken_holds.mp hq) (by simp) fun q d' _ hq => ?_
      have hq := (woken_sleeping.mp hq).1
      exact ⟨(h.sleeper q d' hq).1, Or.inl (h.empty_of hlock hc id hq)⟩
  | last =>
    simp only [PipeSys.exec]
    split
    · refine .goto (t := { s with freed := true }) (d := .release) hlock hc (fun _ _ _ => id)
        (by simp) fun q d' _ hq => ⟨(h.sleeper q d' hq).1, Or.inl (h.empty_of hlock hc id hq)⟩
    · exact stay _ False.elim (by simp)

theorem Attended.step {a : PipeAct} {e : PipeEvent} (h : s.Attended) (hlock : s.Locked)
    (hused : s.Used) (hheard : s.Heard a) (hs : s.Stepped a e s') : s'.Attended := by
  -- a process that has no lock goes on waiting
  have wait : ∀ (t : PipeSys) (p : Fin NPROC) (pc : PipePc), (∀ d, s.pc p ≠ .holds d) →
      t.pipe = s.pipe → t.pc = update s.pc p pc → (∀ d, pc ≠ .holds d) →
      (∀ d, pc ≠ .sleeping .nread d) → t.Attended := by
    intro t p pc hp hpipe hpc hnot hawake
    have hne : ∀ q, q ≠ p → t.pc q = s.pc q := fun q hq => by rw [hpc, update_of_ne hq]
    refine ⟨fun q n hq => ?_, fun q d hq => ?_⟩
    · rw [hpipe]
      by_cases hqp : q = p
      · subst hqp
        rw [hpc, update_self] at hq
        exact (hq.elim (hnot _) (hnot _)).elim
      · rw [hne q hqp] at hq
        exact h.waits q n hq
    · rw [hpipe]
      by_cases hqp : q = p
      · subst hqp
        rw [hpc, update_self] at hq
        exact (hawake d hq).elim
      rw [hne q hqp] at hq
      refine ⟨(h.sleeper q d hq).1, (h.sleeper q d hq).2.imp_right ?_⟩
      rintro ⟨r, d', hr, hd'⟩
      have hrp : r ≠ p := by
        rintro rfl
        exact hp d' hr
      exact ⟨r, d', (hne r hrp).trans hr, hd'⟩
  cases hs with
  | @call p c hidle _ _ =>
    exact wait _ p (.acquire c.enter) (by simp [hidle]) rfl rfl (by simp) (by simp)
  | @acquire p c hc hl =>
    have hfree : ∀ q d, s.pc q ≠ .holds d := fun q d hq => by
      have := hlock.holder q d hq
      rw [hl] at this
      cases this
    have hentry := hlock.entry p c hc
    refine ⟨fun q n hq => ?_, fun q d hq => ?_⟩
    · by_cases hqp : q = p
      · subst hqp
        simp only [PipeSys.goto, setPc, update_self, PipePc.holds.injEq] at hq
        rcases hq with rfl | rfl
        · exact hentry.elim
        · exact hentry.elim
      · simp only [PipeSys.goto, setPc, update_of_ne hqp] at hq
        exact (hq.elim (hfree q _) (hfree q _)).elim
    · by_cases hqp : q = p
      · subst hqp
        simp [PipeSys.goto, setPc] at hq
      · simp only [PipeSys.goto, setPc, update_of_ne hqp] at hq
        refine ⟨(h.sleeper q d hq).1, (h.sleeper q d hq).2.imp_right ?_⟩
        rintro ⟨r, d', hr, -⟩
        exact (hfree r d' hr).elim
  | exec hc => exact h.exec hlock hused hheard hc
  | @kill p =>
    cases hpc : s.pc p with
    | sleeping ch c =>
      exact wait _ p (.acquire c) (by simp [hpc]) rfl (by simp [setPc, PipePc.roused]) (by simp) (by simp)
    | idle | acquire _ | holds _ =>
      have hsame : update s.pc p (s.pc p) = s.pc := update_eq_self p s.pc
      rw [hpc] at hsame
      refine ⟨fun q n hq => h.waits q n ?_, fun q d hq => ?_⟩
      · simpa [setPc, PipePc.roused, hsame] using hq
      · simp only [setPc, PipePc.roused, hsame] at hq ⊢
        exact h.sleeper q d hq

end PipeSys

/-- In every state in which the lock is free, as long as killed writers give up on a full
pipe only while no reader sleeps, a process that sleeps on `&p->nread` finds the pipe empty
and open for writing. -/
theorem no_reader_sleeps_on_data {s : PipeSys} {ls : List (PipeAct × PipeEvent)}
    {data : Nat → UInt8} {killed : Fin NPROC → Bool}
    (h : Lib.Run (Lib.When (fun t l => t.Heard l.1) PipeStep) (.fresh data killed) ls s)
    (hfree : s.lock = none) (q : Fin NPROC) (c : PipeAt) (hq : s.pc q = .sleeping .nread c) :
    s.pipe.nread = s.pipe.nwrite ∧ s.pipe.writeopen = true := by
  have hinv : s.Locked ∧ s.Used ∧ s.Attended := by
    refine h.invariant (fun t => t.Locked ∧ t.Used ∧ t.Attended) ?_ fun t l u ht hs => ?_
    · exact ⟨(PipeSys.fresh_fifo data killed).locked, ⟨nofun, nofun, nofun, nofun⟩, ⟨nofun, nofun⟩⟩
    · have hst := PipeSys.step_stepped hs.2
      exact ⟨ht.1.step hst, ht.2.1.step hst, ht.2.2.step ht.1 ht.2.1 hs.1 hst⟩
  obtain ⟨hlock, -, hatt⟩ := hinv
  obtain ⟨hw, he | ⟨p, d, hp, -⟩⟩ := hatt.sleeper q c hq
  · exact ⟨of_decide_eq_true he, hw⟩
  · have := hlock.holder p d hp
    rw [hfree] at this
    cases this

/-- A reader that finds the pipe empty sleeps. -/
theorem no_reader_sleeps_on_fresh_pipe : ∃ s : PipeSys, s.lock = none ∧
    s.pc 0 = .sleeping .nread (.read 1) ∧ s.pipe.nread = s.pipe.nwrite ∧
    s.pipe.writeopen = true := by
  let s0 : PipeSys := .fresh (fun _ => 0) fun _ => false
  have hrun : ∃ s, Lib.Run (Lib.When (fun t l => t.Heard l.1) PipeStep) s0
      ([(.call 0 (.read 1), .silent)] ++ [(.run 0, .silent)] ++ [(.run 0, .silent)] ++
        [(.run 0, .silent)] ++ [(.run 0, .silent)]) s ∧
      s.lock = none ∧ s.pc 0 = .sleeping .nread (.read 1) :=
    ⟨_, ((((Lib.Run.single ⟨trivial, rfl⟩).snoc ⟨nofun, rfl⟩).snoc ⟨nofun, rfl⟩).snoc
      ⟨nofun, rfl⟩).snoc ⟨nofun, rfl⟩, rfl, rfl⟩
  obtain ⟨s, hrun, hl, hq⟩ := hrun
  exact ⟨s, hl, hq, no_reader_sleeps_on_data hrun hl 0 _ hq⟩

/-- A reader sleeps; a writer of 513 bytes is killed while it waits for the lock. It fills
the pipe and gives up, and the reader sleeps on 512 bytes. -/
theorem reader_sleeps_on_full_pipe : ∃ ls s q c,
    Lib.Run PipeStep (.fresh (fun _ => 0) fun _ => false) ls s ∧ s.lock = none ∧
    s.pc q = .sleeping .nread c ∧ s.pipe.nread ≠ s.pipe.nwrite := by
  obtain ⟨ls, s, hrun, hs⟩ := Lib.Run.exists_of_trace (f := PipeSys.step)
    (s := .fresh (fun _ => 0) fun _ => false) (p := fun r => decide (r.2.lock = none ∧
      r.2.pc 0 = .sleeping .nread (.read 1) ∧ r.2.pipe.nread ≠ r.2.pipe.nwrite))
    ([.call 0 (.read 1), .run 0, .run 0, .run 0, .run 0, .call 1 (.write (List.replicate 513 1)), .kill 1] ++
      List.replicate 516 (.run 1)) (by decide +kernel)
  obtain ⟨hl, hq, hne⟩ := of_decide_eq_true hs
  exact ⟨ls, s, 0, .read 1, hrun, hl, hq, hne⟩

end Xv6
