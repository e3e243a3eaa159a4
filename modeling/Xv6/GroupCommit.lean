import Xv6.LogSpec
import Xv6.Lib.Run
import Mathlib.Data.List.Basic
import Mathlib.Data.Finset.Card

/-!
The protocol of `begin_op`, `log_write` and `end_op` between any number of processes. A
step is a critical section of `log.lock`, or the tests that `log_write` makes before it
takes the lock, or the end of `commit`.
-/

namespace Xv6

/-- Where a process stands. In an operation it has logged the distinct blocks `bs`;
`logging` is past the tests of `log_write`, `ending` past `commit`. -/
inductive Phase where
  | outside
  | inside (bs : List Nat)
  | logging (bs : List Nat) (b : Nat)
  | commits
  | ending
deriving DecidableEq, Repr

structure LogSystem where
  log : Log
  phase : Nat → Phase

def LogSystem.start (area : LogArea) : LogSystem where
  log := { area := area }
  phase := fun _ => .outside

def LogSystem.set (s : LogSystem) (p : Nat) (g : Log) (x : Phase) : LogSystem where
  log := g
  phase := Function.update s.phase p x

/-- The steps of a process. `check` and `record` are the two parts of `log_write`. -/
inductive LogCall where
  | beginOp (p : Nat)
  | check (p b : Nat)
  | record (p b : Nat)
  | endOp (p : Nat)
  | clear (p : Nat)
  | finish (p : Nat)
deriving DecidableEq, Repr

/-- A step, where the process has come to it. A process that finds no room in
`begin_op` sleeps and leaves the log as it is. -/
def LogCall.perform (a : LogCall) (s : LogSystem) : Except Halt LogSystem :=
  match a with
  | .beginOp p =>
    match s.phase p, s.log.beginOp with
    | .outside, .ok g => pure (s.set p g (.inside []))
    | .outside, .error _ => pure s
    | _, _ => throw .undefined
  | .check p b =>
    match s.phase p with
    | .inside bs => do
        s.log.checkWrite
        pure (s.set p s.log (.logging bs b))
    | _ => throw .undefined
  | .record p b =>
    match s.phase p with
    | .logging bs b' =>
      if b = b' then pure (s.set p (s.log.absorb b) (.inside (bs.insert b))) else throw .undefined
    | _ => throw .undefined
  | .endOp p =>
    match s.phase p with
    | .inside _ => do
        let (commit, g) ← s.log.endOp
        pure (s.set p g (if commit then .commits else .outside))
    | _ => throw .undefined
  | .clear p =>
    match s.phase p with
    | .commits => pure (s.set p { s.log with lh := [] } .ending)
    | _ => throw .undefined
  | .finish p =>
    match s.phase p with
    | .ending => pure (s.set p { s.log with committing := false } .outside)
    | _ => throw .undefined

def LogSystem.Step (s : LogSystem) (a : LogCall) (s' : LogSystem) : Prop := a.perform s = .ok s'

def LogCall.Within (n : Nat) (s : LogSystem) (a : LogCall) : Prop :=
  ∀ p b bs, a = .check p b → s.phase p = .inside bs → (bs.insert b).length ≤ n

inductive LogSystem.Stepped (s : LogSystem) : LogCall → LogSystem → Prop where
  | sleeps {p : Nat} (phase : s.phase p = .outside) : Stepped s (.beginOp p) s
  | beginOp {p : Nat} (phase : s.phase p = .outside) (running : s.log.committing = false)
      (room : s.log.lh.length + (s.log.outstanding + 1) * MAXOPBLOCKS ≤ LOGSIZE) :
      Stepped s (.beginOp p)
        (s.set p { s.log with outstanding := s.log.outstanding + 1 } (.inside []))
  | check {p b : Nat} {bs : List Nat} (phase : s.phase p = .inside bs) :
      Stepped s (.check p b) (s.set p s.log (.logging bs b))
  | record {p b : Nat} {bs : List Nat} (phase : s.phase p = .logging bs b) :
      Stepped s (.record p b) (s.set p (s.log.absorb b) (.inside (bs.insert b)))
  | endOp {p : Nat} {bs : List Nat} (phase : s.phase p = .inside bs)
      (running : s.log.committing = false) (more : s.log.outstanding - 1 ≠ 0) :
      Stepped s (.endOp p) (s.set p { s.log with outstanding := s.log.outstanding - 1 } .outside)
  | lastOp {p : Nat} {bs : List Nat} (phase : s.phase p = .inside bs)
      (running : s.log.committing = false) (last : s.log.outstanding - 1 = 0) :
      Stepped s (.endOp p) (s.set p { s.log with outstanding := 0, committing := true } .commits)
  | clear {p : Nat} (phase : s.phase p = .commits) :
      Stepped s (.clear p) (s.set p { s.log with lh := [] } .ending)
  | finish {p : Nat} (phase : s.phase p = .ending) :
      Stepped s (.finish p) (s.set p { s.log with committing := false } .outside)

theorem LogSystem.step_stepped {s s' : LogSystem} {a : LogCall} (h : s.Step a s') :
    s.Stepped a s' := by
  cases a with
  | beginOp p =>
    simp only [LogSystem.Step, LogCall.perform] at h
    split at h
    · rename_i g hphase hg
      cases h
      simp only [Log.beginOp] at hg
      split at hg
      · cases hg
      split at hg
      · cases hg
      rename_i hrun hroom
      cases hg
      exact .beginOp hphase (by simpa using hrun) (by omega)
    · rename_i e hphase hg
      cases h
      exact .sleeps hphase
    · cases h
  | check p b =>
    simp only [LogSystem.Step, LogCall.perform] at h
    split at h
    · rename_i bs hphase
      obtain ⟨_, -, h⟩ := Lib.bind_eq_ok.mp h
      cases h
      exact .check hphase
    · cases h
  | record p b =>
    simp only [LogSystem.Step, LogCall.perform] at h
    split at h
    · rename_i bs b' hphase
      split at h
      · rename_i hb
        subst hb
        cases h
        exact .record hphase
      · cases h
    · cases h
  | endOp p =>
    simp only [LogSystem.Step, LogCall.perform] at h
    split at h
    · rename_i bs hphase
      obtain ⟨⟨commit, g⟩, hg, h⟩ := Lib.bind_eq_ok.mp h
      cases h
      simp only [Log.endOp] at hg
      split at hg
      · cases hg
      rename_i hrun
      split at hg
      · rename_i hlast
        cases hg
        simpa [hlast] using Stepped.lastOp hphase (by simpa using hrun) hlast
      · rename_i hmore
        cases hg
        exact .endOp hphase (by simpa using hrun) hmore
    · cases h
  | clear p =>
    simp only [LogSystem.Step, LogCall.perform] at h
    split at h
    · rename_i hphase
      cases h
      exact .clear hphase
    · cases h
  | finish p =>
    simp only [LogSystem.Step, LogCall.perform] at h
    split at h
    · rename_i hphase
      cases h
      exact .finish hphase
    · cases h

def Phase.inOp : Phase → Bool
  | .inside _ | .logging _ _ => true
  | _ => false

def Phase.inCommit : Phase → Bool
  | .commits | .ending => true
  | _ => false

def LoggedSince (as : List LogCall) (b : Nat) : Prop :=
  ∃ xs p ys, as = xs ++ .record p b :: ys ∧ ∀ q, .clear q ∉ ys

/-- `outstanding` counts the operations, none of which is open during a commit. -/
structure LogSystem.Inv (s : LogSystem) (as : List LogCall) : Prop where
  count : ∃ S : Finset Nat, (∀ p, p ∈ S ↔ (s.phase p).inOp = true) ∧ S.card = s.log.outstanding
  committer : ∀ p, (s.phase p).inCommit = true → s.log.committing = true
  single : ∀ p q, (s.phase p).inCommit = true → (s.phase q).inCommit = true → p = q
  alone : s.log.committing = true → s.log.outstanding = 0
  nodup : s.log.lh.Nodup
  logged : ∀ b, b ∈ s.log.lh ↔ LoggedSince as b

section
variable {s s' : LogSystem} {as : List LogCall} {a : LogCall} {p b : Nat}

theorem loggedSince_append :
    LoggedSince (as ++ [a]) b ↔
      (∃ p, a = .record p b) ∨ (∀ q, a ≠ .clear q) ∧ LoggedSince as b := by
  constructor
  · rintro ⟨xs, p, ys, has, hno⟩
    rcases List.eq_nil_or_concat ys with rfl | ⟨ys, a', rfl⟩
    · obtain ⟨-, ha⟩ := List.append_inj' has rfl
      exact .inl ⟨p, by simpa using ha⟩
    · rw [List.concat_eq_append] at has hno
      rw [← List.cons_append, ← List.append_assoc] at has
      obtain ⟨rfl, ha⟩ := List.append_inj' has rfl
      obtain rfl : a = a' := by simpa using ha
      refine .inr ⟨fun q e => hno q (by simp [e]), xs, p, ys, rfl, fun q hq => hno q (by simp [hq])⟩
  · rintro (⟨p, rfl⟩ | ⟨hno, xs, p, ys, rfl, hys⟩)
    · exact ⟨as, p, [], rfl, by simp⟩
    · refine ⟨xs, p, ys ++ [a], by simp, fun q hq => ?_⟩
      rcases List.mem_append.mp hq with hq | hq
      · exact hys q hq
      · exact hno q (List.mem_singleton.mp hq).symm

theorem LogSystem.Inv.open_pos (h : s.Inv as) (hp : (s.phase p).inOp = true) :
    0 < s.log.outstanding := by
  obtain ⟨S, hS, hcard⟩ := h.count
  rw [← hcard]
  exact Finset.card_pos.mpr ⟨p, (hS p).mpr hp⟩

theorem LogSystem.Inv.running (h : s.Inv as) (hp : (s.phase p).inOp = true) :
    s.log.committing = false := by
  have hpos := h.open_pos hp
  by_contra hc
  have := h.alone (by simpa using hc)
  omega

/-- The processes in an operation after process `p` has moved to `x`. -/
def openAfter (S : Finset Nat) (p : Nat) (x : Phase) : Finset Nat :=
  if x.inOp then insert p S else S.erase p

theorem mem_openAfter {S : Finset Nat} {g : Log} {x : Phase}
    (hS : ∀ q, q ∈ S ↔ (s.phase q).inOp = true) (q : Nat) :
    q ∈ openAfter S p x ↔ ((s.set p g x).phase q).inOp = true := by
  by_cases hq : q = p
  · subst hq
    by_cases hx : x.inOp = true <;> simp [openAfter, LogSystem.set, hx]
  · by_cases hx : x.inOp = true <;> simp [openAfter, LogSystem.set, hx, hq, hS]

theorem card_openAfter {S : Finset Nat} {x : Phase}
    (hS : ∀ q, q ∈ S ↔ (s.phase q).inOp = true) :
    (openAfter S p x).card + (s.phase p).inOp.toNat = S.card + x.inOp.toNat := by
  by_cases hp : (s.phase p).inOp = true
  · have hmem := (hS p).mpr hp
    have hpos := Finset.card_pos.mpr ⟨p, hmem⟩
    by_cases hx : x.inOp = true
    · simp [openAfter, hx, hp, hmem]
    · simp [openAfter, hx, hp, hmem]
      omega
  · have hmem : p ∉ S := fun h => hp ((hS p).mp h)
    by_cases hx : x.inOp = true <;> simp [openAfter, hx, hp, hmem]

theorem LogSystem.set_phase_self (s : LogSystem) (p : Nat) (g : Log) (x : Phase) :
    (s.set p g x).phase p = x := by
  simp [LogSystem.set]

theorem LogSystem.set_phase_of_ne {q : Nat} (hq : q ≠ p) (g : Log) (x : Phase) :
    (s.set p g x).phase q = s.phase q := by
  simp [LogSystem.set, hq]

/-- Process `p` moves to `x` and the log becomes `g`. A process that is committing
afterwards was committing before, unless it is `p` and no other was. -/
theorem LogSystem.Inv.set {g : Log} {x : Phase} (h : s.Inv as)
    (hcount : g.outstanding + (s.phase p).inOp.toNat = s.log.outstanding + x.inOp.toNat)
    (hself : x.inCommit = true →
      g.committing = true ∧ ((s.phase p).inCommit = true ∨ s.log.committing = false))
    (hother : s.log.committing = true → (s.phase p).inCommit = true ∨ g.committing = true)
    (halone : g.committing = true → g.outstanding = 0) (hnodup : g.lh.Nodup)
    (hlogged : ∀ b, b ∈ g.lh ↔ LoggedSince (as ++ [a]) b) : (s.set p g x).Inv (as ++ [a]) := by
  obtain ⟨S, hS, hcard⟩ := h.count
  have honly : x.inCommit = true → ∀ q, (s.phase q).inCommit = true → q = p := by
    intro hx q hq
    rcases (hself hx).2 with hp | hidle
    · exact h.single q p hq hp
    · rw [h.committer q hq] at hidle
      cases hidle
  refine ⟨⟨openAfter S p x, mem_openAfter hS, ?_⟩, ?_, ?_, halone, hnodup, hlogged⟩
  · have hafter := card_openAfter (p := p) (x := x) hS
    show (openAfter S p x).card = g.outstanding
    omega
  · intro q hq
    by_cases hqp : q = p
    · subst hqp
      rw [LogSystem.set_phase_self] at hq
      exact (hself hq).1
    · rw [LogSystem.set_phase_of_ne hqp] at hq
      rcases hother (h.committer q hq) with hp | hg
      · exact absurd (h.single q p hq hp) hqp
      · exact hg
  · intro q r hq hr
    by_cases hqp : q = p <;> by_cases hrp : r = p
    · rw [hqp, hrp]
    · subst hqp
      rw [LogSystem.set_phase_self] at hq
      rw [LogSystem.set_phase_of_ne hrp] at hr
      exact absurd (honly hq r hr) hrp
    · subst hrp
      rw [LogSystem.set_phase_self] at hr
      rw [LogSystem.set_phase_of_ne hqp] at hq
      exact absurd (honly hr q hq) hqp
    · rw [LogSystem.set_phase_of_ne hqp] at hq
      rw [LogSystem.set_phase_of_ne hrp] at hr
      exact h.single q r hq hr

theorem LogSystem.Inv.logged_other (h : s.Inv as) (hrecord : ∀ p b, a ≠ .record p b)
    (hclear : ∀ p, a ≠ .clear p) (b : Nat) : b ∈ s.log.lh ↔ LoggedSince (as ++ [a]) b := by
  rw [h.logged b, loggedSince_append]
  constructor
  · exact fun hb => .inr ⟨hclear, hb⟩
  · rintro (⟨p, hp⟩ | ⟨-, hb⟩)
    · exact absurd hp (hrecord p b)
    · exact hb

theorem LogSystem.Inv.step (h : s.Inv as) (hs : s.Stepped a s') : s'.Inv (as ++ [a]) := by
  cases hs with
  | sleeps hp =>
    exact ⟨h.count, h.committer, h.single, h.alone, h.nodup, h.logged_other (by simp) (by simp)⟩
  | beginOp hp hrun hroom =>
    refine h.set ?_ ?_ .inr ?_ h.nodup (h.logged_other (by simp) (by simp))
    · simp [hp, Phase.inOp]
    · simp [Phase.inCommit]
    · simp [hrun]
  | check hp =>
    refine h.set ?_ ?_ .inr h.alone h.nodup (h.logged_other (by simp) (by simp))
    · simp [hp, Phase.inOp]
    · simp [Phase.inCommit]
  | @record p b bs hp =>
    have hrun := h.running (p := p) (by simp [hp, Phase.inOp])
    refine h.set ?_ ?_ ?_ ?_ (Log.nodup_absorb h.nodup b) ?_
    · simp [hp, Phase.inOp, Log.absorb_eq]
    · simp [Phase.inCommit]
    · simp [hrun]
    · simp [Log.absorb_eq, hrun]
    · intro b'
      rw [Log.mem_absorb, h.logged, loggedSince_append]
      simp [or_comm, eq_comm]
  | endOp hp hrun hmore =>
    refine h.set ?_ ?_ .inr ?_ h.nodup (h.logged_other (by simp) (by simp))
    · simp only [hp, Phase.inOp, Bool.toNat_true, Bool.toNat_false]
      omega
    · simp [Phase.inCommit]
    · simp [hrun]
  | @lastOp p bs hp hrun hlast =>
    have hpos := h.open_pos (p := p) (by simp [hp, Phase.inOp])
    refine h.set ?_ (fun _ => ⟨rfl, .inr hrun⟩) (fun _ => .inr rfl) (fun _ => rfl) h.nodup
      (h.logged_other (by simp) (by simp))
    simp only [hp, Phase.inOp, Bool.toNat_true, Bool.toNat_false]
    omega
  | @clear p hp =>
    have hcommit : (s.phase p).inCommit = true := by simp [hp, Phase.inCommit]
    refine h.set ?_ (fun _ => ⟨h.committer p hcommit, .inl hcommit⟩) .inr h.alone
      List.nodup_nil ?_
    · simp [hp, Phase.inOp]
    · intro b
      rw [loggedSince_append]
      simp
  | @finish p hp =>
    have hcommit : (s.phase p).inCommit = true := by simp [hp, Phase.inCommit]
    refine h.set ?_ ?_ (fun _ => .inl hcommit) (by simp) h.nodup
      (h.logged_other (by simp) (by simp))
    · simp [hp, Phase.inOp]
    · simp [Phase.inCommit]

theorem LogSystem.start_inv (area : LogArea) : (LogSystem.start area).Inv [] where
  count := ⟨∅, by simp [LogSystem.start, Phase.inOp], rfl⟩
  committer := by simp [LogSystem.start, Phase.inCommit]
  single := by simp [LogSystem.start, Phase.inCommit]
  alone := by simp [LogSystem.start]
  nodup := List.nodup_nil
  logged := by
    intro b
    simp [LogSystem.start, LoggedSince]

theorem LogSystem.run_inv {area : LogArea} (h : Lib.Run LogSystem.Step (.start area) as s) :
    s.Inv as := by
  induction h with
  | refl => exact LogSystem.start_inv area
  | snoc _ hs ih => exact ih.step (LogSystem.step_stepped hs)

theorem LogSystem.Inv.closed (h : s.Inv as) (hc : s.log.committing = true) (p : Nat) :
    (s.phase p).inOp = false := by
  by_contra hp
  have := h.running (p := p) (by simpa using hp)
  rw [hc] at this
  cases this

theorem LogSystem.Inv.no_panic (h : s.Inv as) (a : LogCall) :
    a.perform s ≠ .error (.panic "log.committing") := by
  intro hpanic
  cases a with
  | beginOp p =>
    simp only [LogCall.perform] at hpanic
    split at hpanic <;> cases hpanic
  | check p b =>
    simp only [LogCall.perform] at hpanic
    split at hpanic
    · simp only [Log.checkWrite] at hpanic
      split at hpanic
      · exact absurd (Halt.panic.inj (Except.error.inj hpanic)) (by decide)
      · split at hpanic
        · exact absurd (Halt.panic.inj (Except.error.inj hpanic)) (by decide)
        · cases hpanic
    · cases hpanic
  | record p b =>
    simp only [LogCall.perform] at hpanic
    split at hpanic
    · split at hpanic <;> cases hpanic
    · cases hpanic
  | endOp p =>
    simp only [LogCall.perform] at hpanic
    split at hpanic
    · rename_i bs hp
      have hrun := h.running (p := p) (by simp [hp, Phase.inOp])
      simp only [Log.endOp, hrun, Bool.false_eq_true, if_false] at hpanic
      split at hpanic <;> cases hpanic
    · cases hpanic
  | clear p =>
    simp only [LogCall.perform] at hpanic
    split at hpanic <;> cases hpanic
  | finish p =>
    simp only [LogCall.perform] at hpanic
    split at hpanic <;> cases hpanic

end

/-- A commit has the log to itself: no operation is open, none logs a block, and the
blocks it writes are all those logged since the log was last cleared, each once. -/
theorem group_commit_exclusion {area : LogArea} {s : LogSystem} {as : List LogCall}
    (h : Lib.Run LogSystem.Step (.start area) as s) :
    (s.log.committing = true → s.log.outstanding = 0 ∧ ∀ p, (s.phase p).inOp = false) ∧
    (∀ p, (s.phase p).inCommit = true → s.log.committing = true) ∧
    (∀ a s', s.log.committing = true → s.Step a s' →
      (∀ p b, a ≠ .check p b ∧ a ≠ .record p b) ∧
      (s'.log.lh = s.log.lh ∨ ∃ p, a = .clear p ∧ s.phase p = .commits)) ∧
    (∀ a : LogCall, a.perform s ≠ .error (.panic "log.committing")) ∧
    (∀ b, b ∈ s.log.lh ↔ LoggedSince as b) ∧ s.log.lh.Nodup := by
  have hinv := LogSystem.run_inv h
  refine ⟨fun hc => ⟨hinv.alone hc, hinv.closed hc⟩, hinv.committer, ?_, hinv.no_panic,
    hinv.logged, hinv.nodup⟩
  intro a s' hc hs
  have hno : ∀ p, (s.phase p).inOp ≠ true := fun p hp => by simp [hinv.closed hc p] at hp
  cases LogSystem.step_stepped hs with
  | sleeps hp => exact ⟨by simp, .inl rfl⟩
  | beginOp hp hrun hroom => exact ⟨by simp, .inl rfl⟩
  | @check p b bs hp => exact absurd (by simp [hp, Phase.inOp]) (hno p)
  | @record p b bs hp => exact absurd (by simp [hp, Phase.inOp]) (hno p)
  | endOp hp hrun hmore => exact ⟨by simp, .inl rfl⟩
  | lastOp hp hrun hlast => exact ⟨by simp, .inl rfl⟩
  | clear hp => exact ⟨by simp, .inr ⟨_, rfl, hp⟩⟩
  | finish hp => exact ⟨by simp, .inl rfl⟩

/-- Two operations log block 40 and are committed together. -/
theorem group_commit_two_operations :
    ∃ as s, Lib.Run LogSystem.Step (.start mkfsLog) as s ∧ s.log.committing = true ∧
      s.log.lh = [40] ∧ s.log.outstanding = 0 ∧ LoggedSince as 40 := by
  obtain ⟨s, hrun, hs⟩ := Lib.Run.exists_of_foldlM
    [.beginOp 0, .beginOp 1, .check 0 40, .check 1 40, .record 0 40, .record 1 40, .endOp 0, .endOp 1]
    (f := fun s a => LogCall.perform a s) (s := .start mkfsLog)
    (p := fun s => s.log.committing && s.log.lh == [40]) (by decide)
  obtain ⟨hc, hlh⟩ := Bool.and_eq_true_iff.mp hs
  obtain ⟨halone, -, -, -, hlogged, -⟩ := group_commit_exclusion hrun
  have hlh : s.log.lh = [40] := by simpa using hlh
  exact ⟨_, s, hrun, hc, hlh, (halone hc).1, (hlogged 40).mp (by simp [hlh])⟩

end Xv6
