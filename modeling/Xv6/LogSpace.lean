import Xv6.GroupCommit
import Mathlib.Algebra.Order.BigOperators.Group.Finset

/-!
The space that `begin_op` reserves for each operation, against the test that `log_write`
makes. The test leaves out the last block of the log, which the reservation counts.
-/

namespace Xv6

open Finset LogSystem Phase LogCall

variable {x : Phase} {S : Finset Nat} {g : Log} {n : Nat} {s : LogSystem}

def Phase.blocks : Phase → List Nat
  | .inside bs | .logging bs _ => bs
  | _ => []

/-- The blocks an operation that logs at most `n` may still add. -/
def Phase.left (n : Nat) (x : Phase) : Nat := if x.inOp then n - x.blocks.length else 0

/-- Operations of at most nine blocks never fill the last block of the log. -/
structure LogSystem.Fits (s : LogSystem) (area : LogArea) : Prop where
  place : s.log.area = area
  kept : ∀ p, ∀ b ∈ (s.phase p).blocks, b ∈ s.log.lh
  each : ∀ p b bs, s.phase p = .logging bs b → (bs.insert b).length ≤ 9
  room : ∀ S : Finset Nat, (∀ p, p ∈ S ↔ (s.phase p).inOp = true) →
    s.log.lh.length + ∑ p ∈ S, (s.phase p).left 9 ≤ 28
  idle : s.log.outstanding = 0 → s.log.committing = false → s.log.lh = []
  ending : ∀ p, s.phase p = .ending → s.log.lh = []

section
variable {s s' : LogSystem} {as : List LogCall} {a : LogCall} {p b : Nat} {area : LogArea}

theorem sum_openAfter (n : Nat) (hS : ∀ q, q ∈ S ↔ (s.phase q).inOp = true) :
    ∑ q ∈ openAfter S p x, ((s.set p g x).phase q).left n + (s.phase p).left n =
      ∑ q ∈ S, (s.phase q).left n + x.left n := by
  have hrest : ∑ q ∈ S.erase p, ((s.set p g x).phase q).left n =
      ∑ q ∈ S.erase p, (s.phase q).left n :=
    sum_congr rfl fun q hq => by
      rw [set_phase_of_ne (ne_of_mem_erase hq)]
  have hold : ∑ q ∈ S, (s.phase q).left n =
      ∑ q ∈ S.erase p, (s.phase q).left n + (s.phase p).left n := by
    by_cases hp : p ∈ S
    · rw [← add_sum_erase _ _ hp, Nat.add_comm]
    · have hleft : (s.phase p).left n = 0 := by
        rw [Phase.left, if_neg fun h => hp ((hS p).mpr h)]
      rw [erase_eq_of_notMem hp, hleft, Nat.add_zero]
  have hnew : ∑ q ∈ openAfter S p x, ((s.set p g x).phase q).left n =
      ∑ q ∈ S.erase p, ((s.set p g x).phase q).left n + x.left n := by
    by_cases hx : x.inOp = true
    · rw [openAfter, if_pos hx, ← add_sum_erase _ _ (mem_insert_self p S),
        erase_insert_eq_erase, set_phase_self, Nat.add_comm]
    · rw [openAfter, if_neg hx, Phase.left, if_neg hx, Nat.add_zero]
  omega

theorem sum_left_le (S : Finset Nat) (f : Nat → Phase) (n : Nat) :
    ∑ q ∈ S, (f q).left n ≤ S.card * n := by
  refine sum_le_card_nsmul S _ n fun q _ => ?_
  rw [Phase.left]
  split
  · exact Nat.sub_le _ _
  · exact Nat.zero_le _

theorem Phase.left_inside (n : Nat) (bs : List Nat) : (Phase.inside bs).left n = n - bs.length := rfl

theorem Phase.left_logging (n : Nat) (bs : List Nat) (b : Nat) :
    (Phase.logging bs b).left n = n - bs.length := rfl

theorem Phase.left_of_not_inOp (n : Nat) (h : x.inOp = false) : x.left n = 0 := by
  simp [Phase.left, h]

theorem room_of_not_inOp {m m' : Nat} (hx : x.inOp = false) (hm : m' ≤ m)
    (hroom : m + ∑ q ∈ S, (s.phase q).left 9 ≤ 28) :
    m' + (∑ q ∈ S, (s.phase q).left 9 + x.left 9) ≤ 28 + (s.phase p).left 9 := by
  rw [left_of_not_inOp 9 hx]
  omega

theorem Phase.blocks_of_not_inOp (h : x.inOp = false) : x.blocks = [] := by
  cases x with
  | inside bs => cases h
  | logging bs b => cases h
  | outside | commits | ending => rfl

/-- A block that lengthens the log is new to its operation, which had room for it. -/
theorem LogSystem.Fits.length_absorb {bs : List Nat} (h : s.Fits area)
    (hp : s.phase p = .logging bs b) :
    (s.log.absorb b).lh.length + (9 - (bs.insert b).length) ≤ s.log.lh.length + (9 - bs.length) := by
  have heach := h.each p b bs hp
  rw [Log.absorb_eq]
  by_cases hb : b ∈ s.log.lh
  · have := List.length_le_length_insert (l := bs) (a := b)
    simp only [hb, if_true]
    omega
  · have hnew : b ∉ bs := fun hm => hb (h.kept p b (by simpa [hp, Phase.blocks] using hm))
    rw [List.insert_of_not_mem hnew, List.length_cons] at heach ⊢
    simp only [hb, if_false, List.length_append, List.length_singleton]
    omega

/-- Process `p` moves to `x` and the log becomes `g`, which has kept what the open
operations logged. -/
theorem LogSystem.Fits.set (h : s.Fits area) (hi : s.Inv as) (hplace : g.area = s.log.area)
    (hself : ∀ b ∈ x.blocks, b ∈ g.lh) (hothers : ∀ q, ∀ b ∈ (s.phase q).blocks, b ∈ g.lh)
    (heach : ∀ b bs, x = .logging bs b → (bs.insert b).length ≤ 9)
    (hroom : ∀ S : Finset Nat, S.card = s.log.outstanding →
      s.log.lh.length + ∑ q ∈ S, (s.phase q).left 9 ≤ 28 →
      g.lh.length + (∑ q ∈ S, (s.phase q).left 9 + x.left 9) ≤ 28 + (s.phase p).left 9)
    (hidle : g.outstanding = 0 → g.committing = false → g.lh = [])
    (hending : x = .ending → g.lh = []) (hended : ∀ q, s.phase q = .ending → g.lh = []) :
    (s.set p g x).Fits area where
  place := hplace.trans h.place
  kept := by
    intro q b hb
    by_cases hq : q = p
    · subst hq
      rw [set_phase_self] at hb
      exact hself b hb
    · rw [set_phase_of_ne hq] at hb
      exact hothers q b hb
  each := by
    intro q b bs hb
    by_cases hq : q = p
    · subst hq
      rw [set_phase_self] at hb
      exact heach b bs hb
    · rw [set_phase_of_ne hq] at hb
      exact h.each q b bs hb
  room := by
    intro S' hS'
    obtain ⟨S, hS, hcard⟩ := hi.count
    obtain rfl : S' = openAfter S p x := Finset.ext fun q => (hS' q).trans (mem_openAfter hS q).symm
    have hsum := sum_openAfter (p := p) (g := g) (x := x) 9 hS
    have hafter := hroom S hcard (h.room S hS)
    show g.lh.length + _ ≤ 28
    omega
  idle := hidle
  ending := by
    intro q hq
    by_cases hqp : q = p
    · subst hqp
      rw [set_phase_self] at hq
      exact hending hq
    · rw [set_phase_of_ne hqp] at hq
      exact hended q hq

theorem LogSystem.Fits.step (h : s.Fits area) (hi : s.Inv as) (hw : a.Within 9 s)
    (hs : s.Stepped a s') : s'.Fits area := by
  cases hs with
  | sleeps hp => exact h
  | beginOp hp hrun hroom =>
    refine h.set hi rfl (by simp [Phase.blocks]) h.kept (by simp) ?_ (by simp) (by simp) h.ending
    intro S hcard _
    have hleft := sum_left_le S s.phase 9
    have hbound : s.log.lh.length + (s.log.outstanding + 1) * 10 ≤ 30 := hroom
    rw [hcard] at hleft
    simp only [left_inside, List.length_nil]
    -- alone, the operation starts with an empty log
    by_cases hzero : s.log.outstanding = 0
    · rw [h.idle hzero hrun, hzero] at *
      simp at *
      omega
    · omega
  | @check p b bs hp =>
    have hinOp : (s.phase p).inOp = true := by simp [hp, Phase.inOp]
    refine h.set hi rfl ?_ h.kept ?_ ?_ h.idle (by simp) h.ending
    · exact fun b' hb => h.kept p b' (by simpa [hp, Phase.blocks] using hb)
    · rintro b' bs' ⟨⟩
      exact hw p b bs rfl hp
    · intro S _ hroom
      rw [hp, left_logging, left_inside]
      omega
  | @record p b bs hp =>
    have hinOp : (s.phase p).inOp = true := by simp [hp, Phase.inOp]
    have hpos := hi.open_pos hinOp
    refine h.set hi (by rw [Log.absorb_eq]) ?_ ?_ (by simp) ?_ ?_ (by simp) ?_
    · intro b' hb
      rcases List.mem_insert_iff.mp hb with rfl | hb
      · exact Log.mem_absorb.mpr (.inr rfl)
      · exact Log.mem_absorb.mpr (.inl (h.kept p b' (by simpa [hp, Phase.blocks] using hb)))
    · exact fun q b' hb => Log.mem_absorb.mpr (.inl (h.kept q b' hb))
    · intro S _ hroom
      have hafter := h.length_absorb hp
      rw [hp, left_logging, left_inside]
      omega
    · intro hzero
      have hzero : s.log.outstanding = 0 := by simpa only [Log.absorb_eq] using hzero
      omega
    · intro q hq
      have hc := hi.committer q (by simp [hq, Phase.inCommit])
      rw [hi.running hinOp] at hc
      cases hc
  | endOp hp hrun hmore =>
    exact h.set hi rfl (by simp [Phase.blocks]) h.kept (by simp)
      (fun S _ => room_of_not_inOp rfl (Nat.le_refl _)) (fun hzero => absurd hzero hmore) (by simp)
      h.ending
  | lastOp hp hrun hlast =>
    exact h.set hi rfl (by simp [Phase.blocks]) h.kept (by simp)
      (fun S _ => room_of_not_inOp rfl (Nat.le_refl _)) (by simp) (by simp) h.ending
  | @clear p hp =>
    have hc := hi.committer p (by simp [hp, Phase.inCommit])
    refine h.set hi rfl (by simp [Phase.blocks]) ?_ (by simp)
      (fun S _ => room_of_not_inOp rfl (Nat.zero_le _)) (by simp) (by simp) (by simp)
    intro q b hb
    rw [blocks_of_not_inOp (hi.closed hc q)] at hb
    cases hb
  | @finish p hp =>
    exact h.set hi rfl (by simp [Phase.blocks]) h.kept (by simp)
      (fun S _ => room_of_not_inOp rfl (Nat.le_refl _)) (fun _ _ => h.ending p hp) (by simp)
      h.ending

theorem LogSystem.start_fits (area : LogArea) : (LogSystem.start area).Fits area where
  place := rfl
  kept := by simp [LogSystem.start, Phase.blocks]
  each := by simp [LogSystem.start]
  room := by
    intro S hS
    obtain rfl : S = ∅ := eq_empty_of_forall_notMem fun p hp => by
      simpa [LogSystem.start, Phase.inOp] using (hS p).mp hp
    simp [LogSystem.start]
  idle := fun _ _ => rfl
  ending := fun _ _ => rfl

theorem LogSystem.run_fits
    (h : Lib.Run (Lib.When (fun s a => LogCall.Within 9 s a) LogSystem.Step) (.start area) as s) :
    s.Inv as ∧ s.Fits area := by
  induction h with
  | refl => exact ⟨start_inv area, start_fits area⟩
  | snoc _ hs ih =>
    have hstep := step_stepped hs.2
    exact ⟨ih.1.step hstep, ih.2.step ih.1 hs.1 hstep⟩

end

/-- With the log that `mkfs` makes and operations that log fewer than `MAXOPBLOCKS` blocks
each, `log_write` always finds room. -/
theorem log_write_finds_room {area : LogArea} {s : LogSystem} {as : List LogCall}
    (hsize : area.size = LOGSIZE)
    (h : Lib.Run (Lib.When (fun s a => LogCall.Within (MAXOPBLOCKS - 1) s a) LogSystem.Step)
      (.start area) as s) (p b : Nat) :
    (LogCall.check p b).perform s ≠ .error (.panic "too big a transaction") := by
  obtain ⟨hi, hfits⟩ := LogSystem.run_fits h
  obtain ⟨S, hS, -⟩ := hi.count
  have hroom := hfits.room S hS
  have hsize : s.log.area.size = 30 := by rw [hfits.place, hsize]
  have hlog : ¬ (LOGSIZE ≤ s.log.lh.length ∨ s.log.area.size ≤ s.log.lh.length + 1) := by
    show ¬ (30 ≤ _ ∨ _)
    omega
  intro hpanic
  simp only [LogCall.perform] at hpanic
  split at hpanic
  · simp only [Log.checkWrite, if_neg hlog] at hpanic
    split at hpanic
    · exact absurd (Halt.panic.inj (Except.error.inj hpanic)) (by decide)
    · cases hpanic
  · cases hpanic

theorem LogCall.within_check {p b : Nat} :
    (LogCall.check p b).Within n s ↔ ∀ bs, s.phase p = .inside bs → (bs.insert b).length ≤ n := by
  constructor
  · exact fun h bs hp => h p b bs rfl hp
  · rintro h p' b' bs ⟨⟩ hp
    exact h bs hp

instance LogCall.decidableWithin (n : Nat) (s : LogSystem) (a : LogCall) :
    Decidable (a.Within n s) :=
  match a with
  | .check p b =>
    match hp : s.phase p with
    | .inside bs =>
      decidable_of_iff ((bs.insert b).length ≤ n) (by rw [within_check]; simp [hp])
    | .outside => isTrue (by rw [within_check]; simp [hp])
    | .logging _ _ => isTrue (by rw [within_check]; simp [hp])
    | .commits => isTrue (by rw [within_check]; simp [hp])
    | .ending => isTrue (by rw [within_check]; simp [hp])
  | .beginOp _ => isTrue (by simp [LogCall.Within])
  | .record _ _ => isTrue (by simp [LogCall.Within])
  | .endOp _ => isTrue (by simp [LogCall.Within])
  | .clear _ => isTrue (by simp [LogCall.Within])
  | .finish _ => isTrue (by simp [LogCall.Within])

/-- A step that keeps to `n` blocks in each operation, or none. -/
def LogSystem.stepWithin (n : Nat) (s : LogSystem) (a : LogCall) : Except Halt LogSystem :=
  if a.Within n s then a.perform s else throw .undefined

theorem LogSystem.stepWithin_ok {s' : LogSystem} {a : LogCall} (h : s.stepWithin n a = .ok s') :
    Lib.When (fun s a => LogCall.Within n s a) LogSystem.Step s a s' := by
  rw [LogSystem.stepWithin] at h
  split at h
  · rename_i hw
    exact ⟨hw, h⟩
  · cases h

def logWrites (p : Nat) (bs : List Nat) : List LogCall :=
  bs.flatMap fun b => [.check p b, .record p b]

theorem log_write_finds_room_at_twenty_seven :
    ∃ as s, Lib.Run (Lib.When (fun s a => LogCall.Within (MAXOPBLOCKS - 1) s a) LogSystem.Step)
      (.start mkfsLog) as s ∧ s.log.lh.length = 27 ∧
      (LogCall.check 2 60).perform s ≠ .error (.panic "too big a transaction") := by
  obtain ⟨s, hrun, hs⟩ := Lib.Run.exists_of_foldlM
    ([.beginOp 0, .beginOp 1, .beginOp 2] ++ logWrites 0 (List.range' 40 9) ++
      logWrites 1 (List.range' 50 9) ++ logWrites 2 (List.range' 60 9))
    (f := LogSystem.stepWithin (MAXOPBLOCKS - 1)) (s := LogSystem.start mkfsLog)
    (p := fun s : LogSystem => s.log.lh.length == 27) (by decide +kernel)
  have hrun := hrun.mono fun _ _ _ => LogSystem.stepWithin_ok
  exact ⟨_, s, hrun, by simpa using hs, log_write_finds_room rfl hrun 2 60⟩

/-- Three operations of `MAXOPBLOCKS` blocks are admitted, and the last block of the third
finds the log full. -/
theorem log_write_full_at_thirty :
    ∃ as s, Lib.Run (Lib.When (fun s a => LogCall.Within MAXOPBLOCKS s a) LogSystem.Step)
      (.start mkfsLog) as s ∧ (LogCall.check 2 69).Within MAXOPBLOCKS s ∧
      (LogCall.check 2 69).perform s = .error (.panic "too big a transaction") := by
  obtain ⟨s, hrun, hs⟩ := Lib.Run.exists_of_foldlM
    ([.beginOp 0, .beginOp 1, .beginOp 2] ++ logWrites 0 (List.range' 40 10) ++
      logWrites 1 (List.range' 50 10) ++ logWrites 2 (List.range' 60 9))
    (f := LogSystem.stepWithin MAXOPBLOCKS) (s := LogSystem.start mkfsLog)
    (p := fun s : LogSystem => decide ((LogCall.check 2 69).Within MAXOPBLOCKS s) &&
      s.phase 2 == .inside (List.range' 60 9).reverse && decide (s.log.area.size ≤ s.log.lh.length + 1))
    (by decide +kernel)
  simp only [Bool.and_eq_true, decide_eq_true_eq, beq_iff_eq] at hs
  obtain ⟨⟨hw, hp⟩, hfull⟩ := hs
  refine ⟨_, s, hrun.mono fun _ _ _ => LogSystem.stepWithin_ok, hw, ?_⟩
  simp only [LogCall.perform, hp, Log.checkWrite, hfull, or_true, if_true]
  rfl

end Xv6
