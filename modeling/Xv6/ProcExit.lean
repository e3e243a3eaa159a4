import Xv6.ProcTree

/-!
What `exit` does to the process table: its loop passes the children of the process on to
`initproc`, the wakeups reach whoever sleeps in `wait` for a process that has exited, and
the tree is kept.
-/

namespace Xv6

open Function

section
variable {t : Fin NPROC → Task} {p q init : Fin NPROC} {chan : Chan}

structure Woken (ch : Chan) (x y : Task) : Prop where
  parent : y.parent = x.parent
  call : y.call = x.call
  chan : y.chan = x.chan
  state : y.state = x.state ∨ x.state = .sleeping ∧ x.chan = some ch ∧ y.state = .runnable
  awake : y.state = .sleeping → y.chan ≠ some ch

theorem woken_wakeup1 (t : Fin NPROC → Task) (chan : Chan) (q : Fin NPROC) :
    Woken chan (t q) (wakeup1 t chan q) := by
  unfold wakeup1
  split
  · rename_i h
    exact ⟨rfl, rfl, rfl, Or.inr ⟨h.1, h.2, rfl⟩, nofun⟩
  · rename_i h
    exact ⟨rfl, rfl, rfl, Or.inl rfl, fun hs hc => h ⟨hs, hc⟩⟩

/-- What the loop over the children has done after the slots `qs`. -/
structure Passed (p init : Fin NPROC) (qs : List (Fin NPROC)) (t t' : Fin NPROC → Task) : Prop where
  call : ∀ q, (t' q).call = (t q).call
  chan : ∀ q, (t' q).chan = (t q).chan
  parent : ∀ q, (t' q).parent =
    if (t q).parent = some p ∧ q ∈ qs then some init else (t q).parent
  state : ∀ q, (t' q).state = (t q).state ∨
    (t q).state = .sleeping ∧ (t q).chan = some (.proc init) ∧ (t' q).state = .runnable
  awake : (∃ r ∈ qs, (t r).parent = some p ∧ (t r).state = .zombie) →
    ∀ q, (t' q).state = .sleeping → (t' q).chan ≠ some (.proc init)

theorem Passed.cons {t1 t' : Fin NPROC → Task} {qs : List (Fin NPROC)} (hne : init ≠ p)
    (hcall : ∀ r, (t1 r).call = (t r).call) (hchan : ∀ r, (t1 r).chan = (t r).chan)
    (hparent : ∀ r, (t1 r).parent = if (t r).parent = some p ∧ r = q then some init else (t r).parent)
    (hstate : ∀ r, (t1 r).state = (t r).state ∨
      (t r).state = .sleeping ∧ (t r).chan = some (.proc init) ∧ (t1 r).state = .runnable)
    (hawake : (t q).parent = some p → (t q).state = .zombie →
      ∀ r, (t1 r).state = .sleeping → (t1 r).chan ≠ some (.proc init))
    (h : Passed p init qs t1 t') : Passed p init (q :: qs) t t' := by
  refine ⟨fun r => (h.call r).trans (hcall r), fun r => (h.chan r).trans (hchan r), fun r => ?_,
    fun r => ?_, fun hz r hs => ?_⟩
  · rw [h.parent, hparent]
    by_cases hr : (t r).parent = some p
    · by_cases hrq : r = q
      · subst hrq
        simp [hr, hne]
      · simp [hr, hrq]
    · simp [hr]
  · rcases h.state r with he | ⟨h1, h2, h3⟩
    · rcases hstate r with he' | ⟨h1, h2, h3⟩
      · exact Or.inl (he.trans he')
      · exact Or.inr ⟨h1, h2, he.trans h3⟩
    · rw [hchan] at h2
      rcases hstate r with he' | ⟨-, -, h4⟩
      · exact Or.inr ⟨he'.symm.trans h1, h2, h3⟩
      · rw [h1] at h4
        cases h4
  · obtain ⟨u, hu, hup, huz⟩ := hz
    have huz1 : (t1 u).state = .zombie := by
      rcases hstate u with he | ⟨h1, -⟩
      · exact he.trans huz
      · rw [huz] at h1
        cases h1
    by_cases huq : u = q
    · subst huq
      rw [h.chan]
      refine hawake hup huz r ?_
      rcases h.state r with he | ⟨-, -, h3⟩
      · exact he.symm.trans hs
      · rw [hs] at h3
        cases h3
    · refine h.awake ⟨u, (List.mem_cons.mp hu).resolve_left huq, ?_, huz1⟩ r hs
      rw [hparent, if_neg (by simp [huq])]
      exact hup

theorem passChildren_passed (hne : init ≠ p) (qs : List (Fin NPROC)) (t : Fin NPROC → Task) :
    Passed p init qs t (passChildren p init qs t) := by
  induction qs generalizing t with
  | nil => exact ⟨fun _ => rfl, fun _ => rfl, fun q => by simp [passChildren], fun _ => Or.inl rfl, by simp⟩
  | cons q qs ih =>
    rw [passChildren]
    split
    · rename_i hq
      dsimp only
      let t0 := update t q { t q with parent := some init }
      have h0 : ∀ r, (t0 r).call = (t r).call ∧ (t0 r).chan = (t r).chan ∧
          (t0 r).state = (t r).state ∧
          (t0 r).parent = if (t r).parent = some p ∧ r = q then some init else (t r).parent := by
        intro r
        by_cases hrq : r = q
        · subst hrq
          simp [t0, hq]
        · simp [t0, hrq]
      by_cases hz : (t0 q).state = .zombie
      · rw [if_pos hz]
        have hw := woken_wakeup1 t0 (.proc init)
        refine (ih _).cons hne (fun r => (hw r).call.trans (h0 r).1)
          (fun r => (hw r).chan.trans (h0 r).2.1) (fun r => (hw r).parent.trans (h0 r).2.2.2)
          (fun r => ?_) fun _ _ r hs => (hw r).awake hs
        rw [← (h0 r).2.2.1, ← (h0 r).2.1]
        exact (hw r).state
      · rw [if_neg hz]
        refine (ih _).cons hne (fun r => (h0 r).1) (fun r => (h0 r).2.1) (fun r => (h0 r).2.2.2)
          (fun r => Or.inl (h0 r).2.2.1) fun _ hzq => ?_
        exact (hz ((h0 q).2.2.1.trans hzq)).elim
    · rename_i hq
      refine (ih t).cons hne (fun _ => rfl) (fun _ => rfl) (fun r => ?_) (fun _ => Or.inl rfl)
        fun hp => (hq hp).elim
      by_cases hrq : r = q
      · subst hrq
        simp [hq]
      · simp [hrq]

end

namespace Ptable

variable {t t' : Ptable} {ex : List (Fin NPROC × Nat)} {p q c np : Fin NPROC}

structure Exited (t : Ptable) (p : Fin NPROC) (t' : Ptable) : Prop where
  initproc : t'.initproc = t.initproc
  gen : t'.gen = t.gen
  maker : t'.maker = t.maker
  call : ∀ q, (t'.task q).call = (t.task q).call
  chan : ∀ q, (t'.task q).chan = (t.task q).chan
  parent : ∀ q, (t'.task q).parent =
    if (t.task q).parent = some p then some t.initproc else (t.task q).parent
  self : (t'.task p).state = .zombie
  state : ∀ q, q ≠ p → (t'.task q).state = (t.task q).state ∨
    (t.task q).state = .sleeping ∧ (t'.task q).state = .runnable
  parent_awake : ∀ w, (t.task p).parent = some w → (t'.task w).state = .sleeping →
    (t'.task w).chan ≠ some (.proc w)
  init_awake : ∀ c, c ≠ p → (t.task c).parent = some p → (t.task c).state = .zombie →
    (t'.task t.initproc).state = .sleeping → (t'.task t.initproc).chan ≠ some (.proc t.initproc)

theorem exit_exited (hp : p ≠ t.initproc) : t.Exited p (t.exit p) := by
  obtain ⟨ts, hts, hsame, hawake⟩ : ∃ ts : Fin NPROC → Task,
      t.exit p = { t with
        task := update (passChildren p t.initproc (List.finRange NPROC) ts) p
          { passChildren p t.initproc (List.finRange NPROC) ts p with state := .zombie } } ∧
      (∀ q, (ts q).parent = (t.task q).parent ∧ (ts q).call = (t.task q).call ∧
        (ts q).chan = (t.task q).chan ∧ ((ts q).state = (t.task q).state ∨
          (t.task q).state = .sleeping ∧ (ts q).state = .runnable)) ∧
      ∀ w, (t.task p).parent = some w → (ts w).state = .sleeping → (ts w).chan ≠ some (.proc w) := by
    cases hpar : (t.task p).parent with
    | none =>
      refine ⟨t.task, by simp [exit, hpar], fun q => ⟨rfl, rfl, rfl, Or.inl rfl⟩, nofun⟩
    | some w =>
      have hw := woken_wakeup1 t.task (.proc w)
      refine ⟨wakeup1 t.task (.proc w), by simp [exit, hpar], fun q => ?_, fun w' hw' hs => ?_⟩
      · refine ⟨(hw q).parent, (hw q).call, (hw q).chan, (hw q).state.imp_right ?_⟩
        exact fun h => ⟨h.1, h.2.2⟩
      · cases hw'
        exact (hw w).awake hs
  have hpass := passChildren_passed (Ne.symm hp) (List.finRange NPROC) ts
  generalize passChildren p t.initproc (List.finRange NPROC) ts = ts' at hts hpass
  have hne : ∀ q, q ≠ p → (t.exit p).task q = ts' q := by
    intro q hq
    rw [hts]
    exact update_of_ne hq ..
  have hself : (t.exit p).task p = { ts' p with state := .zombie } := by
    rw [hts]
    exact update_self ..
  have hall : ∀ q, ((t.exit p).task q).call = (ts' q).call ∧
      ((t.exit p).task q).chan = (ts' q).chan ∧ ((t.exit p).task q).parent = (ts' q).parent := by
    intro q
    by_cases hqp : q = p
    · rw [hqp, hself]
      exact ⟨rfl, rfl, rfl⟩
    · rw [hne q hqp]
      exact ⟨rfl, rfl, rfl⟩
  have hstate : ∀ q, q ≠ p → ((t.exit p).task q).state = (t.task q).state ∨
      (t.task q).state = .sleeping ∧ ((t.exit p).task q).state = .runnable := by
    intro q hq
    rw [hne q hq]
    rcases hpass.state q with he | ⟨h1, -, h3⟩
    · rw [he]
      exact (hsame q).2.2.2
    · rcases (hsame q).2.2.2 with he' | ⟨-, h4⟩
      · exact Or.inr ⟨he'.symm.trans h1, h3⟩
      · rw [h1] at h4
        cases h4
  refine ⟨by rw [hts], by rw [hts], by rw [hts], fun q => ?_, fun q => ?_, fun q => ?_,
    by rw [hself], hstate, fun w hw hs => ?_, fun c hcp hc hz hs => ?_⟩
  · rw [(hall q).1, hpass.call, (hsame q).2.1]
  · rw [(hall q).2.1, hpass.chan, (hsame q).2.2.1]
  · rw [(hall q).2.2, hpass.parent, (hsame q).1]
    simp
  · have hwp : w ≠ p := by
      rintro rfl
      rw [hself] at hs
      cases hs
    rw [hne w hwp] at hs ⊢
    have hs' : (ts w).state = .sleeping := by
      rcases hpass.state w with he | ⟨h1, -⟩
      · exact he.symm.trans hs
      · exact h1
    rw [hpass.chan]
    exact hawake w hw hs'
  · rw [hne _ (Ne.symm hp)] at hs ⊢
    refine hpass.awake ⟨c, List.mem_finRange c, (hsame c).1.trans hc, ?_⟩ _ hs
    rcases (hsame c).2.2.2 with he | ⟨h1, -⟩
    · exact he.trans hz
    · rw [hz] at h1
      cases h1

theorem Inv.exit (h : t.Inv ex) (hp : (t.task p).Alive) (hcall : (t.task p).call = .none)
    (he : t.Exited p t') (hpi : p ≠ t.initproc) : t'.Inv (ex ++ [t.ident p]) := by
  have hident : t'.ident = t.ident := by
    funext q
    rw [ident, ident, he.gen]
  have halive : ∀ q, q ≠ p → (t.task q).Alive → (t'.task q).Alive := by
    intro q hq ha
    rcases he.state q hq with hs | ⟨-, hs⟩
    · unfold Task.Alive
      rw [hs]
      exact ha
    · exact Or.inl hs
  have hcalls : ∀ q call, (t.task q).call = call → call ≠ .none → q ≠ p := by
    rintro q call hq hne rfl
    exact hne (hq.symm.trans hcall)
  have hkeep : ∀ q σ, q ≠ p → σ ≠ .runnable → (t'.task q).state = σ → (t.task q).state = σ := by
    intro q σ hq hσ hs
    rcases he.state q hq with hs' | ⟨-, hs'⟩
    · exact hs'.symm.trans hs
    · exact (hσ (hs.symm.trans hs')).elim
  refine ⟨?_, fun c hc hu hemb => ?_, fun c hu => ?_, fun c w hemb hw => ?_, fun q n b hf => ?_,
    fun q r n b b' hq hr => ?_, fun q hw => ?_, fun q c hs hw hpc hz => ?_, ?_, fun c hc => ?_⟩
  · rw [he.initproc]
    exact halive _ (Ne.symm hpi) h.init
  · rw [he.initproc] at hc
    have hold : (t.task c).state ≠ .unused ∧ (t.task c).state ≠ .embryo := by
      by_cases hcp : c = p
      · subst hcp
        exact ⟨hp.ne.1, hp.ne.2.1⟩
      · rcases he.state c hcp with hs | ⟨hs, -⟩
        · rw [← hs]
          exact ⟨hu, hemb⟩
        · simp [hs]
    obtain ⟨w, hw, ha, hr⟩ := h.parent c hc hold.1 hold.2
    unfold MayReap at hr ⊢
    rw [he.maker, hident, he.initproc, he.parent, hw]
    -- the children of `p` get a parent that is alive
    by_cases hwp : w = p
    · subst hwp
      rw [if_pos rfl]
      refine ⟨t.initproc, rfl, halive _ (Ne.symm hpi) h.init, Or.inr ⟨rfl, t.ident w, ?_, by simp⟩⟩
      exact hr.resolve_right fun hi => hpi hi.1
    · rw [if_neg (by simpa using hwp)]
      refine ⟨w, rfl, halive w hwp ha, hr.imp_right ?_⟩
      rintro ⟨hi, m, hm, hmem⟩
      exact ⟨hi, m, hm, List.mem_append_left _ hmem⟩
  · have hcp : c ≠ p := by
      rintro rfl
      rw [he.self] at hu
      cases hu
    rw [he.parent, h.unused c (hkeep c _ hcp (by decide) hu)]
    simp
  · have hcp : c ≠ p := by
      rintro rfl
      rw [he.self] at hemb
      cases hemb
    have hemb' := hkeep c _ hcp (by decide) hemb
    rw [he.parent] at hw
    rw [he.call]
    split at hw
    · rename_i hpar
      have := h.embryo c p hemb' hpar
      rw [hcall] at this
      cases this
    · exact h.embryo c w hemb' hw
  · rw [he.call] at hf
    obtain ⟨ha, hemb, hb⟩ := h.forking q n b hf
    have hqp := hcalls q _ hf (by simp)
    have hnp : n ≠ p := by
      rintro rfl
      exact hp.ne.2.1 hemb
    refine ⟨halive q hqp ha, ?_, fun hbt => ?_⟩
    · rcases he.state n hnp with hs | ⟨hs, -⟩
      · exact hs.trans hemb
      · rw [hemb] at hs
        cases hs
    · rw [he.parent, he.maker, hident, (hb hbt).1, if_neg (by simpa using hqp)]
      exact ⟨rfl, (hb hbt).2⟩
  · rw [he.call] at hq hr
    exact h.unique q r n b b' hq hr
  · rw [he.call] at hw
    have hqp := hcalls q _ hw (by simp)
    rw [he.chan]
    rcases h.waiting q hw with hs | ⟨hs, hch⟩
    · rcases he.state q hqp with hs' | ⟨-, hs'⟩
      · exact Or.inl (hs'.trans hs)
      · exact Or.inl hs'
    · rcases he.state q hqp with hs' | ⟨-, hs'⟩
      · exact Or.inr ⟨hs'.trans hs, hch⟩
      · exact Or.inl hs'
  · rw [he.call] at hw
    have hqp := hcalls q _ hw (by simp)
    have hs0 := hkeep q _ hqp (by decide) hs
    have hch : (t'.task q).chan = some (.proc q) := by
      rw [he.chan]
      rcases h.waiting q hw with hr | ⟨-, hch⟩
      · rw [hs0] at hr
        cases hr
      · exact hch
    rw [he.parent] at hpc
    by_cases hcp : c = p
    · subst hcp
      split at hpc
      · rename_i hself
        exact h.other c hself
      · exact he.parent_awake q hpc hs hch
    · have hz0 := hkeep c _ hcp (by decide) hz
      split at hpc
      · rename_i hpar
        cases hpc
        exact he.init_awake c hcp hpar hz0 hs hch
      · exact h.sleeper q c hs0 hw hpc hz0
  · rw [he.initproc, he.parent, h.root]
    simp
  · rw [he.parent] at hc
    split at hc
    · rename_i hpar
      cases hc
      rw [h.root] at hpar
      cases hpar
    · exact h.other c hc

end Ptable

end Xv6
