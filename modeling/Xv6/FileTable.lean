import Xv6.FileSteps

/-!
The files behind the descriptors. What holds of the table of open files and of the pages of
pipes between any two operations on them: an entry without references has no type, a pipe
has at most one file for each of its ends, an end is marked open as long as it has a file,
and the page has been freed when neither has.
-/

namespace Xv6

/-- File `f` is the end of the pipe in page `pg` that is written, or read. -/
def Files.IsEnd (fs : Files) (pg : Nat) (w : Bool) (f : Nat) : Prop :=
  (fs.file f).type = .pipe ∧ (fs.file f).pipe = some pg ∧ (fs.file f).writable = w

def PipePage.isOpen (x : PipePage) (w : Bool) : Bool := if w then x.writeopen else x.readopen

theorem PipePage.isOpen_close (x : PipePage) (w w' : Bool) :
    (x.close w).isOpen w' = (x.isOpen w' && !(w == w')) := by
  cases w <;> cases w' <;> simp [close, isOpen]

theorem PipePage.freed_close (x : PipePage) (w : Bool) : (x.close w).freed = x.freed := by
  cases w <;> rfl

theorem PipePage.open_or (x : PipePage) :
    (x.readopen || x.writeopen) = true ↔ ∃ w, x.isOpen w = true := by
  simp [isOpen]

structure Files.Ok (fs : Files) : Prop where
  idle : ∀ f, (fs.file f).ref = 0 → (fs.file f).type = .none
  inPage : ∀ f, (fs.file f).type = .pipe → ∃ pg < fs.npages, (fs.file f).pipe = some pg
  unique : ∀ pg w f g, fs.IsEnd pg w f → fs.IsEnd pg w g → f = g
  isOpen : ∀ pg w, pg < fs.npages → ((fs.page pg).isOpen w = true ↔ ∃ f, fs.IsEnd pg w f)
  freed : ∀ pg, pg < fs.npages →
    (fs.page pg).freed = if (fs.page pg).readopen || (fs.page pg).writeopen then 0 else 1

def SameEnd (x y : File) : Prop :=
  (y.type = x.type ∧ y.pipe = x.pipe ∧ y.writable = x.writable) ∨ x.type ≠ .pipe ∧ y.type ≠ .pipe

section
variable {fs fs1 fs' : Files} {f : Nat} {x : File}

theorem SameEnd.type (h : SameEnd x y) : y.type = .pipe ↔ x.type = .pipe := by
  rcases h with ⟨h, -⟩ | ⟨hx, hy⟩
  · rw [h]
  · exact iff_of_false hy hx

theorem SameEnd.pipe (h : SameEnd x y) (hx : x.type = .pipe) :
    y.pipe = x.pipe ∧ y.writable = x.writable := by
  rcases h with ⟨-, h⟩ | ⟨hn, -⟩
  · exact h
  · exact (hn hx).elim

theorem SameEnd.isEnd {pg : Nat} {w : Bool} (h : SameEnd (fs.file f) (fs'.file f)) :
    fs'.IsEnd pg w f ↔ fs.IsEnd pg w f := by
  unfold Files.IsEnd
  rw [h.type]
  refine and_congr_right fun hx => ?_
  rw [(h.pipe hx).1, (h.pipe hx).2]

theorem Files.Ok.congr (h : fs.Ok) (hend : ∀ f, SameEnd (fs.file f) (fs'.file f))
    (hpage : fs'.page = fs.page) (hn : fs'.npages = fs.npages)
    (hidle : ∀ f, (fs'.file f).ref = 0 → (fs'.file f).type = .none) : fs'.Ok := by
  have hiff : ∀ pg w f, fs'.IsEnd pg w f ↔ fs.IsEnd pg w f := fun pg w f => (hend f).isEnd
  refine ⟨hidle, fun f hf => ?_, fun pg w f g hf hg => ?_, fun pg w hpg => ?_, fun pg hpg => ?_⟩
  · have hf' := (hend f).type.mp hf
    obtain ⟨pg, hpg, hp⟩ := h.inPage f hf'
    exact ⟨pg, hn ▸ hpg, ((hend f).pipe hf').1.trans hp⟩
  · exact h.unique pg w f g ((hiff pg w f).mp hf) ((hiff pg w g).mp hg)
  · rw [hpage, h.isOpen pg w (hn ▸ hpg)]
    exact exists_congr fun f => (hiff pg w f).symm
  · rw [hpage]
    exact h.freed pg (hn ▸ hpg)

theorem Files.Ok.same (h : fs.Ok) (hs : fs.Same fs') : fs'.Ok := by
  have htype : ∀ f, (fs'.file f).type = (fs.file f).type := fun f =>
    (congrArg File.type (hs.file f) :)
  refine h.congr (fun f => Or.inl ⟨htype f, ?_, ?_⟩) hs.page hs.npages fun f hf => ?_
  · exact (congrArg File.pipe (hs.file f) :)
  · exact (congrArg File.writable (hs.file f) :)
  · rw [htype]
    exact h.idle f ((congrArg File.ref (hs.file f) :).symm.trans hf)

theorem Files.Ok.setFile (h : fs.Ok) (hend : SameEnd (fs.file f) x)
    (hx : x.ref = 0 → x.type = .none) : (fs.setFile f x).Ok := by
  refine h.congr (fun g => ?_) rfl rfl fun g hg => ?_
  · by_cases hgf : g = f
    · subst hgf
      simpa [Files.setFile] using hend
    · exact Or.inl (by simp [Files.setFile, hgf])
  · by_cases hgf : g = f
    · subst hgf
      simp only [Files.setFile, Function.update_self] at hg ⊢
      exact hx hg
    · simp only [Files.setFile, Function.update_of_ne hgf] at hg ⊢
      exact h.idle g hg

theorem filealloc_some (h : filealloc fs = (some f, fs')) :
    (fs.file f).ref = 0 ∧ fs' = fs.setFile f { fs.file f with ref := 1 } := by
  unfold filealloc at h
  split at h
  · cases h
  · rename_i f' hf
    cases h
    exact ⟨of_decide_eq_true (List.find?_some hf :), rfl⟩

theorem Files.Ok.filealloc (h : fs.Ok) (ha : Xv6.filealloc fs = (some f, fs')) :
    fs'.Ok ∧ (fs'.file f).type = .none := by
  obtain ⟨hzero, rfl⟩ := filealloc_some ha
  refine ⟨h.setFile (Or.inl ⟨rfl, rfl, rfl⟩) nofun, ?_⟩
  simpa [Files.setFile] using h.idle f hzero

theorem page_pipeclose (fs : Files) (pg : Nat) (w : Bool) : (pipeclose fs pg w).page pg =
    if ((fs.page pg).close w).readopen || ((fs.page pg).close w).writeopen then (fs.page pg).close w
    else { (fs.page pg).close w with freed := ((fs.page pg).close w).freed + 1 } := by
  simp [pipeclose]

/-- The last reference to an end of a pipe goes: the end is closed, and with the second end
the page is freed. -/
theorem Files.Ok.pipeclose {pg : Nat} (h : fs.Ok) (hf : fs.IsEnd pg (fs.file f).writable f) :
    (Xv6.pipeclose (fs.setFile f { fs.file f with ref := 0, type := .none }) pg
      (fs.file f).writable).Ok := by
  generalize hw : (fs.file f).writable = w at hf
  generalize hfs : Xv6.pipeclose (fs.setFile f { fs.file f with ref := 0, type := .none }) pg w = fs'
  have hself : fs'.file f = { fs.file f with ref := 0, type := .none } := by
    simp [← hfs, Xv6.pipeclose, Files.setFile]
  have hother : ∀ g, g ≠ f → fs'.file g = fs.file g := by
    intro g hg
    simp [← hfs, Xv6.pipeclose, Files.setFile, hg]
  have hn : fs'.npages = fs.npages := by simp [← hfs, Xv6.pipeclose, Files.setFile]
  have hpage : ∀ q, q ≠ pg → fs'.page q = fs.page q := by
    intro q hq
    simp [← hfs, Xv6.pipeclose, Files.setFile, hq]
  have hpg : fs'.page pg = if ((fs.page pg).close w).readopen || ((fs.page pg).close w).writeopen
      then (fs.page pg).close w
      else { (fs.page pg).close w with freed := ((fs.page pg).close w).freed + 1 } := by
    rw [← hfs, page_pipeclose]
    rfl
  have hopen : ∀ w', (fs'.page pg).isOpen w' = ((fs.page pg).isOpen w' && !(w == w')) := by
    intro w'
    rw [← PipePage.isOpen_close, hpg]
    split <;> rfl
  have hiff : ∀ q w' g, fs'.IsEnd q w' g ↔ fs.IsEnd q w' g ∧ g ≠ f := by
    intro q w' g
    unfold Files.IsEnd
    by_cases hg : g = f
    · rw [hg, hself]
      simp
    · rw [hother g hg]
      simp [hg]
  have hlt : pg < fs.npages := by
    obtain ⟨q, hq, he⟩ := h.inPage f hf.1
    rw [hf.2.1] at he
    cases he
    exact hq
  refine ⟨fun g hg => ?_, fun g hg => ?_, fun q w' a b ha hb => ?_, fun q w' hq => ?_, fun q hq => ?_⟩
  · by_cases hgf : g = f
    · rw [hgf, hself]
    · rw [hother g hgf] at hg ⊢
      exact h.idle g hg
  · have hgf : g ≠ f := by
      rintro rfl
      rw [hself] at hg
      cases hg
    rw [hother g hgf] at hg ⊢
    rw [hn]
    exact h.inPage g hg
  · exact h.unique q w' a b ((hiff ..).mp ha).1 ((hiff ..).mp hb).1
  · rw [hn] at hq
    simp only [hiff]
    by_cases hqp : q = pg
    · subst hqp
      rw [hopen, Bool.and_eq_true, h.isOpen q w' hq]
      by_cases hww : w = w'
      · subst hww
        simp only [beq_self_eq_true, Bool.not_true, Bool.false_eq_true, and_false, false_iff]
        rintro ⟨g, hg, hgf⟩
        exact hgf (h.unique q w g f hg hf)
      · simp only [beq_eq_false_iff_ne.mpr hww, Bool.not_false, and_true]
        refine exists_congr fun g => (and_iff_left_of_imp ?_).symm
        rintro hg rfl
        exact hww (hf.2.2.symm.trans hg.2.2)
    · rw [hpage q hqp, h.isOpen q w' hq]
      refine exists_congr fun g => (and_iff_left_of_imp ?_).symm
      rintro hg rfl
      exact hqp (Option.some.inj (hg.2.1.symm.trans hf.2.1))
  · rw [hn] at hq
    by_cases hqp : q = pg
    · subst hqp
      have hwas : (fs.page q).freed = 0 := by
        rw [h.freed q hq, if_pos ((PipePage.open_or _).mpr ⟨w, (h.isOpen q w hq).mpr ⟨f, hf⟩⟩)]
      rw [hpg]
      split
      · rw [PipePage.freed_close, hwas]
      · dsimp only
        rw [PipePage.freed_close, hwas]
    · rw [hpage q hqp]
      exact h.freed q hq

theorem Files.Ok.fileclose (h : fs.Ok) (hc : Xv6.fileclose fs f = .ok fs') : fs'.Ok := by
  unfold Xv6.fileclose at hc
  dsimp only at hc
  split at hc
  · cases hc
  rename_i hpos
  split at hc
  · rename_i hgt
    cases hc
    exact h.setFile (Or.inl ⟨rfl, rfl, rfl⟩) fun hr => by dsimp only at hr; omega
  split at hc
  · rename_i ht
    have hok : (fs.setFile f { fs.file f with ref := 0, type := .none }).Ok :=
      h.setFile (Or.inr ⟨by rw [ht]; nofun, nofun⟩) fun _ => rfl
    exact hok.same (iput_same hc)
  · rename_i ht
    split at hc
    · cases hc
    · rename_i pg hpg
      cases hc
      exact h.pipeclose ⟨ht, hpg, rfl⟩
  · rename_i ht
    cases hc
    exact h.setFile (Or.inr ⟨by rw [ht]; nofun, nofun⟩) fun _ => rfl

theorem Files.Ok.initPipe {f0 f1 : Nat} (h : fs.Ok) (hne : f0 ≠ f1)
    (h₀ : (fs.file f0).ref ≠ 0 ∧ (fs.file f0).type = .none)
    (h1 : (fs.file f1).ref ≠ 0 ∧ (fs.file f1).type = .none) : (Xv6.initPipe fs f0 f1).Ok := by
  generalize hfs : Xv6.initPipe fs f0 f1 = fs'
  have hf0 : fs'.file f0 = { fs.file f0 with
      type := .pipe, readable := true, writable := false, pipe := some fs.npages } := by
    simp [← hfs, Xv6.initPipe, Files.setFile, hne]
  have hf1 : fs'.file f1 = { fs.file f1 with
      type := .pipe, readable := false, writable := true, pipe := some fs.npages } := by
    simp [← hfs, Xv6.initPipe, Files.setFile, Ne.symm hne]
  have hother : ∀ g, g ≠ f0 → g ≠ f1 → fs'.file g = fs.file g := by
    intro g hg0 hg1
    simp [← hfs, Xv6.initPipe, Files.setFile, hg0, hg1]
  have hn : fs'.npages = fs.npages + 1 := by simp [← hfs, Xv6.initPipe, Files.setFile]
  have hnew : fs'.page fs.npages = { readopen := true, writeopen := true } := by
    simp [← hfs, Xv6.initPipe, Files.setFile]
  have hold : ∀ q, q ≠ fs.npages → fs'.page q = fs.page q := by
    intro q hq
    simp [← hfs, Xv6.initPipe, Files.setFile, hq]
  have hnot : ∀ {q w g}, fs.IsEnd q w g → g ≠ f0 ∧ g ≠ f1 ∧ q < fs.npages := by
    intro q w g hg
    refine ⟨?_, ?_, ?_⟩
    · rintro rfl
      have := h₀.2.symm.trans hg.1
      cases this
    · rintro rfl
      have := h1.2.symm.trans hg.1
      cases this
    · obtain ⟨r, hr, he⟩ := h.inPage g hg.1
      rw [hg.2.1] at he
      cases he
      exact hr
  have hiff : ∀ q w g, fs'.IsEnd q w g ↔
      fs.IsEnd q w g ∨ q = fs.npages ∧ g = if w then f1 else f0 := by
    intro q w g
    by_cases hg0 : g = f0
    · subst hg0
      have hno : ¬ fs.IsEnd q w g := fun hg => (hnot hg).1 rfl
      unfold Files.IsEnd at hno ⊢
      rw [hf0]
      cases w <;> simp [hno, hne, @eq_comm _ q]
    · by_cases hg1 : g = f1
      · subst hg1
        have hno : ¬ fs.IsEnd q w g := fun hg => (hnot hg).2.1 rfl
        unfold Files.IsEnd at hno ⊢
        rw [hf1]
        cases w <;> simp [hno, hg0, @eq_comm _ q]
      · unfold Files.IsEnd
        rw [hother g hg0 hg1]
        cases w <;> simp [hg0, hg1]
  refine ⟨fun g hg => ?_, fun g hg => ?_, fun q w a b ha hb => ?_, fun q w hq => ?_, fun q hq => ?_⟩
  · have hg0 : g ≠ f0 := by
      rintro rfl
      rw [hf0] at hg
      exact h₀.1 hg
    have hg1 : g ≠ f1 := by
      rintro rfl
      rw [hf1] at hg
      exact h1.1 hg
    rw [hother g hg0 hg1] at hg ⊢
    exact h.idle g hg
  · rw [hn]
    by_cases hg0 : g = f0
    · exact ⟨fs.npages, Nat.lt_succ_self _, by rw [hg0, hf0]⟩
    · by_cases hg1 : g = f1
      · exact ⟨fs.npages, Nat.lt_succ_self _, by rw [hg1, hf1]⟩
      · rw [hother g hg0 hg1] at hg ⊢
        obtain ⟨pg, hpg, hp⟩ := h.inPage g hg
        exact ⟨pg, Nat.lt_succ_of_lt hpg, hp⟩
  · rcases (hiff q w a).mp ha with ha | ⟨hq, ha⟩
    · rcases (hiff q w b).mp hb with hb | ⟨hq, -⟩
      · exact h.unique q w a b ha hb
      · exact absurd (hnot ha).2.2 (by omega)
    · rcases (hiff q w b).mp hb with hb | ⟨-, hb⟩
      · exact absurd (hnot hb).2.2 (by omega)
      · rw [ha, hb]
  · simp only [hiff]
    by_cases hqn : q = fs.npages
    · subst hqn
      rw [hnew]
      refine iff_of_true (by cases w <;> rfl) ⟨_, Or.inr ⟨rfl, rfl⟩⟩
    · rw [hold q hqn, h.isOpen q w (by omega)]
      refine exists_congr fun g => ?_
      simp [hqn]
  · by_cases hqn : q = fs.npages
    · rw [hqn, hnew]
      rfl
    · rw [hold q hqn]
      exact h.freed q (by omega)

theorem FdOp.ok {s s' : FdState} (h : FdOp s s') (hs : s.fs.Ok) : s'.fs.Ok := by
  cases h with
  | same h => exact hs.same h
  | alloc h => exact (hs.filealloc h).1
  | opened h hx ht =>
    obtain ⟨hok, hnone⟩ := hs.filealloc h
    refine hok.setFile (Or.inr ⟨by rw [hnone]; simp, by rw [ht]; simp⟩) fun h0 => ?_
    rw [hx] at h0
    cases h0
  | @pipe t m fs fs1 fs2 f0 f1 h₀ h1 =>
    obtain ⟨hok1, hn0⟩ := hs.filealloc h₀
    obtain ⟨hok2, hn1⟩ := hok1.filealloc h1
    have hr0 := ref_filealloc h₀
    obtain ⟨hz, he⟩ := filealloc_some h1
    have hne : f0 ≠ f1 := by
      rintro rfl
      rw [hr0] at hz
      cases hz
    have hkeep : fs2.file f0 = fs1.file f0 := by simp [he, Files.setFile, hne]
    refine hok2.initPipe hne ⟨?_, by rw [hkeep]; exact hn0⟩ ⟨?_, hn1⟩
    · rw [hkeep, hr0]
      simp
    · rw [ref_filealloc h1]
      simp
  | dup h =>
    unfold filedup at h
    split at h
    · cases h
    · cases h
      exact hs.setFile (Or.inl ⟨rfl, rfl, rfl⟩) (by simp)
  | close h => exact hs.fileclose h
  | take _ _ | give _ _ => exact hs

theorem FdOps.ok {s s' : FdState} (h : FdOps s s') (hs : s.fs.Ok) : s'.fs.Ok := by
  induction h with
  | refl => exact hs
  | tail _ hop ih => exact hop.ok ih

end

end Xv6
