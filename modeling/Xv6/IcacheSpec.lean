import Xv6.Icache
import Xv6.InodeTrunc
import Mathlib.Algebra.BigOperators.Group.Finset.Basic
import Mathlib.Data.Fintype.Basic

/-!
What holds of the inode cache in every run. The count of an entry is the number of references
that processes hold; two entries in use have different numbers; the copy of a valid entry is the
inode on disk, since every change of a copy is followed by `iupdate`; and the file system stays
well formed.
-/

namespace Xv6

open Function
namespace Icache

section
variable {P : Type}

/-- What is known of a process at each point of `ialloc` and `iput`. -/
def AtPc (s : Icache P) (p : P) : IPc → Prop
  | .idle => True
  | .alloced i => i < s.fs.sb.ninodes
  | .locked e => (s.entry e).holder = some p
  | .tested e _ =>
    (s.entry e).holder = some p ∧ (s.entry e).valid = true ∧ (s.entry e).copy.nlink = 0
  | .unlocking e => (s.entry e).holder = some p
  | .dropping e => 0 < s.held p e ∧ (s.entry e).holder ≠ some p

/-- A process is where it was when the entries it has locked and the one it drops are as they
were. -/
theorem AtPc.congr {s t : Icache P} {q : P} {pc : IPc} (h : s.AtPc q pc) (hsb : t.fs.sb = s.fs.sb)
    (hlocked : ∀ e, (s.entry e).holder = some q → (t.entry e).holder = some q ∧
      (t.entry e).valid = (s.entry e).valid ∧ (t.entry e).copy = (s.entry e).copy)
    (hdrop : ∀ e, 0 < s.held q e → (s.entry e).holder ≠ some q →
      0 < t.held q e ∧ (t.entry e).holder ≠ some q) : t.AtPc q pc := by
  cases pc with
  | idle => trivial
  | alloced i => exact lt_of_lt_of_eq h (congrArg Superblock.ninodes hsb).symm
  | locked e => exact (hlocked e h).1
  | tested e b =>
    obtain ⟨hholder, hvalid, hcopy⟩ := hlocked e h.1
    exact ⟨hholder, hvalid.trans h.2.1, by rw [hcopy]; exact h.2.2⟩
  | unlocking e => exact (hlocked e h).1
  | dropping e => exact hdrop e h.1 h.2

theorem entry_self (s : Icache P) (e : Fin NINODE) (x : Ientry P) : (s.setEntry e x).entry e = x :=
  update_self ..

theorem entry_ne (s : Icache P) (x : Ientry P) {e e' : Fin NINODE} (h : e' ≠ e) :
    (s.setEntry e x).entry e' = s.entry e' := update_of_ne h ..

theorem setEntry_same {s : Icache P} {e : Fin NINODE} {x : Ientry P} (href : x.ref = (s.entry e).ref)
    (hinum : x.inum = (s.entry e).inum) (e' : Fin NINODE) :
    ((s.setEntry e x).entry e').ref = (s.entry e').ref ∧
      ((s.setEntry e x).entry e').inum = (s.entry e').inum := by
  by_cases he : e' = e
  · subst he
    rw [entry_self]
    exact ⟨href, hinum⟩
  · rw [entry_ne s x he]
    exact ⟨rfl, rfl⟩

theorem not_other {x : Ientry P} {p : P} (hfree : x.holder = none ∨ x.holder = some p) (q : P)
    (hq : q ≠ p) : x.holder ≠ some q := by
  intro he
  rcases hfree with h | h
  · rw [h] at he
    cases he
  · rw [h] at he
    exact hq (Option.some.inj he).symm

theorem not_locked_of_idle {s : Icache P} {p : P} (hpc : s.pc p = .idle) (e' : Fin NINODE) :
    ¬ (s.pc p = .locked e' ∨ s.pc p = .unlocking e') := by
  simp [hpc]

section
variable [DecidableEq P]

theorem held_self (s : Icache P) (p : P) (e : Fin NINODE) (n : Nat) : (s.setHeld p e n).held p e = n := by
  unfold setHeld
  dsimp only
  rw [update_self, update_self]

theorem held_ne (s : Icache P) (n : Nat) {p q : P} {e e' : Fin NINODE} (h : q ≠ p ∨ e' ≠ e) :
    (s.setHeld p e n).held q e' = s.held q e' := by
  unfold setHeld
  dsimp only
  by_cases hq : q = p
  · subst hq
    rw [update_self, update_of_ne (h.resolve_left fun hn => hn rfl)]
  · rw [update_of_ne hq]

end

variable [Fintype P]

structure Ok (s : Icache P) : Prop where
  own : s.fs.Own
  counts : ∀ e, (s.entry e).ref = ∑ p, s.held p e
  unique : ∀ e e', 0 < (s.entry e).ref → 0 < (s.entry e').ref →
    (s.entry e).inum = (s.entry e').inum → e = e'
  range : ∀ e, 0 < (s.entry e).ref → (s.entry e).inum < s.fs.sb.ninodes
  coherent : ∀ e, 0 < (s.entry e).ref → (s.entry e).valid = true →
    (s.entry e).copy = s.fs.dinode (s.entry e).inum ∧ (s.entry e).copy.type ≠ 0
  holder : ∀ e p, (s.entry e).holder = some p → 0 < s.held p e ∧
    ((s.entry e).valid = true ∨ s.pc p = .locked e ∨ s.pc p = .unlocking e)
  atPc : ∀ p, s.AtPc p (s.pc p)

variable {s t : Icache P} {p q : P} {e : Fin NINODE}

theorem Ok.reheld (h : s.Ok) (hfs : t.fs = s.fs)
    (hentry : ∀ e, t.entry e = { s.entry e with ref := (t.entry e).ref })
    (hcounts : ∀ e, (t.entry e).ref = ∑ p, t.held p e) (hle : ∀ e, (t.entry e).ref ≤ (s.entry e).ref)
    (hlock : ∀ e p, (s.entry e).holder = some p → 0 < t.held p e ∧
      (t.pc p = s.pc p ∨ (s.entry e).valid = true)) (hpc : ∀ p, t.AtPc p (t.pc p)) : t.Ok := by
  refine ⟨by rw [hfs]; exact h.own, hcounts, fun e1 e2 h1 h2 he => ?_, fun e he => ?_,
    fun e he hv => ?_, fun e p hp => ?_, hpc⟩
  · rw [hentry e1, hentry e2] at he
    exact h.unique e1 e2 (h1.trans_le (hle e1)) (h2.trans_le (hle e2)) he
  · rw [hentry e, hfs]
    exact h.range e (he.trans_le (hle e))
  · rw [hentry e] at hv
    rw [hentry e, hfs]
    exact h.coherent e (he.trans_le (hle e)) hv
  · rw [hentry e] at hp
    rw [hentry e]
    obtain ⟨hpos, hsame⟩ := hlock e p hp
    refine ⟨hpos, ?_⟩
    rcases hsame with hsame | hv
    · rw [hsame]
      exact (h.holder e p hp).2
    · exact Or.inl hv

variable [DecidableEq P]

theorem Ok.ref_pos (h : s.Ok) (hp : 0 < s.held p e) : 0 < (s.entry e).ref := by
  rw [h.counts e, Lib.sum_split _ p]
  omega

theorem sum_setHeld (s : Icache P) (p : P) (e : Fin NINODE) (n : Nat) (e' : Fin NINODE) :
    (∑ q, (s.setHeld p e n).held q e') + (if e' = e then s.held p e else 0) =
      (∑ q, s.held q e') + if e' = e then n else 0 := by
  have hne : ∀ q, q ≠ p → (s.setHeld p e n).held q e' = s.held q e' := fun q hq => by
    unfold setHeld
    dsimp only
    rw [update_of_ne hq]
  rw [Lib.sum_split _ p, Lib.sum_split (fun q => s.held q e') p, Lib.sum_erase_congr hne]
  unfold setHeld
  dsimp only
  rw [update_self]
  by_cases he : e' = e
  · subst he
    rw [update_self, if_pos rfl, if_pos rfl]
    omega
  · rw [update_of_ne he, if_neg he, if_neg he]

/-- What a step of process `p` may do to entry `e`, its own position and the blocks, when the
sleep-lock is free or its own. -/
structure Locked (s : Icache P) (p : P) (e : Fin NINODE) (fs : Fs) (x : Ientry P) (pc : IPc) :
    Prop where
  pos : 0 < s.held p e
  own : fs.Own
  sb : fs.sb = s.fs.sb
  ref : x.ref = (s.entry e).ref
  inum : x.inum = (s.entry e).inum
  others : ∀ i < s.fs.sb.ninodes, i ≠ (s.entry e).inum → fs.dinode i = s.fs.dinode i
  coherent : x.valid = true → x.copy = fs.dinode (s.entry e).inum ∧ x.copy.type ≠ 0
  before : ∀ q, q ≠ p → (s.entry e).holder ≠ some q
  after : ∀ q, q ≠ p → x.holder ≠ some q
  keeps : x.holder = some p → x.valid = true ∨ pc = .locked e ∨ pc = .unlocking e
  only : ∀ e', s.pc p = .locked e' ∨ s.pc p = .unlocking e' → e' = e
  atPc : AtPc ⟨fs, Function.update s.entry e x, s.held, Function.update s.pc p pc⟩ p pc

theorem Ok.locked {fs : Fs} {x : Ientry P} (h : s.Ok) (pc : IPc) (hl : s.Locked p e fs x pc) :
    Ok ⟨fs, Function.update s.entry e x, s.held, Function.update s.pc p pc⟩ := by
  have href : ∀ e', (Function.update s.entry e x e').ref = (s.entry e').ref := fun e' =>
    (setEntry_same hl.ref hl.inum e').1
  have hinum : ∀ e', (Function.update s.entry e x e').inum = (s.entry e').inum := fun e' =>
    (setEntry_same hl.ref hl.inum e').2
  refine ⟨hl.own, fun e' => ?_, fun e1 e2 h1 h2 he => ?_, fun e' he' => ?_, fun e' he' hv => ?_,
    fun e' q hq => ?_, fun q => ?_⟩
  · exact (href e').trans (h.counts e')
  · dsimp only at h1 h2 he
    rw [href] at h1 h2
    rw [hinum, hinum] at he
    exact h.unique e1 e2 h1 h2 he
  · dsimp only at he' ⊢
    rw [href] at he'
    rw [hinum, hl.sb]
    exact h.range e' he'
  · dsimp only at he' hv ⊢
    rw [href] at he'
    rw [hinum]
    by_cases he : e' = e
    · subst he
      rw [update_self] at hv ⊢
      exact hl.coherent hv
    · rw [update_of_ne he] at hv ⊢
      obtain ⟨hcopy, htype⟩ := h.coherent e' he' hv
      refine ⟨?_, htype⟩
      rw [hl.others _ (h.range e' he') fun hsame => he (h.unique e' e he' (h.ref_pos hl.pos) hsame)]
      exact hcopy
  · dsimp only at hq ⊢
    by_cases he : e' = e
    · subst he
      rw [update_self] at hq ⊢
      have hqp : q = p := by
        by_contra hne
        exact hl.after q hne hq
      subst hqp
      rw [update_self]
      exact ⟨hl.pos, hl.keeps hq⟩
    · rw [update_of_ne he] at hq ⊢
      obtain ⟨hheld, hwhy⟩ := h.holder e' q hq
      refine ⟨hheld, ?_⟩
      by_cases hqp : q = p
      · subst hqp
        exact Or.inl (hwhy.resolve_right fun hpc => he (hl.only e' hpc))
      · rw [update_of_ne hqp]
        exact hwhy
  · dsimp only
    by_cases hqp : q = p
    · subst hqp
      rw [update_self]
      exact hl.atPc
    rw [update_of_ne hqp]
    refine (h.atPc q).congr hl.sb (fun e' hq => ?_) fun e' hheld hq => ⟨hheld, ?_⟩
    · dsimp only
      rw [update_of_ne (by rintro rfl; exact hl.before q hqp hq)]
      exact ⟨hq, rfl, rfl⟩
    dsimp only
    by_cases he : e' = e
    · subst he
      rw [update_self]
      exact hl.after q hqp
    · rw [update_of_ne he]
      exact hq

theorem Ok.relock {x : Ientry P} (h : s.Ok) (pc : IPc) (hpos : 0 < s.held p e)
    (hfree : (s.entry e).holder = none ∨ (s.entry e).holder = some p)
    (hx : x = { s.entry e with holder := x.holder }) (hafter : x.holder = none ∨ x.holder = some p)
    (hkeeps : x.holder = some p → x.valid = true ∨ pc = .locked e ∨ pc = .unlocking e)
    (honly : ∀ e', s.pc p = .locked e' ∨ s.pc p = .unlocking e' → e' = e)
    (hatPc : AtPc ⟨s.fs, Function.update s.entry e x, s.held, Function.update s.pc p pc⟩ p pc) :
    Ok ⟨s.fs, Function.update s.entry e x, s.held, Function.update s.pc p pc⟩ := by
  refine h.locked pc ⟨hpos, h.own, rfl, ?_, ?_, fun _ _ _ => rfl, fun hv => ?_, not_other hfree,
    not_other hafter, hkeeps, honly, hatPc⟩
  · rw [hx]
  · rw [hx]
  · rw [hx] at hv ⊢
    exact h.coherent e (h.ref_pos hpos) hv

/-- The process that holds the lock changes the inode, and writes it to disk. -/
theorem Ok.changed {fs : Fs} {ip : Dinode} (h : s.Ok) (hpc : s.pc p = .idle)
    (hp : (s.entry e).holder = some p) (hown : fs.Own)
    (hu : s.fs.Updates (s.entry e).inum fs ip) (ht : ip.type ≠ 0) : (s.setInode e fs ip).Ok := by
  obtain ⟨hpos, hwhy⟩ := h.holder e p hp
  have hidle := not_locked_of_idle hpc
  have := h.locked (p := p) (e := e) (x := { s.entry e with copy := ip }) (s.pc p)
    ⟨hpos, hown, hu.sb, rfl, rfl, hu.others, fun _ => ⟨hu.self.symm, ht⟩, not_other (Or.inr hp),
      not_other (Or.inr hp), fun _ => Or.inl (hwhy.resolve_right (hidle e)),
      fun e' he => (hidle e' he).elim, by rw [hpc]; trivial⟩
  rw [update_eq_self] at this
  exact this

theorem Ok.current (h : s.Ok) (hpc : s.pc p = .idle) (hp : (s.entry e).holder = some p) :
    (s.entry e).inum < s.fs.sb.ninodes ∧ (s.entry e).copy = s.fs.dinode (s.entry e).inum ∧
      (s.fs.dinode (s.entry e).inum).type ≠ 0 := by
  obtain ⟨hpos, hwhy⟩ := h.holder e p hp
  have hvalid : (s.entry e).valid = true := hwhy.resolve_right (not_locked_of_idle hpc e)
  obtain ⟨hcopy, htype⟩ := h.coherent e (h.ref_pos hpos) hvalid
  exact ⟨h.range e (h.ref_pos hpos), hcopy, hcopy ▸ htype⟩

theorem Ok.unused (h : s.Ok) (h0 : (s.entry e).ref = 0) (q : P) :
    s.held q e = 0 ∧ (s.entry e).holder ≠ some q := by
  have hheld : s.held q e = 0 := by
    by_contra hne
    have := h.ref_pos (p := q) (e := e) (by omega)
    omega
  refine ⟨hheld, fun hq => ?_⟩
  have := (h.holder e q hq).1
  omega

theorem Ok.recycle {x : Ientry P} (h : s.Ok) (h0 : (s.entry e).ref = 0) (hx : x.ref = 0)
    (hheld : x.holder = (s.entry e).holder) : (s.setEntry e x).Ok := by
  have hother : ∀ e', 0 < ((s.setEntry e x).entry e').ref → (s.setEntry e x).entry e' = s.entry e' := by
    intro e' hpos
    refine entry_ne s x ?_
    rintro rfl
    rw [entry_self, hx] at hpos
    cases hpos
  have hholder : ∀ e', ((s.setEntry e x).entry e').holder = (s.entry e').holder := by
    intro e'
    by_cases he : e' = e
    · subst he
      rw [entry_self, hheld]
    · rw [entry_ne s x he]
  have hused : ∀ e' q, (s.entry e').holder = some q → (s.setEntry e x).entry e' = s.entry e' := by
    intro e' q hq
    refine entry_ne s x ?_
    rintro rfl
    exact (h.unused h0 q).2 hq
  refine ⟨h.own, fun e' => ?_, fun e1 e2 h1 h2 he => ?_, fun e' he' => ?_, fun e' he' hv => ?_,
    fun e' q hq => ?_, fun q => ?_⟩
  · refine Eq.trans ?_ (h.counts e')
    by_cases he : e' = e
    · subst he
      rw [entry_self, hx, h0]
    · rw [entry_ne s x he]
  · have hs1 := hother e1 h1
    have hs2 := hother e2 h2
    rw [hs1] at h1 he
    rw [hs2] at h2 he
    exact h.unique e1 e2 h1 h2 he
  · have hs := hother e' he'
    rw [hs] at he' ⊢
    exact h.range e' he'
  · have hs := hother e' he'
    rw [hs] at he' hv ⊢
    exact h.coherent e' he' hv
  · rw [hholder] at hq
    rw [hused e' q hq]
    exact h.holder e' q hq
  · refine (h.atPc q).congr rfl (fun e' hq => ?_) fun e' hheld hq => ⟨hheld, ?_⟩
    · rw [hused e' q hq]
      exact ⟨hq, rfl, rfl⟩
    · rw [hholder]
      exact hq

theorem Ok.addRef (h : s.Ok) (q : P) (e : Fin NINODE) (hrange : (s.entry e).inum < s.fs.sb.ninodes)
    (hunique : ∀ e', 0 < (s.entry e').ref → (s.entry e').inum = (s.entry e).inum → e' = e)
    (hcoherent : (s.entry e).valid = true → (s.entry e).copy = s.fs.dinode (s.entry e).inum ∧
      (s.entry e).copy.type ≠ 0) : (s.addRef q e).Ok := by
  have hentry : ∀ e', e' ≠ e → (s.addRef q e).entry e' = s.entry e' := fun e' he => entry_ne s _ he
  have hself : (s.addRef q e).entry e = { s.entry e with ref := (s.entry e).ref + 1 } := entry_self s e _
  have hinum : ∀ e', ((s.addRef q e).entry e').inum = (s.entry e').inum := by
    intro e'
    by_cases he : e' = e
    · subst he
      rw [hself]
    · rw [hentry e' he]
  have hheld : ∀ r e', s.held r e' ≤ (s.addRef q e).held r e' := by
    intro r e'
    by_cases hre : r = q ∧ e' = e
    · obtain ⟨rfl, rfl⟩ := hre
      refine le_of_le_of_eq ?_ (held_self _ r e' _).symm
      omega
    · refine le_of_eq (held_ne (s.setEntry e _) _ ?_).symm
      rw [not_and_or] at hre
      exact hre
  have hsame : ∀ e', ((s.addRef q e).entry e').holder = (s.entry e').holder ∧
      ((s.addRef q e).entry e').valid = (s.entry e').valid ∧
      ((s.addRef q e).entry e').copy = (s.entry e').copy := by
    intro e'
    by_cases he : e' = e
    · subst he
      rw [hself]
      exact ⟨rfl, rfl, rfl⟩
    · rw [hentry e' he]
      exact ⟨rfl, rfl, rfl⟩
  refine ⟨h.own, fun e' => ?_, fun e1 e2 h1 h2 he => ?_, fun e' he' => ?_, fun e' he' hv => ?_,
    fun e' r hr => ?_, fun r => ?_⟩
  · have hsum := sum_setHeld (s.setEntry e { s.entry e with ref := (s.entry e).ref + 1 }) q e
      (s.held q e + 1) e'
    have hcount := h.counts e'
    change (∑ r, (s.addRef q e).held r e') + (if e' = e then s.held q e else 0) =
      (∑ r, s.held r e') + _ at hsum
    by_cases he : e' = e
    · subst he
      rw [if_pos rfl, if_pos rfl] at hsum
      rw [hself]
      dsimp only
      omega
    · rw [if_neg he, if_neg he] at hsum
      rw [hentry e' he]
      omega
  · rw [hinum, hinum] at he
    by_cases he1 : e1 = e
    · subst he1
      by_cases he2 : e2 = e1
      · exact he2.symm
      · rw [hentry e2 he2] at h2
        exact (hunique e2 h2 he.symm).symm
    · rw [hentry e1 he1] at h1
      by_cases he2 : e2 = e
      · subst he2
        exact hunique e1 h1 he
      · rw [hentry e2 he2] at h2
        exact h.unique e1 e2 h1 h2 he
  · rw [hinum]
    by_cases he : e' = e
    · subst he
      exact hrange
    · rw [hentry e' he] at he'
      exact h.range e' he'
  · rw [(hsame e').2.1] at hv
    rw [(hsame e').2.2, hinum]
    by_cases he : e' = e
    · subst he
      exact hcoherent hv
    · rw [hentry e' he] at he'
      exact h.coherent e' he' hv
  · rw [(hsame e').1] at hr
    rw [(hsame e').2.1]
    obtain ⟨hpos, hwhy⟩ := h.holder e' r hr
    exact ⟨hpos.trans_le (hheld r e'), hwhy⟩
  · refine (h.atPc r).congr rfl (fun e' hr => ?_) fun e' hpos hr => ⟨hpos.trans_le (hheld r e'), ?_⟩
    · rw [(hsame e').1]
      exact ⟨hr, (hsame e').2⟩
    · rw [(hsame e').1]
      exact hr

end

end Icache
end Xv6
