import Xv6.BlockOwnership

/-!
When `iput` frees an inode. It tests `ref` under `icache.lock` and truncates after it has given
the lock up; that no reference is made in between depends on where `iget` gets its numbers from.
As long as every number that a lookup finds is that of an inode with links, blocks are freed
only by an `iput` with the last reference to an inode without links.
-/

namespace Xv6

open Function
namespace Icache

section
variable {P : Type}

/-- A lookup finds an allocated inode with links. -/
def Linked (s : Icache P) : IAct P → Prop
  | .iget _ i => (s.fs.dinode i).type ≠ 0 ∧ 0 < (s.fs.dinode i).nlink
  | _ => True

/-- One entry for an inode, and the copy in an entry that is not locked is that on disk. -/
structure Coherent (s : Icache P) : Prop where
  unique : ∀ e e', 0 < (s.entry e).ref → 0 < (s.entry e').ref →
    (s.entry e).inum = (s.entry e').inum → e = e'
  copy : ∀ e, 0 < (s.entry e).ref → (s.entry e).valid = true → (s.entry e).holder = none →
    (s.entry e).copy = s.fs.dinode (s.entry e).inum

/-- Every block that a step frees is freed by an `iput` with the last reference to an inode
without links, and belongs to that inode. -/
def FreedByLast (s : Icache P) (a : IAct P) (t : Icache P) : Prop :=
  ∀ n < s.fs.sb.size, s.fs.marked n = true → t.fs.marked n ≠ true →
    ∃ p e, a = .putFree p ∧ s.pc p = .tested e true ∧ (s.entry e).ref = 1 ∧ s.held p e = 1 ∧
      (s.fs.dinode (s.entry e).inum).nlink = 0 ∧
      ∃ b, (s.fs.dinode (s.entry e).inum).ref s.fs.block b = n

/-- The only references left to an inode are those of an `iput` that is about to drop them. -/
def Quiet (s : Icache P) (i : Nat) : Prop :=
  ∀ e, 0 < (s.entry e).ref → (s.entry e).inum = i → ∀ r, 0 < s.held r e →
    s.held r e = 1 ∧ (s.pc r = .unlocking e ∨ s.pc r = .dropping e)

def Unnamed (s : Icache P) (i : Nat) : Prop := (s.fs.dinode i).type = 0 ∨ ∃ q, s.pc q = .alloced i

structure Settled (s : Icache P) : Prop where
  tested : ∀ p e, s.pc p = .tested e true → (s.entry e).ref = 1
  quiet : ∀ i < s.fs.sb.ninodes, s.Unnamed i → s.Quiet i
  fresh : ∀ q i, s.pc q = .alloced i → (s.fs.dinode i).type ≠ 0 ∧ (s.fs.dinode i).nlink = 0
  apart : ∀ q q' i, s.pc q = .alloced i → s.pc q' = .alloced i → q = q'

variable {s t : Icache P} {p q : P} {e : Fin NINODE} {i : Nat}

theorem Quiet.not_held (h : s.Quiet i) (he : 0 < (s.entry e).ref) (hi : (s.entry e).inum = i)
    (h1 : s.pc p ≠ .unlocking e) (h2 : s.pc p ≠ .dropping e) : s.held p e = 0 := by
  by_contra hne
  rcases (h e he hi p (Nat.pos_of_ne_zero hne)).2 with hpc | hpc
  · exact h1 hpc
  · exact h2 hpc

/-- An inode that nobody could have before either. -/
theorem Unnamed.back (h : t.Unnamed i) (htype : (t.fs.dinode i).type = 0 → (s.fs.dinode i).type = 0)
    (hpc : ∀ q, t.pc q = .alloced i → s.pc q = .alloced i) : s.Unnamed i :=
  h.imp htype (Exists.imp hpc)

/-- A process that drops a reference is not one that does something else. -/
theorem ne_of_dropping (h : s.pc q = .unlocking e ∨ s.pc q = .dropping e)
    (hp : ∀ e, s.pc p ≠ .unlocking e ∧ s.pc p ≠ .dropping e) : q ≠ p := by
  rintro rfl
  exact h.elim (hp e).1 (hp e).2

/-- References to entry `e` change, which has the number of an inode that others may have. -/
theorem Settled.referenced (h : s.Settled) (hfs : t.fs = s.fs)
    (hentry : ∀ e', e' ≠ e → t.entry e' = s.entry e')
    (hheld : ∀ r e', e' ≠ e → t.held r e' = s.held r e')
    (htype : (s.fs.dinode (t.entry e).inum).type ≠ 0) (hnot : ∀ q, t.pc q ≠ .alloced (t.entry e).inum)
    (halloc : ∀ q i, t.pc q = .alloced i → s.pc q = .alloced i)
    (htested : ∀ q e', t.pc q = .tested e' true → s.pc q = .tested e' true ∧
      (t.entry e').ref = (s.entry e').ref)
    (hpc : ∀ r e', s.pc r = .unlocking e' ∨ s.pc r = .dropping e' → t.pc r = s.pc r) : t.Settled := by
  refine ⟨fun q e' hq => ?_, fun i hi hun e' he' hie r hr => ?_, fun q i hq => ?_, fun q q' i hq hq' => ?_⟩
  · obtain ⟨hold, href⟩ := htested q e' hq
    rw [href]
    exact h.tested q e' hold
  · have hun' : s.Unnamed i := hun.back (by rw [hfs]; exact id) fun q => halloc q i
    have hne : e' ≠ e := by
      rintro rfl
      subst hie
      rcases hun with hz | ⟨q, hq⟩
      · rw [hfs] at hz
        exact htype hz
      · exact hnot q hq
    rw [hfs] at hi
    rw [hentry e' hne] at he' hie
    rw [hheld r e' hne] at hr ⊢
    obtain ⟨hone, hwhere⟩ := h.quiet i hi hun' e' he' hie r hr
    rw [hpc r e' hwhere]
    exact ⟨hone, hwhere⟩
  · rw [hfs]
    exact h.fresh q i (halloc q i hq)
  · exact h.apart q q' i (halloc q i hq) (halloc q' i hq')

variable [DecidableEq P]

/-- The steps of the kernel, where `itrunc` is called by `iput` only. -/
def KStep (s : Icache P) (a : IAct P) (t : Icache P) : Prop :=
  (∀ p e, a ≠ .itrunc p e) ∧ s.Step a t

/-- A process that is not where `p` has moved to is where it was. -/
theorem pc_back {pcs : P → IPc} {pc pc' : IPc} (h : Function.update pcs p pc q = pc') (hne : pc' ≠ pc) :
    pcs q = pc' ∧ q ≠ p := by
  by_cases hqp : q = p
  · subst hqp
    rw [update_self] at h
    exact (hne h.symm).elim
  · rw [update_of_ne hqp] at h
    exact ⟨h, hqp⟩

/-- A step after which the references, the numbers and the inodes on disk are as they were, and
process `p` has moved. -/
theorem Settled.moved {pc : IPc} (h : s.Settled) (hfs : t.fs = s.fs) (hheld : t.held = s.held)
    (hentry : ∀ e, (t.entry e).ref = (s.entry e).ref ∧ (t.entry e).inum = (s.entry e).inum)
    (hpc : t.pc = Function.update s.pc p pc) (hnew : ∀ i, pc ≠ .alloced i)
    (htested : ∀ e, pc = .tested e true → (s.entry e).ref = 1)
    (hquiet : ∀ e, s.pc p = .unlocking e ∨ s.pc p = .dropping e → pc = .unlocking e ∨ pc = .dropping e) :
    t.Settled := by
  have halloc : ∀ q i, t.pc q = .alloced i → s.pc q = .alloced i := by
    intro q i hq
    rw [hpc] at hq
    exact (pc_back hq (hnew i).symm).1
  refine ⟨fun q e hq => ?_, fun i hi hun e he hie r hr => ?_, fun q i hq => ?_, fun q q' i hq hq' => ?_⟩
  · rw [(hentry e).1]
    rw [hpc] at hq
    by_cases hqp : q = p
    · subst hqp
      rw [update_self] at hq
      exact htested e hq
    · rw [update_of_ne hqp] at hq
      exact h.tested q e hq
  · have hun' : s.Unnamed i := hun.back (by rw [hfs]; exact id) fun q => halloc q i
    rw [hfs] at hi
    rw [(hentry e).1] at he
    rw [(hentry e).2] at hie
    rw [hheld] at hr ⊢
    obtain ⟨hone, hwhere⟩ := h.quiet i hi hun' e he hie r hr
    refine ⟨hone, ?_⟩
    rw [hpc]
    by_cases hrp : r = p
    · subst hrp
      rw [update_self]
      exact hquiet e hwhere
    · rw [update_of_ne hrp]
      exact hwhere
  · rw [hfs]
    exact h.fresh q i (halloc q i hq)
  · exact h.apart q q' i (halloc q i hq) (halloc q' i hq')

variable [Fintype P]

theorem Settled.named (h : s.Settled) (hok : s.Ok) (hidle : s.pc p = .idle) (hpos : 0 < s.held p e) :
    ¬ s.Unnamed (s.entry e).inum := by
  intro hun
  have he := hok.ref_pos hpos
  have := (h.quiet _ (hok.range e he) hun).not_held (p := p) he rfl (by simp [hidle]) (by simp [hidle])
  omega

theorem Ok.two_refs (hok : s.Ok) (hpq : p ≠ q) (hp : 0 < s.held p e) (hq : 0 < s.held q e) :
    2 ≤ (s.entry e).ref := by
  have hrest := Finset.add_sum_erase (Finset.univ.erase p) (fun r => s.held r e)
    (Finset.mem_erase.mpr ⟨Ne.symm hpq, Finset.mem_univ q⟩)
  rw [hok.counts e, Lib.sum_split _ p]
  omega

omit [DecidableEq P] in
theorem Ok.tested_held (hok : s.Ok) {last : Bool} (hpc : s.pc p = .tested e last) : 0 < s.held p e := by
  have hp := hok.atPc p
  rw [hpc] at hp
  exact (hok.holder e p hp.1).1

section
variable (h : s.Settled) (hok : s.Ok)
include h hok

theorem Settled.iget (htype : (s.fs.dinode i).type ≠ 0)
    (hlink : 0 < (s.fs.dinode i).nlink) (hget : s.iget p i = .ok t) : t.Settled := by
  obtain ⟨hfs, hpc, e, hwhich, hinum, hentry, hheld⟩ := iget_spec hget
  refine h.referenced hfs hentry hheld (by rw [hinum]; exact htype) (fun q hq => ?_)
    (fun q j hq => by rwa [hpc] at hq) (fun q e' hq => ?_) fun r e' _ => by rw [hpc]
  · rw [hpc, hinum] at hq
    have := (h.fresh q i hq).2
    omega
  rw [hpc] at hq
  refine ⟨hq, ?_⟩
  rw [hentry e']
  -- an inode under test has no links, so it is not the one that has been found
  rintro rfl
  have hone := h.tested q e' hq
  have hp := hok.atPc q
  rw [hq] at hp
  obtain ⟨-, hv, hn⟩ := hp
  rcases hwhich with ⟨hpos, hnum⟩ | hzero
  · obtain ⟨hcopy, -⟩ := hok.coherent e' hpos hv
    rw [hcopy, hnum] at hn
    omega
  · omega

theorem Settled.allocGet {u : Icache P} (hpc : s.pc p = .alloced i)
    (hget : s.iget p i = .ok u) : (u.setPc p .idle).Settled := by
  obtain ⟨hfs, hpcs, e, hwhich, hinum, hentry, hheld⟩ := iget_spec hget
  have hi := hok.atPc p
  rw [hpc] at hi
  have hback : ∀ q pc, (u.setPc p .idle).pc q = pc → pc ≠ .idle → s.pc q = pc ∧ q ≠ p :=
    fun q pc hq hne => hpcs ▸ pc_back hq hne
  refine h.referenced (e := e) hfs hentry hheld ?_ (fun q hq => ?_) (fun q j hq => (hback q _ hq nofun).1)
    (fun q e' hq => ?_) fun r e' hr => ?_
  · change (s.fs.dinode (u.entry e).inum).type ≠ 0
    rw [hinum]
    exact (h.fresh p i hpc).1
  · change (u.setPc p .idle).pc q = .alloced (u.entry e).inum at hq
    rw [hinum] at hq
    obtain ⟨hq, hne⟩ := hback q _ hq nofun
    exact hne (h.apart q p i hq hpc)
  · have hq := (hback q _ hq nofun).1
    refine ⟨hq, ?_⟩
    change (u.entry e').ref = _
    rw [hentry e']
    rintro rfl
    have hone := h.tested q e' hq
    rcases hwhich with ⟨hpos, hnum⟩ | hzero
    · have := (h.quiet i hi (Or.inr ⟨p, hpc⟩)).not_held (p := q) hpos hnum (by rw [hq]; nofun)
        (by rw [hq]; nofun)
      have := hok.tested_held hq
      omega
    · omega
  · unfold setPc
    dsimp only
    rw [update_of_ne (ne_of_dropping hr (by simp [hpc])), hpcs]

theorem Settled.shared (hidle : s.pc p = .idle) (hpos : 0 < s.held p e)
    (hfs : t.fs = s.fs) (hpc : t.pc = s.pc) (hinum : (t.entry e).inum = (s.entry e).inum)
    (hentry : ∀ e', e' ≠ e → t.entry e' = s.entry e')
    (hheld : ∀ r e', e' ≠ e → t.held r e' = s.held r e') : t.Settled := by
  have hnamed := h.named hok hidle hpos
  refine h.referenced hfs hentry hheld ?_ (fun q hq => ?_) (fun q j hq => by rwa [hpc] at hq)
    (fun q e' hq => ?_) fun r e' _ => by rw [hpc]
  · rw [hinum]
    exact fun hz => hnamed (Or.inl hz)
  · rw [hinum, hpc] at hq
    exact hnamed (Or.inr ⟨q, hq⟩)
  rw [hpc] at hq
  refine ⟨hq, ?_⟩
  rw [hentry e']
  rintro rfl
  have hqp : q ≠ p := by
    rintro rfl
    rw [hidle] at hq
    cases hq
  have := hok.two_refs hqp (hok.tested_held hq) hpos
  have := h.tested q e' hq
  omega

theorem Settled.ialloc {type : Nat} (hidle : s.pc p = .idle)
    (htype : 0 < type) (hwidth : type < 65536) (halloc : s.ialloc p type = .ok t) : t.Settled := by
  obtain ⟨i, hi, hzero, rfl, -, hu, -⟩ := hok.allocates htype hwidth halloc
  have hback : ∀ q j, Function.update s.pc p (.alloced i) q = .alloced j →
      q = p ∧ j = i ∨ s.pc q = .alloced j ∧ j ≠ i ∧ j < s.fs.sb.ninodes := by
    intro q j hq
    by_cases hqp : q = p
    · subst hqp
      rw [update_self] at hq
      cases hq
      exact Or.inl ⟨rfl, rfl⟩
    · rw [update_of_ne hqp] at hq
      have hlt := hok.atPc q
      rw [hq] at hlt
      refine Or.inr ⟨hq, ?_, hlt⟩
      rintro rfl
      exact (h.fresh q j hq).1 hzero
  refine ⟨fun q e hq => ?_, fun j hj hun e he hje r hr => ?_, fun q j hq => ?_, fun q q' j hq hq' => ?_⟩
  · exact h.tested q e (pc_back hq nofun).1
  · -- the inode was free before, so nobody uses it; any other is as it was
    have hun' : s.Unnamed j := by
      by_cases hji : j = i
      · subst hji
        exact Or.inl hzero
      · exact hun.back (congrArg Dinode.type (hu.others j hj hji)).symm.trans fun q hq =>
          ((hback q j hq).resolve_left fun hand => hji hand.2).1
    obtain ⟨hone, hwhere⟩ := h.quiet j hj hun' e he hje r hr
    refine ⟨hone, ?_⟩
    change Function.update s.pc p _ r = _ ∨ Function.update s.pc p _ r = _
    rw [update_of_ne (ne_of_dropping hwhere (by simp [hidle]))]
    exact hwhere
  · rcases hback q j hq with ⟨-, rfl⟩ | ⟨hq, hne, hlt⟩
    · rw [hu.self]
      exact ⟨Nat.pos_iff_ne_zero.mp htype, rfl⟩
    · rw [hu.others j hlt hne]
      exact h.fresh q j hq
  · rcases hback q j hq with ⟨rfl, rfl⟩ | ⟨hq, hne, -⟩
    · rcases hback q' j hq' with ⟨rfl, -⟩ | ⟨-, hne, -⟩
      · rfl
      · exact (hne rfl).elim
    · rcases hback q' j hq' with ⟨-, rfl⟩ | ⟨hq', -, -⟩
      · exact (hne rfl).elim
      · exact h.apart q q' j hq hq'

end

end

end Icache
end Xv6
