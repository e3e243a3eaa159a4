import Xv6.IcacheLinks

/-!
Coherence of the inode cache over runs. There is one entry for an inode, and the copy in an
entry that is not locked is that on disk, whatever numbers are looked up. That blocks are freed
with the last reference only holds while lookups find inodes with links; the entry `..` of a
removed directory can name one without, and a reference can then be made between the test in
`iput` and the truncation.
-/

namespace Xv6

open Function
namespace Icache

section
variable {P : Type} [DecidableEq P] [Fintype P] {s t : Icache P} {a : IAct P} {p q : P}
  {e : Fin NINODE}

theorem Settled.free {ip : Dinode} (h : s.Settled) (hok : s.Ok) (hpc : s.pc p = .tested e true)
    (hheld : t.held = s.held) (hpcs : t.pc = s.pc)
    (hentry : ∀ e', (t.entry e').ref = (s.entry e').ref ∧ (t.entry e').inum = (s.entry e').inum)
    (hu : s.fs.Updates (s.entry e).inum t.fs ip) : (t.setPc p (.unlocking e)).Settled := by
  have hone := h.tested p e hpc
  have hpos := hok.tested_held hpc
  have hback : ∀ q pc, (t.setPc p (.unlocking e)).pc q = pc → pc ≠ .unlocking e → s.pc q = pc :=
    fun q pc hq hne => hpcs ▸ (pc_back hq hne).1
  -- nobody is about to get the inode from `ialloc`
  have hnot : ∀ q i, s.pc q = .alloced i → i < s.fs.sb.ninodes ∧ i ≠ (s.entry e).inum := by
    intro q i hq
    have hlt := hok.atPc q
    rw [hq] at hlt
    refine ⟨hlt, ?_⟩
    rintro rfl
    have := (h.quiet _ hlt (Or.inr ⟨q, hq⟩)).not_held (p := p) (hok.ref_pos hpos) rfl
      (by rw [hpc]; nofun) (by rw [hpc]; nofun)
    omega
  refine ⟨fun q e' hq => ?_, fun i hi hun e' he' hie r hr => ?_, fun q i hq => ?_, fun q q' i hq hq' => ?_⟩
  · exact (hentry e').1.trans (h.tested q e' (hback q _ hq nofun))
  · change i < t.fs.sb.ninodes at hi
    rw [hu.sb] at hi
    change 0 < (t.entry e').ref at he'
    change (t.entry e').inum = i at hie
    change 0 < t.held r e' at hr
    rw [(hentry e').1] at he'
    rw [(hentry e').2] at hie
    rw [hheld] at hr
    change t.held r e' = 1 ∧ (Function.update t.pc p (.unlocking e) r = _ ∨
      Function.update t.pc p (.unlocking e) r = _)
    rw [hheld]
    by_cases hee : e' = e
    · subst hee
      have hrp : r = p := by
        by_contra hne
        have := hok.two_refs (Ne.symm hne) hpos hr
        omega
      subst hrp
      rw [update_self]
      have hcount := hok.counts e'
      rw [Lib.sum_split _ r] at hcount
      exact ⟨by omega, Or.inl rfl⟩
    · have hne : i ≠ (s.entry e).inum := by
        rintro rfl
        exact hee (hok.unique e' e he' (hok.ref_pos hpos) hie)
      have hun' : s.Unnamed i := hun.back (congrArg Dinode.type (hu.others i hi hne)).symm.trans
        fun q hq => hback q _ hq nofun
      obtain ⟨hheld', hwhere⟩ := h.quiet i hi hun' e' he' hie r hr
      rw [update_of_ne (ne_of_dropping hwhere (by simp [hpc])), hpcs]
      exact ⟨hheld', hwhere⟩
  · have hq := hback q _ hq nofun
    obtain ⟨hlt, hne⟩ := hnot q i hq
    have hsame : (t.setPc p (.unlocking e)).fs.dinode i = s.fs.dinode i := hu.others i hlt hne
    rw [hsame]
    exact h.fresh q i hq
  · exact h.apart q q' i (hback q _ hq nofun) (hback q' _ hq' nofun)

theorem Settled.dropped (h : s.Settled) (hok : s.Ok) (hpc : s.pc p = .dropping e) (hfs : t.fs = s.fs)
    (hself : t.entry e = { s.entry e with ref := (s.entry e).ref - 1 })
    (hentry : ∀ e', e' ≠ e → t.entry e' = s.entry e')
    (hheld : ∀ q e', q ≠ p ∨ e' ≠ e → t.held q e' = s.held q e')
    (hdrop : t.held p e = s.held p e - 1)
    (hpcs : t.pc = Function.update s.pc p .idle) : t.Settled := by
  have hp := hok.atPc p
  rw [hpc] at hp
  have hback : ∀ q pc, t.pc q = pc → pc ≠ .idle → s.pc q = pc ∧ q ≠ p := fun q pc hq hne =>
    pc_back (hpcs ▸ hq) hne
  refine ⟨fun q e' hq => ?_, fun i hi hun e' he' hie r hr => ?_, fun q i hq => ?_, fun q q' i hq hq' => ?_⟩
  · obtain ⟨hq, hqp⟩ := hback q _ hq nofun
    have hone := h.tested q e' hq
    rw [hentry e']
    · exact hone
    · rintro rfl
      have := hok.two_refs hqp (hok.tested_held hq) hp.1
      omega
  · have hun' : s.Unnamed i := hun.back (by rw [hfs]; exact id) fun q hq => (hback q _ hq nofun).1
    rw [hfs] at hi
    have hpos : 0 < (s.entry e').ref ∧ (s.entry e').inum = i := by
      by_cases hee : e' = e
      · subst hee
        rw [hself] at hie
        exact ⟨hok.ref_pos hp.1, hie⟩
      · rw [hentry e' hee] at he' hie
        exact ⟨he', hie⟩
    have hquiet := h.quiet i hi hun' e' hpos.1 hpos.2
    by_cases hre : r = p ∧ e' = e
    · -- the reference was the only one of the process
      obtain ⟨rfl, rfl⟩ := hre
      have := (hquiet r hp.1).1
      omega
    have hor := not_and_or.mp hre
    rw [hheld r e' hor] at hr ⊢
    obtain ⟨hone, hwhere⟩ := hquiet r hr
    have hrp : r ≠ p := by
      rintro rfl
      rw [hpc] at hwhere
      rcases hwhere with hw | hw
      · cases hw
      · cases hw
        exact hre ⟨rfl, rfl⟩
    rw [hpcs, update_of_ne hrp]
    exact ⟨hone, hwhere⟩
  · rw [hfs]
    exact h.fresh q i (hback q _ hq nofun).1
  · exact h.apart q q' i (hback q _ hq nofun).1 (hback q' _ hq' nofun).1

omit [DecidableEq P] [Fintype P] in
theorem Idle.settled (h : s.Idle) : s.Settled := by
  refine ⟨fun p e hp => ?_, fun i _ _ e he => ?_, fun q i hq => ?_, fun q q' i hq => ?_⟩
  · rw [h.pc p] at hp
    cases hp
  · rw [(h.entry e).1] at he
    cases he
  · rw [h.pc q] at hq
    cases hq
  · rw [h.pc q] at hq
    cases hq

omit [Fintype P] in
theorem Settled.relock {x : Ientry P} {pc : IPc} (h : s.Settled) (href : x.ref = (s.entry e).ref)
    (hinum : x.inum = (s.entry e).inum) (hnew : ∀ i, pc ≠ .alloced i)
    (htested : ∀ e, pc = .tested e true → (s.entry e).ref = 1)
    (hquiet : ∀ e, s.pc p = .unlocking e ∨ s.pc p = .dropping e → pc = .unlocking e ∨ pc = .dropping e) :
    ((s.setEntry e x).setPc p pc).Settled :=
  h.moved rfl rfl (setEntry_same href hinum) rfl hnew htested hquiet

omit [Fintype P] in
theorem Settled.relock_idle {x : Ientry P} (h : s.Settled) (hidle : s.pc p = .idle)
    (href : x.ref = (s.entry e).ref) (hinum : x.inum = (s.entry e).inum) : (s.setEntry e x).Settled := by
  have hpc : s.pc = Function.update s.pc p .idle := (update_eq_self_iff.mpr hidle.symm).symm
  exact h.moved rfl rfl (setEntry_same href hinum) hpc nofun nofun (by simp [hidle])

/-- The inode of an entry that an idle process has locked is none that nobody else may have. -/
theorem Settled.edited {fs : Fs} {ip : Dinode} (h : s.Settled) (hok : s.Ok) (hidle : s.pc p = .idle)
    (hp : (s.entry e).holder = some p) (hedit : s.Edits e fs ip) : (s.setInode e fs ip).Settled := by
  have hnamed := h.named hok hidle (hok.holder e p hp).1
  have hu := hedit.updates
  have hsame : ∀ e', ((s.setInode e fs ip).entry e').ref = (s.entry e').ref ∧
      ((s.setInode e fs ip).entry e').inum = (s.entry e').inum := setEntry_same rfl rfl
  have hother : ∀ i, (s.setInode e fs ip).Unnamed i → i ≠ (s.entry e).inum := by
    rintro i (hz | hq) rfl
    · change (fs.dinode _).type = 0 at hz
      rw [hu.self] at hz
      exact hedit.type hz
    · exact hnamed (Or.inr hq)
  refine ⟨fun q e' hq => (hsame e').1.trans (h.tested q e' hq), fun i hi hun e' he' hie r hr => ?_,
    fun q i hq => ?_, h.apart⟩
  · change i < fs.sb.ninodes at hi
    rw [hu.sb] at hi
    rw [(hsame e').1] at he'
    rw [(hsame e').2] at hie
    have hdinode := congrArg Dinode.type (hu.others i hi (hother i hun))
    exact h.quiet i hi (hun.back hdinode.symm.trans fun _ => id) e' he' hie r hr
  · have hlt := hok.atPc q
    rw [show s.pc q = _ from hq] at hlt
    change (fs.dinode i).type ≠ 0 ∧ (fs.dinode i).nlink = 0
    rw [hu.others i hlt (hother i (Or.inr ⟨q, hq⟩))]
    exact h.fresh q i hq

omit [Fintype P] in
theorem ilock_eq (h : s.ilock p e = .ok t) : ∃ x, t = s.setEntry e x ∧ x.ref = (s.entry e).ref ∧
    x.inum = (s.entry e).inum := by
  unfold Icache.ilock at h
  split at h
  · cases h
    exact ⟨_, rfl, rfl, rfl⟩
  · obtain ⟨d, -, hret⟩ := Lib.bind_eq_ok.mp h
    cases hret
    exact ⟨_, rfl, rfl, rfl⟩

theorem Settled.step (h : s.Settled) (hok : s.Ok) (hl : s.Linked a) (hstep : s.KStep a t) :
    t.Settled := by
  obtain ⟨hno, hstep⟩ := hstep
  cases hok.acted hstep with
  | iget hi hget => exact h.iget hok hl.1 hl.2 hget
  | @idup p q e hpc hheld =>
    have hself : (s.addRef q e).entry e = { s.entry e with ref := (s.entry e).ref + 1 } :=
      entry_self s e _
    exact h.shared hok hpc hheld rfl rfl (by rw [hself]) (fun _ he => entry_ne s _ he)
      fun _ _ he => held_ne (s.setEntry e _) _ (Or.inr he)
  | pass hpc hne hheld =>
    exact h.shared hok hpc (Nat.zero_lt_of_lt hheld) rfl rfl rfl (fun _ _ => rfl)
      fun _ _ he => (held_ne _ _ (Or.inr he)).trans (held_ne _ _ (Or.inr he))
  | ilock hpc hheld hfree hlock =>
    obtain ⟨x, rfl, href, hinum⟩ := ilock_eq hlock
    exact h.relock_idle hpc href hinum
  | iunlock hpc hp => exact h.relock_idle hpc rfl rfl
  | edit hpc hp hedit => exact h.edited hok hpc hp hedit
  | @itrunc p e => exact (hno p e rfl).elim
  | ialloc hpc hpos hlt halloc => exact h.ialloc hok hpc hpos hlt halloc
  | allocGet hpc hget => exact h.allocGet hok hpc hget
  | putLock hpc hheld hfree =>
    exact h.relock rfl rfl nofun nofun (by simp [hpc])
  | putTest hpc hand =>
    refine h.moved rfl rfl (fun _ => ⟨rfl, rfl⟩) rfl nofun (fun e' he => ?_) (by simp [hpc])
    cases IPc.tested.inj he |>.1
    exact eq_of_beq (IPc.tested.inj he).2
  | putPass hpc =>
    exact h.moved rfl rfl (fun _ => ⟨rfl, rfl⟩) rfl nofun nofun (by simp [hpc])
  | putFree hpc hfree =>
    obtain ⟨u, ip, hret, -, hheld, hpcs, hentry, hu, -⟩ := hok.free hpc
    rw [hfree] at hret
    cases hret
    exact h.free hok hpc hheld hpcs hentry hu
  | putKeep hpc =>
    exact h.moved rfl rfl (fun _ => ⟨rfl, rfl⟩) rfl nofun nofun (by simp [hpc])
  | putUnlock hpc =>
    exact h.relock rfl rfl nofun nofun (by simp [hpc])
  | @putDrop p e hpc =>
    exact h.dropped hok hpc rfl (entry_self s e _) (fun _ he => entry_ne s _ he)
      (fun _ _ hq => held_ne (s.setEntry e _) _ hq) (held_self (s.setEntry e _) p e _) rfl

omit [DecidableEq P] [Fintype P] in
theorem freedByLast_of_grows (hgrows : s.fs.Grows t.fs) : FreedByLast s a t :=
  fun n hn hm hfreed => (hfreed (hgrows n hn hm)).elim

theorem Settled.freedByLast (h : s.Settled) (hok : s.Ok) (hstep : s.KStep a t) : FreedByLast s a t := by
  obtain ⟨hno, hstep⟩ := hstep
  have hsame : t.fs = s.fs → FreedByLast s a t := fun hfs =>
    freedByLast_of_grows fun n _ hm => by rwa [hfs]
  cases hok.acted hstep with
  | iget hi hget => exact hsame (iget_spec hget).1
  | idup hpc hheld => exact hsame rfl
  | pass hpc hne hheld => exact hsame rfl
  | ilock hpc hheld hfree hlock =>
    obtain ⟨x, rfl, -⟩ := ilock_eq hlock
    exact hsame rfl
  | iunlock hpc hp => exact hsame rfl
  | edit hpc hp hedit => exact freedByLast_of_grows hedit.grows
  | @itrunc p e => exact (hno p e rfl).elim
  | ialloc hpc hpos hlt halloc =>
    obtain ⟨i, -, -, -, -, -, hmarked⟩ := hok.allocates hpos hlt halloc
    exact freedByLast_of_grows fun n _ hm => (hmarked n).trans hm
  | allocGet hpc hget => exact hsame (iget_spec hget).1
  | putLock hpc hheld hfree => exact hsame rfl
  | putTest hpc hand => exact hsame rfl
  | putPass hpc => exact hsame rfl
  | @putFree p e u hpc hfree =>
    obtain ⟨u', ip, hret, -, -, -, -, -, -, hnamed, -⟩ := hok.free hpc
    rw [hfree] at hret
    cases hret
    intro n hn hm hfreed
    have hone := h.tested p e hpc
    have hpos := hok.tested_held hpc
    have hcount := hok.counts e
    rw [Lib.sum_split _ p] at hcount
    have hp := hok.atPc p
    rw [hpc] at hp
    refine ⟨p, e, rfl, hpc, hone, by omega, ?_, hnamed n hn hm hfreed⟩
    rw [← (hok.coherent e (hok.ref_pos hpos) hp.2.1).1]
    exact hp.2.2
  | putKeep hpc => exact hsame rfl
  | putUnlock hpc => exact hsame rfl
  | putDrop hpc => exact hsame rfl

end

end Icache
end Xv6
