import Xv6.IcacheSpec
import Xv6.Lib.Run

/-!
Every step of a process keeps the inode cache in order. As the file system stays well formed
with it, no step panics in `bfree`: a block that an inode names is in use.
-/

namespace Xv6

open Function
namespace Icache

section
variable {P : Type} [DecidableEq P] [Fintype P] {s t : Icache P} {p q : P} {e : Fin NINODE} {i : Nat}

omit [Fintype P] in
/-- What `iget` finds: an entry with the number, or a free one if there is none. -/
theorem iget_cases (hget : s.iget p i = .ok t) :
    (∃ e, (0 < (s.entry e).ref ∧ (s.entry e).inum = i) ∧ t = s.addRef p e) ∨
    ∃ e, (s.entry e).ref = 0 ∧ (∀ e', 0 < (s.entry e').ref → (s.entry e').inum ≠ i) ∧
      t = (s.setEntry e { s.entry e with inum := i, ref := 0, valid := false }).addRef p e := by
  unfold Icache.iget at hget
  split at hget
  · rename_i e hcached
    cases hget
    exact Or.inl ⟨e, by simpa using List.find?_some hcached, rfl⟩
  rename_i hcached
  split at hget
  · cases hget
  rename_i e hempty
  cases hget
  refine Or.inr ⟨e, by simpa using List.find?_some hempty, fun e' he' hi => ?_, rfl⟩
  have := List.find?_eq_none.mp hcached e' (List.mem_finRange e')
  rw [decide_eq_true_eq] at this
  exact this ⟨he', hi⟩

theorem Ok.iget (h : s.Ok) (hi : i < s.fs.sb.ninodes) (hget : s.iget p i = .ok t) : t.Ok := by
  rcases iget_cases hget with ⟨e, hfound, rfl⟩ | ⟨e, hzero, hnone, rfl⟩
  · exact h.addRef p e (h.range e hfound.1) (fun e' he' heq => h.unique e' e he' hfound.1 heq)
      (h.coherent e hfound.1)
  refine (h.recycle (x := { s.entry e with inum := i, ref := 0, valid := false }) hzero rfl
    rfl).addRef p e ?_ (fun e' he' heq => ?_) fun hv => ?_
  · rw [entry_self]
    exact hi
  · by_contra hne
    rw [entry_ne s _ hne] at he' heq
    rw [entry_self] at heq
    exact hnone e' he' heq
  · rw [entry_self] at hv
    cases hv

omit [Fintype P] in
theorem iget_spec (hget : s.iget p i = .ok t) : t.fs = s.fs ∧ t.pc = s.pc ∧ ∃ e,
    (0 < (s.entry e).ref ∧ (s.entry e).inum = i ∨ (s.entry e).ref = 0) ∧ (t.entry e).inum = i ∧
    (∀ e', e' ≠ e → t.entry e' = s.entry e') ∧ ∀ r e', e' ≠ e → t.held r e' = s.held r e' := by
  rcases iget_cases hget with ⟨e, hfound, rfl⟩ | ⟨e, hzero, -, rfl⟩
  · refine ⟨rfl, rfl, e, Or.inl hfound, ?_, fun e' he => entry_ne s _ he, fun r e' he => ?_⟩
    · exact (congrArg Ientry.inum (entry_self s e _)).trans hfound.2
    · exact held_ne (s.setEntry e _) _ (Or.inr he)
  · refine ⟨rfl, rfl, e, Or.inr hzero, ?_, fun e' he => ?_, fun r e' he => ?_⟩
    · refine (congrArg Ientry.inum (entry_self (s.setEntry e _) e _)).trans ?_
      rw [entry_self]
    · exact (entry_ne (s.setEntry e _) _ he).trans (entry_ne s _ he)
    · exact held_ne ((s.setEntry e _).setEntry e _) _ (Or.inr he)

/-- The position of every process when `p` has moved. -/
theorem Ok.atPc_setPc {pc : IPc} (h : s.Ok) (hpc : s.AtPc p pc) (q : P) :
    s.AtPc q (Function.update s.pc p pc q) := by
  by_cases hqp : q = p
  · subst hqp
    rw [update_self]
    exact hpc
  · rw [update_of_ne hqp]
    exact h.atPc q

theorem Ok.setIdle (h : s.Ok) (hpc : ∃ j, s.pc p = .alloced j) : (s.setPc p .idle).Ok := by
  obtain ⟨j, hj⟩ := hpc
  refine h.reheld rfl (fun _ => rfl) h.counts (fun _ => le_rfl) (fun e q hq => ?_)
    (h.atPc_setPc trivial)
  obtain ⟨hpos, hwhy⟩ := h.holder e q hq
  refine ⟨hpos, ?_⟩
  by_cases hqp : q = p
  · subst hqp
    exact Or.inr (hwhy.resolve_right (by simp [hj]))
  · exact Or.inl (update_of_ne hqp ..)

/-- A free inode is taken, and no block. -/
theorem Ok.allocates {type : Nat} (h : s.Ok) (htype : 0 < type) (hwidth : type < 65536)
    (halloc : s.ialloc p type = .ok t) : ∃ i < s.fs.sb.ninodes, (s.fs.dinode i).type = 0 ∧
      t = { s with fs := s.fs.iupdate i { type := type } }.setPc p (.alloced i) ∧ t.fs.Own ∧
      s.fs.Updates i t.fs { type := type } ∧ ∀ n, t.fs.marked n = s.fs.marked n := by
  unfold Icache.ialloc at halloc
  split at halloc
  · cases halloc
  rename_i i hfree
  cases halloc
  have hzero : (s.fs.dinode i).type = 0 := by simpa using List.find?_some hfree
  have hi : i < s.fs.sb.ninodes := by
    have := List.mem_range'_1.mp (List.mem_of_find?_eq_some hfree)
    omega
  have hlive : s.fs.live i = {} := if_neg fun hand => hand.2 hzero
  exact ⟨i, hi, hzero, rfl, h.own.written hi (.refl h.own.names hlive) { type := type } rfl
    (fun _ => Fs.whole_empty rfl) (fun h0 => absurd h0 (by dsimp only; omega))
    ⟨hwidth, Nat.zero_lt_succ _, Nat.zero_lt_succ _, Nat.zero_lt_succ _, Nat.zero_lt_succ _,
      fun _ => Nat.zero_lt_succ _⟩⟩

/-- The copy of an inode and the other entries do not see a free inode being allocated. -/
theorem Ok.ialloc {type : Nat} (h : s.Ok) (hpc : s.pc p = .idle) (htype : 0 < type)
    (hwidth : type < 65536) (halloc : s.ialloc p type = .ok t) : t.Ok := by
  obtain ⟨i, hi, hzero, rfl, hown, hu, -⟩ := h.allocates htype hwidth halloc
  refine ⟨hown, h.counts, h.unique, h.range, fun e he hv => ?_, fun e q hq => ?_, h.atPc_setPc hi⟩
  · obtain ⟨hcopy, ht⟩ := h.coherent e he hv
    refine ⟨?_, ht⟩
    have hne : (s.entry e).inum ≠ i := by
      rintro rfl
      rw [hcopy] at ht
      exact ht hzero
    exact hcopy.trans (hu.others _ (h.range e he) hne).symm
  · obtain ⟨hpos, hwhy⟩ := h.holder e q hq
    refine ⟨hpos, ?_⟩
    unfold setPc
    dsimp only
    by_cases hqp : q = p
    · subst hqp
      exact Or.inl (hwhy.resolve_right (by simp [hpc]))
    · rw [update_of_ne hqp]
      exact hwhy

theorem Ok.ilock (h : s.Ok) (hpc : s.pc p = .idle) (hpos : 0 < s.held p e)
    (hfree : (s.entry e).holder = none) (hlock : s.ilock p e = .ok t) : t.Ok := by
  unfold Icache.ilock at hlock
  have hself : Function.update s.pc p (s.pc p) = s.pc := update_eq_self ..
  split at hlock
  · rename_i hv
    cases hlock
    have := h.relock (x := { s.entry e with holder := some p }) (s.pc p) hpos (Or.inl hfree) rfl
      (Or.inr rfl) (fun _ => Or.inl hv) (fun e' he => (not_locked_of_idle hpc e' he).elim)
      (by rw [hpc]; trivial)
    rw [hself] at this
    exact this
  · obtain ⟨d, hload, hlock⟩ := Lib.bind_eq_ok.mp hlock
    cases hlock
    unfold Fs.load at hload
    split at hload
    · cases hload
    rename_i ht
    cases hload
    have := h.locked (p := p) (e := e) (x := { s.entry e with
        valid := true, copy := s.fs.dinode (s.entry e).inum, holder := some p }) (s.pc p)
      ⟨hpos, h.own, rfl, rfl, rfl, fun _ _ _ => rfl, fun _ => ⟨rfl, ht⟩, not_other (Or.inl hfree),
        not_other (Or.inr rfl), fun _ => Or.inl rfl, fun e' he => (not_locked_of_idle hpc e' he).elim,
        by rw [hpc]; trivial⟩
    rw [hself] at this
    exact this

theorem Ok.iunlock (h : s.Ok) (hpc : s.pc p = .idle) (hp : (s.entry e).holder = some p) :
    (s.setEntry e { s.entry e with holder := none }).Ok := by
  have := h.relock (x := { s.entry e with holder := none }) (s.pc p) (h.holder e p hp).1 (Or.inr hp) rfl
    (Or.inl rfl) nofun (fun e' he => (not_locked_of_idle hpc e' he).elim) (by rw [hpc]; trivial)
  rw [update_eq_self] at this
  exact this

/-- The inode of an entry changes, and no block is freed. -/
structure Edits (s : Icache P) (e : Fin NINODE) (fs : Fs) (ip : Dinode) : Prop where
  own : fs.Own
  updates : s.fs.Updates (s.entry e).inum fs ip
  type : ip.type ≠ 0
  grows : s.fs.Grows fs

section
variable (h : s.Ok) (hpc : s.pc p = .idle) (hp : (s.entry e).holder = some p)
include h hpc hp

theorem Ok.edits_readi {off n : Nat} {dev r : Option (List UInt8)} {fs : Fs} {ip : Dinode}
    (hread : s.fs.readi (s.entry e).copy off n dev = .ok (r, fs, ip)) : s.Edits e fs ip := by
  obtain ⟨hi, hcopy, ht⟩ := h.current hpc hp
  obtain ⟨r', hret⟩ := Fs.readi_stays (h.own.whole _ hi ht) off n dev
  rw [hcopy, hret] at hread
  cases hread
  exact ⟨h.own, (Fs.Kept.refl s.fs).updates hi, ht, fun _ _ hm => hm⟩

theorem Ok.edits_writei {src : List UInt8} {off : Nat} {dev r : Option Nat} {fs : Fs} {ip : Dinode}
    (hwrite : s.fs.writei (s.entry e).inum (s.entry e).copy src off dev = .ok (r, fs, ip)) :
    s.Edits e fs ip := by
  obtain ⟨hi, hcopy, ht⟩ := h.current hpc hp
  rw [hcopy] at hwrite
  obtain ⟨hown, hu, hgrows, htype⟩ := h.own.writei hi ht hwrite
  exact ⟨hown, hu, htype ▸ ht, hgrows⟩

theorem Ok.edits_update
    (major minor nlink : Nat) : ∃ fs ip, s.update e major minor nlink = s.setInode e fs ip ∧
      s.Edits e fs ip := by
  obtain ⟨hi, hcopy, ht⟩ := h.current hpc hp
  have hfits := getDinode_fits (s.fs.block (s.fs.sb.iblock (s.entry e).inum)) ((s.entry e).inum % 8)
  change Dinode.Fits (s.fs.dinode (s.entry e).inum) at hfits
  obtain ⟨hown, hu, hmarked⟩ := h.own.written hi (.refl h.own.names (Fs.live_of_type hi ht))
    { s.fs.dinode (s.entry e).inum with
      major := major % 65536, minor := minor % 65536, nlink := nlink % 65536 } rfl
    (fun _ => h.own.whole _ hi ht) (fun h0 => absurd h0 ht)
    ⟨hfits.type, Nat.mod_lt _ (by decide), Nat.mod_lt _ (by decide), Nat.mod_lt _ (by decide), hfits.size,
      fun _ => Nat.zero_lt_succ _⟩
  unfold Icache.update
  rw [hcopy]
  exact ⟨_, _, rfl, hown, hu, ht, fun n _ hm => (hmarked n).trans hm⟩

theorem Ok.edited {fs : Fs} {ip : Dinode} (hedit : s.Edits e fs ip) : (s.setInode e fs ip).Ok :=
  h.changed hpc hp hedit.own hedit.updates hedit.type

theorem Ok.itrunc {fs : Fs} {ip : Dinode}
    (htrunc : s.fs.itrunc (s.entry e).inum (s.entry e).copy = .ok (fs, ip)) :
    (s.setInode e fs ip).Ok := by
  obtain ⟨hi, hcopy, ht⟩ := h.current hpc hp
  obtain ⟨fs', ip', hret, hown, hu, htype⟩ := h.own.itrunc hi ht
  rw [hcopy, hret] at htrunc
  cases htrunc
  exact h.changed hpc hp hown hu (htype ▸ ht)

end

theorem Ok.putLock (h : s.Ok) (hpc : s.pc p = .idle) (hpos : 0 < s.held p e)
    (hfree : (s.entry e).holder = none) :
    ((s.setEntry e { s.entry e with holder := some p }).setPc p (.locked e)).Ok :=
  h.relock (x := { s.entry e with holder := some p }) (.locked e) hpos (Or.inl hfree) rfl (Or.inr rfl)
    (fun _ => Or.inr (Or.inl rfl)) (fun e' he => (not_locked_of_idle hpc e' he).elim)
    (by unfold AtPc; dsimp only; rw [update_self])

theorem Ok.advance {pc : IPc} (h : s.Ok) (hp : (s.entry e).holder = some p)
    (hwhy : (s.entry e).valid = true ∨ pc = .locked e ∨ pc = .unlocking e)
    (honly : ∀ e', s.pc p = .locked e' ∨ s.pc p = .unlocking e' → e' = e)
    (hatPc : s.AtPc p pc) : (s.setPc p pc).Ok := by
  have := h.relock (x := s.entry e) pc (h.holder e p hp).1 (Or.inr hp) rfl (Or.inr hp) (fun _ => hwhy)
    honly (by rw [update_eq_self]; exact hatPc)
  rw [update_eq_self] at this
  exact this

theorem Ok.putTest (h : s.Ok) (hpc : s.pc p = .locked e) (last : Bool) :
    ((s.entry e).valid = true ∧ (s.entry e).copy.nlink = 0 → (s.setPc p (.tested e last)).Ok) ∧
      (s.setPc p (.unlocking e)).Ok := by
  have hp := h.atPc p
  rw [hpc] at hp
  have honly : ∀ e', s.pc p = .locked e' ∨ s.pc p = .unlocking e' → e' = e := by simp [hpc]
  exact ⟨fun hand => h.advance hp (Or.inl hand.1) honly ⟨hp, hand⟩,
    h.advance hp (Or.inr (Or.inr rfl)) honly hp⟩

theorem Ok.free (h : s.Ok) {last : Bool} (hpc : s.pc p = .tested e last) :
    ∃ t ip, s.free e = .ok t ∧ (t.setPc p (.unlocking e)).Ok ∧ t.held = s.held ∧ t.pc = s.pc ∧
      (∀ e', (t.entry e').ref = (s.entry e').ref ∧ (t.entry e').inum = (s.entry e').inum) ∧
      s.fs.Updates (s.entry e).inum t.fs ip ∧ ip.type = 0 ∧
      (∀ n < s.fs.sb.size, s.fs.marked n = true → t.fs.marked n ≠ true →
        ∃ b, (s.fs.dinode (s.entry e).inum).ref s.fs.block b = n) ∧
      ∀ b, (s.fs.dinode (s.entry e).inum).ref s.fs.block b ≠ 0 →
        t.fs.marked ((s.fs.dinode (s.entry e).inum).ref s.fs.block b) ≠ true := by
  have hp := h.atPc p
  rw [hpc] at hp
  obtain ⟨hp, hv, hn⟩ := hp
  obtain ⟨hpos, -⟩ := h.holder e p hp
  obtain ⟨hcopy, ht⟩ := h.coherent e (h.ref_pos hpos) hv
  rw [hcopy] at ht
  obtain ⟨fs, ip, hret, hown, hu, hnamed, hall⟩ := h.own.release (h.range e (h.ref_pos hpos)) ht
  refine ⟨{ s with
    fs := fs.iupdate (s.entry e).inum { ip with type := 0 }
    entry := Function.update s.entry e
      { s.entry e with copy := { ip with type := 0 }, valid := false } }, _, ?_, ?_, rfl, rfl,
    setEntry_same rfl rfl, hu, rfl, hnamed, hall⟩
  · unfold Icache.free
    rw [hcopy, hret]
    rfl
  · refine h.locked (p := p) (e := e)
      (x := { s.entry e with copy := { ip with type := 0 }, valid := false }) (.unlocking e)
      ⟨hpos, hown, hu.sb, rfl, rfl, hu.others, nofun, not_other (Or.inr hp), not_other (Or.inr hp),
        fun _ => Or.inr (Or.inr rfl), by simp [hpc], ?_⟩
    unfold AtPc
    dsimp only
    rw [update_self]
    exact hp

theorem Ok.putUnlock (h : s.Ok) (hpc : s.pc p = .unlocking e) :
    ((s.setEntry e { s.entry e with holder := none }).setPc p (.dropping e)).Ok := by
  have hp := h.atPc p
  rw [hpc] at hp
  refine h.relock (x := { s.entry e with holder := none }) (.dropping e) (h.holder e p hp).1 (Or.inr hp)
    rfl (Or.inl rfl) nofun (by simp [hpc]) ⟨(h.holder e p hp).1, ?_⟩
  dsimp only
  rw [update_self]
  nofun

theorem Ok.dropped (h : s.Ok) (hpc : s.pc p = .dropping e) (hfs : t.fs = s.fs)
    (hself : t.entry e = { s.entry e with ref := (s.entry e).ref - 1 })
    (hentry : ∀ e', e' ≠ e → t.entry e' = s.entry e')
    (hheld : ∀ q e', q ≠ p ∨ e' ≠ e → t.held q e' = s.held q e')
    (hsum : ∀ e', (∑ q, t.held q e') + (if e' = e then s.held p e else 0) =
      (∑ q, s.held q e') + if e' = e then s.held p e - 1 else 0)
    (hpc' : t.pc = Function.update s.pc p .idle) : t.Ok := by
  have hp := h.atPc p
  rw [hpc] at hp
  obtain ⟨hpos, hne⟩ := hp
  have hsame : ∀ e', t.entry e' = { s.entry e' with ref := (t.entry e').ref } := by
    intro e'
    by_cases he : e' = e
    · subst he
      rw [hself]
    · rw [hentry e' he]
  refine h.reheld hfs hsame (fun e' => ?_) (fun e' => ?_) (fun e' q hq => ?_) fun q => ?_
  · have hsum := hsum e'
    have hcount := h.counts e'
    by_cases he : e' = e
    · subst he
      rw [if_pos rfl, if_pos rfl] at hsum
      rw [hself]
      dsimp only
      omega
    · rw [if_neg he, if_neg he] at hsum
      rw [hentry e' he]
      omega
  · by_cases he : e' = e
    · subst he
      rw [hself]
      exact Nat.sub_le ..
    · rw [hentry e' he]
  · obtain ⟨hold, hwhy⟩ := h.holder e' q hq
    by_cases hqp : q = p
    · subst hqp
      have he : e' ≠ e := by
        rintro rfl
        exact hne hq
      rw [hheld q e' (Or.inr he)]
      exact ⟨hold, Or.inr (hwhy.resolve_right (by simp [hpc]))⟩
    · rw [hheld q e' (Or.inl hqp), hpc', update_of_ne hqp]
      exact ⟨hold, Or.inl rfl⟩
  · rw [hpc']
    by_cases hqp : q = p
    · subst hqp
      rw [update_self]
      trivial
    rw [update_of_ne hqp]
    refine (h.atPc q).congr (by rw [hfs]) (fun e' hq => ?_) fun e' hold hq => ?_
    · rw [hsame e']
      exact ⟨hq, rfl, rfl⟩
    · rw [hheld q e' (Or.inl hqp), hsame e']
      exact ⟨hold, hq⟩

theorem Ok.putDrop (h : s.Ok) (hpc : s.pc p = .dropping e) :
    (((s.setEntry e { s.entry e with ref := (s.entry e).ref - 1 }).setHeld p e
      (s.held p e - 1)).setPc p .idle).Ok :=
  h.dropped hpc rfl (entry_self s e _) (fun _ he => entry_ne s _ he)
    (fun _ _ hq => held_ne (s.setEntry e _) _ hq) (sum_setHeld (s.setEntry e _) p e _) rfl

/-- A process gives a reference away, and keeps one to an entry it has locked. -/
theorem Ok.pass (h : s.Ok) (hpq : p ≠ q) (hpc : s.pc p = .idle)
    (hkeep : (if (s.entry e).holder = some p then 1 else 0) < s.held p e) :
    ((s.setHeld p e (s.held p e - 1)).setHeld q e (s.held q e + 1)).Ok := by
  have hother : ∀ r e', (r ≠ p ∨ e' ≠ e) → s.held r e' ≤
      ((s.setHeld p e (s.held p e - 1)).setHeld q e (s.held q e + 1)).held r e' := by
    intro r e' hr
    by_cases hrq : r = q ∧ e' = e
    · obtain ⟨rfl, rfl⟩ := hrq
      rw [held_self]
      omega
    · rw [held_ne _ _ (not_and_or.mp hrq), held_ne _ _ hr]
  have hself : ((s.setHeld p e (s.held p e - 1)).setHeld q e (s.held q e + 1)).held p e =
      s.held p e - 1 := by
    rw [held_ne _ _ (Or.inl hpq), held_self]
  refine h.reheld rfl (fun _ => rfl) (fun e' => ?_) (fun _ => le_rfl) (fun e' r hr => ?_) fun r => ?_
  · have h1 := sum_setHeld s p e (s.held p e - 1) e'
    have h2 := sum_setHeld (s.setHeld p e (s.held p e - 1)) q e (s.held q e + 1) e'
    rw [held_ne _ _ (Or.inl (Ne.symm hpq))] at h2
    have hcount := h.counts e'
    change (s.entry e').ref = _
    by_cases he : e' = e
    · subst he
      rw [if_pos rfl, if_pos rfl] at h1 h2
      omega
    · rw [if_neg he, if_neg he] at h1 h2
      omega
  · obtain ⟨hold, -⟩ := h.holder e' r hr
    refine ⟨?_, Or.inl rfl⟩
    by_cases hre : r = p ∧ e' = e
    · obtain ⟨rfl, rfl⟩ := hre
      rw [if_pos hr] at hkeep
      rw [hself]
      omega
    · exact hold.trans_le (hother r e' (not_and_or.mp hre))
  · change AtPc _ r (s.pc r)
    by_cases hrp : r = p
    · subst hrp
      rw [hpc]
      trivial
    · exact (h.atPc r).congr rfl (fun e' hr => ⟨hr, rfl, rfl⟩) fun e' hold hr =>
        ⟨hold.trans_le (hother r e' (Or.inl hrp)), hr⟩

end

end Icache
end Xv6
