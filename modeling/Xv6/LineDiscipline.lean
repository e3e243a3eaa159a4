import Xv6.Tty

/-!
The console keeps its line discipline: the buffer holds, up to the write index, what is
complete and no read has taken, and behind it the line that can still be edited.
-/

namespace Xv6.Console

open Function

/-- The buffer holds `waiting` up to the write index and `line` behind it. -/
structure Shows (i : Input) (waiting line : List UInt8) : Prop where
  holds : Lib.Cyclic.Holds 128 0x100000000 ⟨i.buf, i.r, i.e⟩ (waiting ++ line)
  w : i.w = (i.r + waiting.length) % 0x100000000
  line : newline ∉ line

/-- A call with `n` bytes to go has stored `dst`. -/
structure Part (target n : Nat) (dst : List UInt8) : Prop where
  length : dst.length + n = target
  noLine : newline ∉ dst
  noEof : ctrlD ∉ dst

section
variable {i i' : Input} {waiting line dst : List UInt8} {c : UInt8} {target n : Nat}

section
variable (h : Shows i waiting line)
include h

theorem Shows.ready : Lib.Cyclic.Holds 128 0x100000000 ⟨i.buf, i.r, i.w⟩ waiting := by
  have hleft := h.holds.left
  rwa [← h.w] at hleft

theorem Shows.edit : Lib.Cyclic.Holds 128 0x100000000 ⟨i.buf, i.w, i.e⟩ line := by
  have hright := h.holds.right
  rwa [← h.w] at hright

theorem Shows.empty_iff : i.r = i.w ↔ waiting = [] :=
  decide_eq_true_iff.symm.trans (h.ready.empty_iff (by decide))

theorem Shows.uncommitted_iff : i.e = i.w ↔ line = [] :=
  eq_comm.trans (decide_eq_true_iff.symm.trans (h.edit.empty_iff (by decide)))

end

theorem Shows.back (h : Shows i waiting (line ++ [c])) : Shows i.back waiting line := by
  have hholds := h.holds
  rw [← List.append_assoc] at hholds
  have hretreat := hholds.retreat
  rw [Lib.Cyclic.retreat] at hretreat
  exact ⟨hretreat, by rw [Input.back, h.w], fun hin => h.line (List.mem_append_left _ hin)⟩

section
variable (h : Shows i waiting line)
include h

theorem Shows.put (hroom : (waiting ++ line).length < 128)
    (hc : c ≠ newline) : Shows (i.put c) waiting (line ++ [c]) := by
  refine ⟨?_, h.w, ?_⟩
  · rw [← List.append_assoc]
    exact h.holds.store (by decide) hroom
  · rw [List.mem_append, List.mem_singleton]
    rintro (hin | heq)
    · exact h.line hin
    · exact hc heq.symm

theorem Shows.commit (hroom : (waiting ++ line).length < 128) :
    Shows { i.put c with w := (i.put c).e } (waiting ++ (line ++ [c])) [] := by
  have hstore := h.holds.store (x := c) (by decide) hroom
  refine ⟨?_, ?_, List.not_mem_nil⟩
  · rw [List.append_nil, ← List.append_assoc]
    exact hstore
  · rw [← List.append_assoc]
    exact hstore.tail

theorem Shows.killLoop : Shows (Input.killLoop line.length i) waiting [] := by
  induction line using List.reverseRecOn generalizing i with
  | nil => exact h
  | append_singleton line c ih =>
    have hlast : i.buf ((i.e + 0x100000000 - 1) % 0x100000000 % 128) = c := h.edit.last
    have hne : i.e ≠ i.w := fun heq => by simpa using h.uncommitted_iff.mp heq
    have hc : c ≠ newline := fun heq => h.line (by simp [heq])
    rw [List.length_append, List.length_singleton, Input.killLoop, hlast, if_pos ⟨hne, hc⟩]
    exact ih h.back

theorem Shows.killLine : Shows i.killLine waiting [] := by
  have hdist := h.edit.distance (by decide)
  unfold Input.killLine
  rw [hdist]
  exact h.killLoop

end

theorem Shows.take (h : Shows i (c :: waiting) line) :
    i.buf (i.r % 128) = c ∧ Shows { i with r := (i.r + 1) % 0x100000000 } waiting line := by
  refine ⟨h.holds.first, h.holds.advance, ?_, h.line⟩
  dsimp only
  rw [h.w, Nat.mod_add_mod, List.length_cons, Nat.add_assoc, Nat.add_comm 1]

/-- What a call has done when it gives up the lock: it has taken `ate`, and `rest` is left. -/
def Exit.Takes (target : Nat) (dst ate rest : List UInt8) : Exit → Prop
  | sleeps n dst' => dst' = dst ++ ate ∧ Part target n dst' ∧ rest = []
  | returns res => Call.Ok ⟨target, dst ++ ate, res, rest.head?⟩

theorem Part.returned (h : Part target 0 dst) (left : Option UInt8) :
    Call.Ok ⟨target, dst, .returned target dst, left⟩ := by
  have hlen : target = dst.length := h.length.symm
  refine ⟨hlen, Nat.le_refl _, fun hin => h.noLine (List.dropLast_subset _ hin), .inr ⟨rfl, h.noEof, .inl rfl⟩⟩

section
variable (h : Part target (n + 1) dst)
include h

theorem Part.store (hd : c ≠ ctrlD) (hn : c ≠ newline) : Part target n (dst ++ [c]) := by
  refine ⟨?_, ?_, ?_⟩
  · have := h.length
    rw [List.length_append, List.length_singleton]
    omega
  · simp [h.noLine, hn.symm]
  · simp [h.noEof, hd.symm]

theorem Part.lineEnd (left : Option UInt8) :
    Call.Ok ⟨target, dst ++ [newline], .returned (target - n) (dst ++ [newline]), left⟩ := by
  have hlen := h.length
  have hnot : ctrlD ∉ dst ++ [newline] := by
    simp only [List.mem_append, List.mem_singleton, not_or]
    exact ⟨h.noEof, by decide⟩
  refine ⟨?_, Nat.sub_le .., ?_, .inr ⟨rfl, hnot, .inr (.inl (by simp))⟩⟩
  · rw [List.length_append, List.length_singleton]
    omega
  · rw [List.dropLast_concat]
    exact h.noLine

theorem Part.leavesEof (hlt : n + 1 < target) :
    Call.Ok ⟨target, dst, .returned (target - (n + 1)) dst, some ctrlD⟩ := by
  have hlen := h.length
  have hne : dst ≠ [] := by
    rintro rfl
    rw [List.length_nil] at hlen
    omega
  exact ⟨by omega, Nat.sub_le .., fun hin => h.noLine (List.dropLast_subset _ hin),
    .inr ⟨rfl, h.noEof, .inr (.inr ⟨hne, rfl⟩)⟩⟩

theorem Part.takesEof (hge : ¬n + 1 < target) (left : Option UInt8) :
    Call.Ok ⟨target, dst ++ [ctrlD], .returned (target - (n + 1)) dst, left⟩ := by
  have hlen := h.length
  obtain rfl : dst = [] := List.length_eq_zero_iff.mp (by omega)
  have hpos : 0 < target := by omega
  exact ⟨by omega, Nat.sub_le .., List.not_mem_nil, .inl ⟨rfl, rfl, hpos⟩⟩

end

theorem Shows.read (h : Shows i waiting line) (hpart : Part target n dst) (killed : Bool) :
    ∃ ate rest, waiting = ate ++ rest ∧ Shows (i.read killed target n dst).2 rest line ∧
      (i.read killed target n dst).2 = { i with r := (i.r + ate.length) % 0x100000000 } ∧
      (i.read killed target n dst).1.Takes target dst ate rest := by
  have hr : i.r % 0x100000000 = i.r := Nat.mod_eq_of_lt h.holds.head
  induction n generalizing dst i waiting with
  | zero =>
    refine ⟨[], waiting, rfl, h, ?_, ?_⟩
    · rw [List.length_nil, Nat.add_zero, hr]
      rfl
    · rw [Input.read, Exit.Takes, List.append_nil]
      exact hpart.returned _
  | succ n ih =>
    rw [Input.read]
    have hsame : i = { i with r := (i.r + ([] : List UInt8).length) % 0x100000000 } := by
      rw [List.length_nil, Nat.add_zero, hr]
    cases waiting with
    | nil =>
      rw [if_pos (h.empty_iff.mpr rfl)]
      cases killed with
      | true =>
        refine ⟨[], [], rfl, h, hsame, ?_⟩
        change ctrlD ∉ dst ++ []
        rw [List.append_nil]
        exact hpart.noEof
      | false => exact ⟨[], [], rfl, h, hsame, (List.append_nil dst).symm, hpart, rfl⟩
    | cons c waiting =>
      have hne : i.r ≠ i.w := fun heq => List.cons_ne_nil _ _ (h.empty_iff.mp heq)
      obtain ⟨hc, hnext⟩ := h.take
      rw [if_neg hne]
      dsimp only
      rw [hc]
      by_cases hd : c = ctrlD
      · rw [if_pos hd]
        by_cases hlt : n + 1 < target
        · rw [if_pos hlt]
          have hback : ((i.r + 1) % 0x100000000 + 0x100000000 - 1) % 0x100000000 = i.r := by
            rw [Lib.Cyclic.tail_pred (n := 0) (by decide), Nat.add_zero, hr]
          rw [hback]
          refine ⟨[], c :: waiting, rfl, h, hsame, ?_⟩
          rw [Exit.Takes, List.append_nil, List.head?_cons, hd]
          exact hpart.leavesEof hlt
        · rw [if_neg hlt]
          refine ⟨[c], waiting, rfl, hnext, rfl, ?_⟩
          rw [Exit.Takes, hd]
          exact hpart.takesEof hlt _
      · rw [if_neg hd]
        by_cases hn : c = newline
        · rw [if_pos hn]
          refine ⟨[c], waiting, rfl, hnext, rfl, ?_⟩
          rw [Exit.Takes, hn]
          exact hpart.lineEnd _
        · rw [if_neg hn]
          obtain ⟨ate, rest, hsplit, hshows, hread, htakes⟩ := ih hnext (hpart.store hd hn) (Nat.mod_mod _ _)
          refine ⟨c :: ate, rest, by rw [hsplit, List.cons_append], hshows, ?_, ?_⟩
          · rw [hread, Nat.mod_add_mod, List.length_cons, Nat.add_assoc, Nat.add_comm 1]
          · unfold Exit.Takes at htakes ⊢
            rwa [List.append_cons dst c ate]

end

section
variable {i : Input} {t : Tty} {s s' : Sys} {c : UInt8} {p : Nat}

def Under : Pc → Option (Nat × List UInt8) → Prop
  | .out, h => h = none
  | .asleep target n dst, h | .awake target n dst, h => h = some (target, dst) ∧ Part target n dst

theorem Under.woken {pc : Pc} {h : Option (Nat × List UInt8)} (hu : Under pc h) : Under pc.woken h := by
  cases pc with
  | out | asleep _ _ _ | awake _ _ _ => exact hu

/-- The state of the console, and what its users have seen. -/
structure Sound (s : Sys) (t : Tty) : Prop where
  shows : Shows s.input t.waiting t.line
  eaten : t.eaten <+: t.done
  under : ∀ p, Under (s.pc p) (t.hand p)
  finished : ∀ c ∈ t.finished, c.Ok
  asleep : ∀ p target n dst, s.pc p = .asleep target n dst → t.waiting = []

/-- One turn of the loop of `consoleintr`. Without a `wakeup` it adds nothing for readers. -/
theorem Shows.key (h : Shows i t.waiting t.line) (hle : t.eaten <+: t.done) (c : UInt8) :
    Shows (i.key c).2 (t.type c).waiting (t.type c).line ∧
      ((i.key c).1 = false → (t.type c).waiting = t.waiting) := by
  have hdist : (i.e + 0x100000000 - i.r) % 0x100000000 = (t.waiting ++ t.line).length :=
    h.holds.distance (by decide)
  have hle128 : (t.waiting ++ t.line).length ≤ 128 := h.holds.length
  unfold Input.key Tty.type
  by_cases hp : c = ctrlP
  · rw [if_pos hp, if_pos (.inl hp)]
    exact ⟨h, fun _ => rfl⟩
  rw [if_neg hp]
  by_cases h0 : c = 0
  · have hu : ¬c = ctrlU := by
      rw [h0]
      decide
    have hb : ¬(c = ctrlH ∨ c = delete) := by
      rw [h0]
      decide
    have hnul : ¬(c ≠ 0 ∧ (i.e + 0x100000000 - i.r) % 0x100000000 < 128) := fun hc => hc.1 h0
    rw [if_neg hu, if_neg hb, if_neg hnul, if_pos (.inr h0)]
    exact ⟨h, fun _ => rfl⟩
  rw [if_neg (not_or.mpr ⟨hp, h0⟩)]
  by_cases hu : c = ctrlU
  · rw [if_pos hu, if_pos hu]
    exact ⟨h.killLine, fun _ => rfl⟩
  rw [if_neg hu, if_neg hu]
  by_cases hb : c = ctrlH ∨ c = delete
  · rw [if_pos hb, if_pos hb]
    refine ⟨?_, fun _ => rfl⟩
    cases hline : t.line using List.reverseRecOn with
    | nil =>
      rw [if_neg (not_not.mpr (h.uncommitted_iff.mpr hline))]
      rw [hline] at h
      exact h
    | append_singleton line x =>
      have hne : i.e ≠ i.w := fun heq => by simp [h.uncommitted_iff.mp heq] at hline
      rw [if_pos hne]
      dsimp only
      rw [List.dropLast_concat]
      exact (hline ▸ h).back
  rw [if_neg hb, if_neg hb]
  by_cases hfull : (t.waiting ++ t.line).length = INPUT_BUF
  · rw [if_pos hfull, if_neg]
    · exact ⟨h, fun _ => rfl⟩
    · rw [hdist, hfull]
      exact fun hc => Nat.lt_irrefl _ hc.2
  have hroom : (t.waiting ++ t.line).length < 128 := Nat.lt_of_le_of_ne hle128 hfull
  rw [if_neg hfull, if_pos ⟨h0, hdist ▸ hroom⟩]
  dsimp only
  generalize (if c = carriageReturn then newline else c) = c'
  have hlast : (i.put c').e = ((i.put c').r + 128) % 0x100000000 ↔
      (t.waiting ++ (t.line ++ [c'])).length = INPUT_BUF := by
    rw [← List.append_assoc, ← (h.holds.store (x := c') (by decide) hroom).full_iff (by decide)]
    exact decide_eq_true_iff.symm
  by_cases hend : c' = newline ∨ c' = ctrlD ∨ (t.waiting ++ (t.line ++ [c'])).length = INPUT_BUF
  · rw [if_pos hend, if_pos (by rwa [hlast])]
    refine ⟨?_, nofun⟩
    rw [Tty.waiting_commit hle]
    exact h.commit hroom
  · rw [if_neg hend, if_neg (by rwa [hlast])]
    exact ⟨h.put hroom (fun heq => hend (.inl heq)), fun _ => rfl⟩

theorem Sound.key (h : Sound s t) (c : UInt8) : Sound (s.key c) (t.type c) := by
  obtain ⟨hshows, hquiet⟩ := h.shows.key h.eaten c
  obtain ⟨heaten, hhand, hfinished, hdone⟩ := t.type_frame c
  refine ⟨hshows, ?_, fun p => ?_, ?_, fun p target n dst hp => ?_⟩
  · rw [heaten]
    exact h.eaten.trans hdone
  · rw [hhand]
    simp only [Sys.key]
    split
    · exact (h.under p).woken
    · exact h.under p
  · rw [hfinished]
    exact h.finished
  · simp only [Sys.key] at hp
    split at hp
    · cases hpc : s.pc p <;> simp [hpc, Pc.woken] at hp
    · rw [hquiet (Bool.eq_false_of_not_eq_true ‹_›)]
      exact h.asleep p target n dst hp

theorem Sound.consoleintr (h : Sound s t) (cs : List UInt8) : Sound (s.consoleintr cs) (cs.foldl Tty.type t) := by
  induction cs generalizing s t with
  | nil => exact h
  | cons c cs ih => exact ih (h.key c)

theorem Sound.consoleread {target n : Nat} {dst : List UInt8} (h : Sound s t) (hpart : Part target n dst)
    (p : Nat) : Sound (s.consoleread p target n dst).2 (t.take p target dst (s.consoleread p target n dst).1) := by
  obtain ⟨ate, rest, hsplit, hshows, hinput, htakes⟩ := h.shows.read hpart (s.killed p)
  unfold Sys.consoleread
  generalize s.input.read (s.killed p) target n dst = x at hshows hinput htakes
  obtain ⟨x, i⟩ := x
  dsimp only at hshows hinput htakes ⊢
  have hate : s.input.window s.input.r i.r = ate := by
    have hleft := h.shows.ready
    rw [hsplit] at hleft
    rw [hinput]
    exact hleft.left.toList (by decide)
  have hdone : t.done = t.eaten ++ ate ++ rest := by
    rw [Tty.done_eq h.eaten, hsplit, List.append_assoc]
  have hrest : t.done.drop (t.eaten ++ ate).length = rest := by
    rw [hdone, List.drop_left]
  have heaten : t.eaten ++ ate <+: t.done := ⟨rest, hdone.symm⟩
  have hasleep : ∀ q target n dst, s.pc q = .asleep target n dst → rest = [] := fun q _ _ _ hq =>
    (List.append_eq_nil_iff.mp (hsplit.symm.trans (h.asleep q _ _ _ hq))).2
  rw [hate]
  cases x with
  | sleeps n' dst' =>
    obtain ⟨rfl, hpart', hnil⟩ := htakes
    refine ⟨?_, heaten, fun q => ?_, h.finished, fun q target' n'' dst'' hq => ?_⟩
    · change Shows i (t.done.drop (t.eaten ++ ate).length) t.line
      rwa [hrest]
    · change Under (update s.pc p _ q) (update t.hand p _ q)
      by_cases hqp : q = p
      · rw [hqp, update_self, update_self]
        exact ⟨rfl, hpart'⟩
      · rw [update_of_ne hqp, update_of_ne hqp]
        exact h.under q
    · change t.done.drop (t.eaten ++ ate).length = []
      rw [hrest, hnil]
  | returns res =>
    refine ⟨?_, heaten, fun q => ?_, fun call hcall => ?_, fun q target' n'' dst'' hq => ?_⟩
    · change Shows i (t.done.drop (t.eaten ++ ate).length) t.line
      rwa [hrest]
    · change Under (update s.pc p _ q) (update t.hand p _ q)
      by_cases hqp : q = p
      · rw [hqp, update_self, update_self]
        rfl
      · rw [update_of_ne hqp, update_of_ne hqp]
        exact h.under q
    · obtain hcall | hcall := List.mem_append.mp hcall
      · exact h.finished call hcall
      · rw [List.mem_singleton.mp hcall]
        change Call.Ok ⟨target, dst ++ ate, res, (t.done.drop (t.eaten ++ ate).length).head?⟩
        rw [hrest]
        exact htakes
    · change t.done.drop (t.eaten ++ ate).length = []
      change update s.pc p _ q = _ at hq
      rw [hrest]
      by_cases hqp : q = p
      · rw [hqp, update_self] at hq
        cases hq
      · rw [update_of_ne hqp] at hq
        exact hasleep q _ _ _ hq

theorem Sound.step {l : Act × Event} (h : Sound s t) (hstep : Step s l s') : Sound s' (t.next l) := by
  obtain ⟨a, e⟩ := l
  unfold Step Sys.step at hstep
  cases a with
  | intr cs =>
    cases hstep
    exact h.consoleintr cs
  | read p n =>
    dsimp only at hstep
    split at hstep
    · have hpart : Part n n [] := ⟨Nat.zero_add n, List.not_mem_nil, List.not_mem_nil⟩
      have hread := h.consoleread hpart p
      rw [Option.some.inj hstep] at hread
      exact hread
    · cases hstep
  | resume p =>
    dsimp only at hstep
    split at hstep
    · rename_i target n dst hpc
      obtain ⟨hhand, hpart⟩ : t.hand p = some (target, dst) ∧ Part target n dst := by
        have hu := h.under p
        rwa [hpc] at hu
      have hread := h.consoleread hpart p
      rw [Option.some.inj hstep] at hread
      unfold Tty.next
      dsimp only
      rw [hhand]
      exact hread
    · cases hstep
  | kill p =>
    cases hstep
    refine ⟨h.shows, h.eaten, fun q => ?_, h.finished, fun q target n dst hq => ?_⟩
    · change Under (update s.pc p _ q) _
      by_cases hqp : q = p
      · rw [hqp, update_self]
        exact (h.under p).woken
      · rw [update_of_ne hqp]
        exact h.under q
    · change update s.pc p _ q = _ at hq
      by_cases hqp : q = p
      · rw [hqp, update_self] at hq
        cases hpc : s.pc p <;> simp [hpc, Pc.woken] at hq
      · rw [update_of_ne hqp] at hq
        exact h.asleep q _ _ _ hq

end

section
variable {t : Tty} {s s' : Sys} {ls : List (Act × Event)}

theorem Sound.fresh (buf : Nat → UInt8) : Sound (.fresh buf) .empty :=
  ⟨⟨Lib.Cyclic.Holds.nil (Nat.zero_lt_succ _) rfl, rfl, List.not_mem_nil⟩, List.prefix_rfl, fun _ => rfl, nofun, nofun⟩

theorem Sound.run {buf : Nat → UInt8} (h : Lib.Run Step (.fresh buf) ls s) : Sound s (Tty.after ls) := by
  induction h with
  | refl => exact .fresh buf
  | snoc _ hstep ih =>
    rw [Tty.after_snoc]
    exact ih.step hstep

theorem Sound.grows {l : Act × Event} (h : Sound s t) (hstep : Step s l s') :
    (t.next l).eaten = t.eaten ++ l.2.ate ∧ t.done <+: (t.next l).done := by
  obtain ⟨a, e⟩ := l
  unfold Step Sys.step at hstep
  cases a with
  | intr cs =>
    cases hstep
    obtain ⟨heaten, hdone⟩ := t.typed_frame cs
    exact ⟨by rw [List.append_nil]; exact heaten, hdone⟩
  | read p n =>
    obtain ⟨heaten, hdone⟩ := t.take_frame p n [] e
    exact ⟨heaten, [], (List.append_nil _).trans hdone.symm⟩
  | resume p =>
    dsimp only at hstep
    split at hstep
    · rename_i target n dst hpc
      have hu := h.under p
      rw [hpc] at hu
      obtain ⟨heaten, hdone⟩ := t.take_frame p target dst e
      unfold Tty.next
      dsimp only
      rw [hu.1]
      exact ⟨heaten, [], (List.append_nil _).trans hdone.symm⟩
    · cases hstep
  | kill p =>
    cases hstep
    exact ⟨(List.append_nil _).symm, List.prefix_rfl⟩

theorem Shows.window {i : Input} {waiting line : List UInt8} (h : Shows i waiting line) :
    i.window i.r i.w = waiting ∧ i.window i.w i.e = line :=
  ⟨h.ready.toList (by decide), h.edit.toList (by decide)⟩

/-- The line discipline after the steps `ls`. -/
structure Disciplined (ls : List (Act × Event)) (s : Sys) : Prop where
  ready : (s.input.w + 0x100000000 - s.input.r) % 0x100000000 ≤ (s.input.e + 0x100000000 - s.input.r) % 0x100000000
  capacity : (s.input.e + 0x100000000 - s.input.r) % 0x100000000 ≤ INPUT_BUF
  /-- reads have taken what was typed, in order, and the rest is in the buffer -/
  committed : (Tty.after ls).done = (Tty.after ls).eaten ++ s.input.window s.input.r s.input.w
  editable : s.input.window s.input.w s.input.e = (Tty.after ls).line
  calls : ∀ c ∈ (Tty.after ls).finished, c.Ok
  order : Successive ls → (Tty.after ls).InOrder
  /-- what is ready is read as it is, or stays -/
  kept : ∀ l s', Step s l s' →
    s.input.window s.input.r s.input.w <+: l.2.ate ++ s'.input.window s'.input.r s'.input.w
  asleep : ∀ p target n dst, s.pc p = .asleep target n dst → s.input.r = s.input.w

/-- The line discipline holds in every state that interrupts, readers and kills lead to. -/
theorem line_discipline {buf : Nat → UInt8} (h : Lib.Run Step (.fresh buf) ls s) : Disciplined ls s := by
  have hsound := Sound.run h
  obtain ⟨hready, hline⟩ := hsound.shows.window
  have hrw := hsound.shows.ready.distance (by decide)
  have hre := hsound.shows.holds.distance (by decide)
  have hdone := Tty.done_eq hsound.eaten
  refine ⟨?_, ?_, ?_, hline, hsound.finished, Successive.inOrder, fun l s' hstep => ?_, fun p target n dst hp => ?_⟩
  · rw [hrw, hre, List.length_append]
    exact Nat.le_add_right ..
  · rw [hre]
    exact hsound.shows.holds.length
  · rw [hready]
    exact hdone
  · have hsound' := hsound.step hstep
    obtain ⟨heaten, hgrows⟩ := hsound.grows hstep
    rw [Tty.done_eq hsound'.eaten, heaten, hdone, List.append_assoc] at hgrows
    rw [hready, hsound'.shows.window.1]
    exact (List.prefix_append_right_inj _).mp hgrows
  · exact hsound.shows.empty_iff.mpr (hsound.asleep p target n dst hp)

/-- A line is edited and read in two calls; the `^D` behind it is one empty read. -/
theorem line_discipline_two_reads : ∃ ls s, Lib.Run Step (.fresh fun _ => 0) ls s ∧
    (Tty.after ls).finished.map Call.taken = [[0x61], [0x63, newline], [ctrlD]] ∧ Disciplined ls s := by
  obtain ⟨ls, s, hrun, hp⟩ := Lib.Run.exists_of_trace (f := Sys.step) (s := .fresh fun _ => 0)
    (p := fun r => decide ((Tty.after r.1).finished.map Call.taken = [[0x61], [0x63, newline], [ctrlD]]))
    [.intr [0x61, 0x62, ctrlH, 0x63], .intr [carriageReturn, ctrlD], .read 1 1, .read 1 5, .read 1 5] (by decide)
  exact ⟨ls, s, hrun, of_decide_eq_true hp, line_discipline hrun⟩

/-- A character 0 is dropped by an empty buffer. The characters that a process has taken are
lost when it is killed before the line is complete. -/
theorem typed_not_returned :
    ((Sys.fresh fun _ => 0).consoleintr [0] = .fresh fun _ => 0) ∧
    ∃ ls s, Lib.Run Step (.fresh fun _ => 0) ls s ∧
      (Tty.after ls).done = List.replicate 128 0x61 ∧ s.input.r = s.input.w ∧
      (Tty.after ls).finished.map Call.result = [.failed] := by
  refine ⟨rfl, ?_⟩
  obtain ⟨ls, s, hrun, hp⟩ := Lib.Run.exists_of_trace (f := Sys.step) (s := .fresh fun _ => 0)
    (p := fun r => decide ((Tty.after r.1).done = List.replicate 128 0x61 ∧ r.2.input.r = r.2.input.w ∧
      (Tty.after r.1).finished.map Call.result = [.failed]))
    [.intr (List.replicate 128 0x61), .read 1 200, .kill 1, .resume 1] (by decide +kernel)
  exact ⟨ls, s, hrun, of_decide_eq_true hp⟩

end

end Xv6.Console
