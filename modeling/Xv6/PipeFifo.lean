import Xv6.Pipe
import Xv6.Lib.Run

/-!
A pipe is a queue. Whatever the order in which readers and writers get the lock, the bytes
that calls of `piperead` have returned, those a reader has in hand and those in the buffer
are together the bytes that calls of `pipewrite` have stored, in order.
-/

namespace Xv6

open Function

def PipeAt.Entry : PipeAt → Prop
  | .write _ | .read _ | .close _ => True
  | _ => False

def PipeAt.inHand : PipeAt → List UInt8
  | .copy _ got | .gave got | .finish got => got
  | _ => []

def PipePc.inHand : PipePc → List UInt8
  | .holds c => c.inHand
  | _ => []

theorem PipeAt.Entry.inHand {c : PipeAt} (h : c.Entry) : c.inHand = [] := by
  cases c <;> first | rfl | exact h.elim

namespace PipeSys

/-- The lock is held by the one process that is at a control point under it. -/
structure Locked (s : PipeSys) : Prop where
  holder : ∀ p c, s.pc p = .holds c → s.lock = some p
  held : ∀ p, s.lock = some p → ∃ c, s.pc p = .holds c
  entry : ∀ p c, s.pc p = .acquire c → c.Entry
  asleep : ∀ p chan c, s.pc p = .sleeping chan c → c.Entry

variable {s s' : PipeSys} {p q : Fin NPROC} {c : PipeAt} {chan : PipeChan}

theorem woken_holds {pc : PipePc} : pc.woken chan = .holds c ↔ pc = .holds c := by
  cases pc with
  | sleeping ch c' =>
    simp only [PipePc.woken]
    split <;> simp
  | idle | acquire _ | holds _ => rfl

theorem woken_acquire {pc : PipePc} :
    pc.woken chan = .acquire c ↔ pc = .acquire c ∨ pc = .sleeping chan c := by
  cases pc with
  | sleeping ch c' =>
    simp only [PipePc.woken]
    split <;> simp_all
  | idle | acquire _ | holds _ => simp [PipePc.woken]

theorem woken_sleeping {pc : PipePc} {ch : PipeChan} :
    pc.woken chan = .sleeping ch c ↔ pc = .sleeping ch c ∧ ch ≠ chan := by
  cases pc with
  | sleeping ch' c' =>
    simp only [PipePc.woken]
    split
    · rename_i h
      subst h
      simp only [reduceCtorEq, PipePc.sleeping.injEq, false_iff, not_and]
      rintro ⟨rfl, -⟩ hne
      exact hne rfl
    · rename_i h
      simp only [PipePc.sleeping.injEq]
      constructor
      · rintro ⟨rfl, rfl⟩
        exact ⟨⟨rfl, rfl⟩, h⟩
      · exact And.left
  | idle | acquire _ | holds _ => simp [PipePc.woken]

section
variable (h : s.Locked)
include h

theorem Locked.congr (s' : PipeSys) (hl : s'.lock = s.lock) (hpc : s'.pc = s.pc) : s'.Locked := by
  obtain ⟨h1, h2, h3, h4⟩ := h
  exact ⟨by rw [hl, hpc]; exact h1, by rw [hl, hpc]; exact h2, by rw [hpc]; exact h3,
    by rw [hpc]; exact h4⟩

theorem Locked.wakeup (chan : PipeChan) : (s.wakeup chan).Locked := by
  refine ⟨fun q d hq => h.holder q d (woken_holds.mp hq), fun q hq => ?_, fun q d hq => ?_,
    fun q ch d hq => h.asleep q ch d (woken_sleeping.mp hq).1⟩
  · obtain ⟨d, hd⟩ := h.held q hq
    exact ⟨d, woken_holds.mpr hd⟩
  · rcases woken_acquire.mp hq with hq | hq
    · exact h.entry q d hq
    · exact h.asleep q chan d hq

/-- Process `p` moves to `pc`, and may take or give up the lock. -/
theorem Locked.moved (pc : PipePc) (hpc : s'.pc = update s.pc p pc)
    (hself : ∀ d, pc = .holds d → s'.lock = some p)
    (hother : ∀ q d, q ≠ p → s.pc q = .holds d → s'.lock = some q)
    (hheld : ∀ q, s'.lock = some q → if q = p then ∃ d, pc = .holds d else s.lock = some q)
    (hentry : ∀ d, pc = .acquire d → d.Entry)
    (hasleep : ∀ ch d, pc = .sleeping ch d → d.Entry) : s'.Locked := by
  have hp : s'.pc p = pc := by rw [hpc, update_self]
  have hq : ∀ q, q ≠ p → s'.pc q = s.pc q := fun q hqp => by rw [hpc, update_of_ne hqp]
  refine ⟨fun q d hd => ?_, fun q hl => ?_, fun q d hd => ?_, fun q ch d hd => ?_⟩
  · by_cases hqp : q = p
    · subst hqp
      exact hself d (hp.symm.trans hd)
    · exact hother q d hqp ((hq q hqp).symm.trans hd)
  · have hwhy := hheld q hl
    by_cases hqp : q = p
    · subst hqp
      rw [if_pos rfl] at hwhy
      rw [hp]
      exact hwhy
    · rw [if_neg hqp] at hwhy
      rw [hq q hqp]
      exact h.held q hwhy
  · by_cases hqp : q = p
    · subst hqp
      exact hentry d (hp.symm.trans hd)
    · exact h.entry q d ((hq q hqp).symm.trans hd)
  · by_cases hqp : q = p
    · subst hqp
      exact hasleep ch d (hp.symm.trans hd)
    · exact h.asleep q ch d ((hq q hqp).symm.trans hd)

/-- Process `p` has the lock, and no other process is at a control point under it. -/
theorem Locked.holding (hpc : s'.pc = update s.pc p (.holds c)) (hl : s'.lock = some p)
    (hother : ∀ q d, q ≠ p → s.pc q ≠ .holds d) : s'.Locked := by
  refine h.moved (.holds c) hpc (fun _ _ => hl) (fun q d hqp hq => (hother q d hqp hq).elim)
    (fun q hq => ?_) nofun nofun
  rw [if_pos (Option.some.inj (hq.symm.trans hl))]
  exact ⟨c, rfl⟩

theorem Locked.goto (hp : s.lock = some p) (c : PipeAt) : (s.goto p c).Locked :=
  h.holding rfl hp fun q d hqp hq => hqp (Option.some.inj ((h.holder q d hq).symm.trans hp))

theorem Locked.acquire (hl : s.lock = none) : ({ s with lock := some p }.goto p c).Locked := by
  refine h.holding (c := c) rfl rfl fun q d _ hq => ?_
  have := h.holder q d hq
  rw [hl] at this
  cases this

theorem Locked.unlock (pc : PipePc) (hp : s.lock = some p) (hl : s'.lock = none)
    (hpc : s'.pc = update s.pc p pc) (hnot : ∀ d, pc ≠ .holds d ∧ pc ≠ .acquire d)
    (hasleep : ∀ ch d, pc = .sleeping ch d → d.Entry) : s'.Locked := by
  refine h.moved pc hpc (fun d hd => ((hnot d).1 hd).elim) (fun q d hqp hq => ?_) (fun q hq => ?_)
    (fun d hd => ((hnot d).2 hd).elim) hasleep
  · exact (hqp (Option.some.inj ((h.holder q d hq).symm.trans hp))).elim
  · rw [hl] at hq
    cases hq

theorem Locked.waiting (pc : PipePc) (hp : ∀ d, s.pc p ≠ .holds d)
    (hl : s'.lock = s.lock) (hpc : s'.pc = update s.pc p pc)
    (hnot : ∀ d, pc ≠ .holds d) (hentry : ∀ d, pc = .acquire d → d.Entry)
    (hasleep : ∀ ch d, pc ≠ .sleeping ch d) : s'.Locked := by
  refine h.moved pc hpc (fun d hd => (hnot d hd).elim) (fun q d _ hq => hl.trans (h.holder q d hq))
    (fun q hq => ?_) hentry fun ch d hd => (hasleep ch d hd).elim
  rw [hl] at hq
  obtain ⟨d, hd⟩ := h.held q hq
  rw [if_neg (by rintro rfl; exact hp d hd)]
  exact hq

theorem Locked.sleep (hp : s.lock = some p) (hc : c.Entry) : (s.sleep p chan c).Locked := by
  refine h.unlock (.sleeping chan c) hp rfl rfl (fun _ => ⟨nofun, nofun⟩) fun ch d hd => ?_
  cases hd
  exact hc

theorem Locked.leave (hp : s.lock = some p) : (s.leave p).Locked :=
  h.unlock .idle hp rfl rfl (fun _ => ⟨nofun, nofun⟩) nofun

end

inductive Stepped (s : PipeSys) : PipeAct → PipeEvent → PipeSys → Prop where
  | call {p : Fin NPROC} {c : PipeCall} : s.pc p = .idle → s.files c.side = true →
      (c.closes = true → ∀ q, s.busy q ≠ some c.side) →
      Stepped s (.call p c) .silent ({ s with
        busy := update s.busy p (some c.side)
        files := if c.closes then update s.files c.side false else s.files
      }.setPc p (.acquire c.enter))
  | acquire {p : Fin NPROC} {c : PipeAt} : s.pc p = .acquire c → s.lock = none →
      Stepped s (.run p) .silent ({ s with lock := some p }.goto p c)
  | exec {p : Fin NPROC} {c : PipeAt} : s.pc p = .holds c →
      Stepped s (.run p) (s.exec p c).1 (s.exec p c).2
  | kill {p : Fin NPROC} : Stepped s (.kill p) .silent
      ({ s with killed := update s.killed p true }.setPc p (s.pc p).roused)

theorem step_stepped {l : PipeAct × PipeEvent} (h : PipeStep s l s') : s.Stepped l.1 l.2 s' := by
  obtain ⟨a, e⟩ := l
  unfold PipeStep step at h
  cases a with
  | call p c =>
    dsimp only at h
    split at h
    · rename_i hc
      cases h
      exact .call hc.1 hc.2.1 hc.2.2
    · cases h
  | run p =>
    dsimp only at h
    split at h
    · cases h
    · cases h
    · rename_i c hc
      split at h
      · rename_i hl
        cases h
        exact .acquire hc hl
      · cases h
    · rename_i c hc
      have he := Option.some.inj h
      have h1 : (s.exec p c).1 = e := congrArg Prod.fst he
      have h2 : (s.exec p c).2 = s' := congrArg Prod.snd he
      subst h1 h2
      exact .exec hc
  | kill p =>
    cases h
    exact .kill

theorem Locked.exec (h : s.Locked) (hc : s.pc p = .holds c) : (s.exec p c).2.Locked := by
  have hp := h.holder p c hc
  cases c with
  | write src =>
    cases src with
    | nil => exact h.goto hp _
    | cons b src =>
      simp only [PipeSys.exec]
      split
      · exact h.goto hp _
      · exact (h.congr { s with pipe := s.pipe.put b } rfl rfl).goto hp _
  | full src | empty n | read n =>
    simp only [PipeSys.exec]
    split <;> exact h.goto hp _
  | signal src | wrote => exact (h.wakeup .nread).goto hp _
  | waitRoom src | waitData n => exact h.sleep hp trivial
  | copy n got =>
    simp only [PipeSys.exec]
    split
    · exact h.goto hp _
    · exact (h.congr { s with pipe := s.pipe.get.2 } rfl rfl).goto hp _
  | gave got => exact (h.wakeup .nwrite).goto hp _
  | finish got | release => exact h.leave hp
  | close w =>
    exact ((h.congr { s with pipe := s.pipe.shut w } rfl rfl).wakeup _).goto hp _
  | last =>
    simp only [PipeSys.exec]
    split
    · exact (h.congr { s with freed := true } rfl rfl).goto hp _
    · exact h.goto hp _

theorem Locked.step {a : PipeAct} {e : PipeEvent} (h : s.Locked) (hs : s.Stepped a e s') :
    s'.Locked := by
  cases hs with
  | @call p c hidle _ _ =>
    refine h.waiting (.acquire c.enter) (fun d hd => ?_) rfl rfl nofun (fun d hd => ?_) nofun
    · rw [hidle] at hd
      cases hd
    · cases hd
      cases c <;> trivial
  | acquire hc hl => exact h.acquire hl
  | exec hc => exact h.exec hc
  | @kill p =>
    cases hpc : s.pc p with
    | sleeping ch c =>
      refine h.waiting (p := p) (.acquire c) (fun d hd => ?_) rfl
        (by simp [setPc, PipePc.roused]) nofun (fun d hd => ?_) nofun
      · rw [hpc] at hd
        cases hd
      · cases hd
        exact h.asleep p ch c hpc
    | idle | acquire _ | holds _ =>
      refine h.congr _ rfl ?_
      simp only [setPc, PipePc.roused]
      rw [← hpc, update_eq_self]

/-- The bytes the holder of the lock has read and not returned yet. -/
def inHand (s : PipeSys) : List UInt8 :=
  match s.lock with
  | none => []
  | some p => (s.pc p).inHand

theorem inHand_goto (hp : s.lock = some p) (c : PipeAt) : (s.goto p c).inHand = c.inHand := by
  have hl : (s.goto p c).lock = some p := hp
  rw [inHand, hl]
  simp [PipeSys.goto, setPc, PipePc.inHand]

theorem Locked.inHand_eq (h : s.Locked) (hc : s.pc p = .holds c) : s.inHand = c.inHand := by
  rw [inHand, h.holder p c hc]
  simp only [hc, PipePc.inHand]

end PipeSys

def PipeEvent.storedBytes : PipeEvent → List UInt8
  | .stored b => [b]
  | _ => []

def PipeEvent.returnedBytes : PipeEvent → List UInt8
  | .returned got => got
  | _ => []

def pipeStored (ls : List (PipeAct × PipeEvent)) : List UInt8 :=
  ls.flatMap fun l => l.2.storedBytes

/-- The bytes that the calls of `piperead` in a run returned, in order. -/
def pipeReturned (ls : List (PipeAct × PipeEvent)) : List UInt8 :=
  ls.flatMap fun l => l.2.returnedBytes

theorem pipeStored_snoc (ls : List (PipeAct × PipeEvent)) (l : PipeAct × PipeEvent) :
    pipeStored (ls ++ [l]) = pipeStored ls ++ l.2.storedBytes := by
  simp [pipeStored]

theorem pipeReturned_snoc (ls : List (PipeAct × PipeEvent)) (l : PipeAct × PipeEvent) :
    pipeReturned (ls ++ [l]) = pipeReturned ls ++ l.2.returnedBytes := by
  simp [pipeReturned]

def Pipe.Contains (p : Pipe) (l : List UInt8) : Prop := p.buffer.Holds 512 0x100000000 l

namespace PipeSys

variable {s s' : PipeSys} {p q : Fin NPROC} {c : PipeAt} {l : List UInt8}

theorem Locked.exec_queue (h : s.Locked) (hc : s.pc p = .holds c) (hl : s.pipe.Contains l) :
    ∃ l', (s.exec p c).2.pipe.Contains l' ∧ c.inHand ++ l ++ (s.exec p c).1.storedBytes =
      (s.exec p c).1.returnedBytes ++ (s.exec p c).2.inHand ++ l' := by
  have hp := h.holder p c hc
  have stay : ∀ (t : PipeSys) (d : PipeAt), t.lock = some p → t.pipe.Contains l →
      d.inHand = c.inHand → ∃ l', (t.goto p d).pipe.Contains l' ∧
        c.inHand ++ l ++ [] = [] ++ (t.goto p d).inHand ++ l' := fun t d ht hl hd =>
    ⟨l, hl, by rw [inHand_goto ht, hd]; simp⟩
  cases c with
  | write src =>
    cases src with
    | nil => exact stay s _ hp hl rfl
    | cons b src =>
      simp only [PipeSys.exec]
      split
      · exact stay s _ hp hl rfl
      rename_i hfull
      have hroom : l.length < 512 := by
        refine Nat.lt_of_le_of_ne hl.length fun he => hfull ?_
        exact (Lib.Cyclic.Holds.full_iff hl (by decide)).mpr he
      refine ⟨l ++ [b], Lib.Cyclic.Holds.store hl (by decide) hroom, ?_⟩
      rw [inHand_goto (s := { s with pipe := s.pipe.put b }) hp]
      rfl
  | full src | empty n | read n =>
    simp only [PipeSys.exec]
    split <;> exact stay s _ hp hl rfl
  | signal src | wrote => exact stay (s.wakeup .nread) _ hp hl rfl
  | waitRoom src | waitData n => exact ⟨l, hl, by simp [PipeSys.exec, PipeSys.sleep, PipeSys.inHand,
      setPc, PipeAt.inHand, PipeEvent.storedBytes, PipeEvent.returnedBytes]⟩
  | copy n got =>
    simp only [PipeSys.exec]
    split
    · exact stay s _ hp hl rfl
    rename_i hcopy
    cases l with
    | nil =>
      have hempty : s.pipe.isEmpty = true :=
        (Lib.Cyclic.Holds.empty_iff hl (by decide)).mpr rfl
      simp [hempty] at hcopy
    | cons x l =>
      refine ⟨l, Lib.Cyclic.Holds.advance hl, ?_⟩
      rw [inHand_goto (s := { s with pipe := s.pipe.get.2 }) hp]
      have hx : s.pipe.get.1 = x := Lib.Cyclic.Holds.first hl
      simp [PipeAt.inHand, PipeEvent.storedBytes, PipeEvent.returnedBytes, hx]
  | gave got => exact stay (s.wakeup .nwrite) _ hp hl rfl
  | finish got | release => exact ⟨l, hl, by simp [PipeSys.exec, PipeSys.leave, PipeSys.inHand, setPc,
      PipeAt.inHand, PipeEvent.storedBytes, PipeEvent.returnedBytes]⟩
  | close w =>
    refine stay ({ s with pipe := s.pipe.shut w }.wakeup _) .last hp ?_ rfl
    unfold Pipe.Contains Pipe.shut
    cases w <;> exact hl
  | last =>
    simp only [PipeSys.exec]
    split
    · exact stay { s with freed := true } _ hp hl rfl
    · exact stay s _ hp hl rfl

/-- The bytes stored are those returned, those in hand and those in the buffer. -/
structure Fifo (s : PipeSys) (stored returned : List UInt8) : Prop where
  locked : s.Locked
  queue : ∃ l, s.pipe.Contains l ∧ stored = returned ++ s.inHand ++ l

theorem Fifo.step {a : PipeAct} {e : PipeEvent} {stored returned : List UInt8}
    (h : s.Fifo stored returned) (hs : s.Stepped a e s') :
    s'.Fifo (stored ++ e.storedBytes) (returned ++ e.returnedBytes) := by
  refine ⟨h.locked.step hs, ?_⟩
  obtain ⟨l, hl, hq⟩ := h.queue
  have quiet : s'.pipe = s.pipe → s'.inHand = s.inHand →
      ∃ l, s'.pipe.Contains l ∧ stored ++ [] = returned ++ [] ++ s'.inHand ++ l := fun hpipe hh =>
    ⟨l, by rw [hpipe]; exact hl, by rw [hh, hq]; simp⟩
  cases hs with
  | @call p c hidle _ _ =>
    refine quiet rfl ?_
    simp only [inHand, setPc]
    cases hlock : s.lock with
    | none => rfl
    | some q =>
      dsimp only
      rw [update_of_ne]
      rintro rfl
      obtain ⟨d, hd⟩ := h.locked.held q hlock
      rw [hidle] at hd
      cases hd
  | @acquire p c hc hlock =>
    refine quiet rfl ?_
    rw [inHand_goto (s := { s with lock := some p }) rfl, (h.locked.entry p c hc).inHand, inHand,
      hlock]
  | @exec p c hc =>
    obtain ⟨l', hl', he⟩ := h.locked.exec_queue hc hl
    refine ⟨l', hl', ?_⟩
    rw [hq, h.locked.inHand_eq hc, List.append_assoc returned, List.append_assoc returned, he]
    simp
  | @kill p =>
    refine quiet rfl ?_
    simp only [inHand, setPc]
    cases hlock : s.lock with
    | none => rfl
    | some q =>
      dsimp only
      by_cases hqp : q = p
      · subst hqp
        obtain ⟨d, hd⟩ := h.locked.held q hlock
        rw [update_self, hd]
        rfl
      · rw [update_of_ne hqp]

theorem fresh_fifo (data : Nat → UInt8) (killed : Fin NPROC → Bool) :
    (fresh data killed).Fifo [] [] :=
  ⟨⟨nofun, nofun, nofun, nofun⟩, [], Lib.Cyclic.Holds.nil (Nat.zero_lt_succ _) rfl, rfl⟩

theorem run_fifo {ls : List (PipeAct × PipeEvent)} {data : Nat → UInt8} {killed : Fin NPROC → Bool}
    (h : Lib.Run PipeStep (fresh data killed) ls s) : s.Fifo (pipeStored ls) (pipeReturned ls) := by
  induction h with
  | refl => exact fresh_fifo data killed
  | snoc _ hs ih =>
    rw [pipeStored_snoc, pipeReturned_snoc]
    exact ih.step (step_stepped hs)

end PipeSys

/-- In every state that any number of readers and writers reach, the indices are at most
`PIPESIZE` apart, the bytes returned by reads are a prefix of the bytes stored by writes, and
what is missing is in the hand of the reader that holds the lock and in the buffer. -/
theorem pipe_fifo {s : PipeSys} {ls : List (PipeAct × PipeEvent)} {data : Nat → UInt8}
    {killed : Fin NPROC → Bool} (h : Lib.Run PipeStep (.fresh data killed) ls s) :
    (s.pipe.nwrite + 0x100000000 - s.pipe.nread) % 0x100000000 ≤ PIPESIZE ∧
    pipeReturned ls <+: pipeStored ls ∧
    ∃ l, s.pipe.Contains l ∧ pipeStored ls = pipeReturned ls ++ s.inHand ++ l := by
  obtain ⟨l, hl, hq⟩ := (PipeSys.run_fifo h).queue
  refine ⟨?_, ?_, l, hl, hq⟩
  · have hd : (s.pipe.nwrite + 0x100000000 - s.pipe.nread) % 0x100000000 = l.length :=
      Lib.Cyclic.Holds.distance hl (by decide)
    rw [hd]
    exact hl.length
  · rw [hq, List.append_assoc]
    exact List.prefix_append _ _

/-- One writer stores three bytes, and a reader takes two of them. -/
theorem pipe_fifo_two_of_three : ∃ ls s, Lib.Run PipeStep (.fresh (fun _ => 0) fun _ => false) ls s ∧
    pipeStored ls = [7, 8, 9] ∧ pipeReturned ls = [7, 8] ∧ pipeReturned ls <+: pipeStored ls := by
  obtain ⟨ls, s, hrun, hp⟩ := Lib.Run.exists_of_trace (f := PipeSys.step)
    (s := .fresh (fun _ => 0) fun _ => false)
    (p := fun r => pipeStored r.1 = [7, 8, 9] && pipeReturned r.1 = [7, 8])
    ([.call 1 (.write [7, 8, 9])] ++ List.replicate 7 (.run 1) ++
      [.call 0 (.read 2)] ++ List.replicate 7 (.run 0)) (by decide)
  rw [Bool.and_eq_true, decide_eq_true_iff, decide_eq_true_iff] at hp
  exact ⟨ls, s, hrun, hp.1, hp.2, (pipe_fifo hrun).2.1⟩

end Xv6
