import Mathlib.Data.Fintype.Card
import Xv6.Ide
import Xv6.Lib.Outcome

/-!
What holds in every run of the disk driver. The queue is a linked list of the requests that
have been appended and not completed, each with a process that waits for it; its head is the
one request the drive works on.
-/

namespace Xv6.Ide

open Function Pc

/-- `q` are the requests under way, in the order in which they were appended. -/
structure Queued (s : Driver) (q : List (Fin NBUF)) : Prop where
  chain : Lib.Chain s.qnext s.idequeue q
  nodup : q.Nodup
  appended : s.appended = s.completed ++ q
  started : s.started = s.completed ++ q.take 1
  drive : s.drive.length = (q.take 1).length
  locked : ∀ p b, (s.pc p).buf = some b → (s.buf b).lock = some p
  waiting : ∀ b ∈ q, s.synced b = false ∧ ∃ p n, (s.pc p).request = some (b, n) ∧ s.completed.length ≤ n
  own : ∀ p b n, (s.pc p).request = some (b, n) → s.appended[n]? = some b ∧
    (n < s.completed.length → s.synced b = true)
  entering : ∀ p b, s.pc p = .entering b → s.synced b = false

section
variable {s t : Driver} {q : List (Fin NBUF)} {p : Nat} {b : Fin NBUF} {n : Nat}

theorem Pc.buf_of_request {c : Pc} (h : c.request = some (b, n)) : c.buf = some b := by
  cases c with
  | out => cases h
  | entering _ => cases h
  | sleeping b' n' | woken b' n' => exact congrArg (Option.map Prod.fst) h

theorem Driver.pc_setPc_self (s : Driver) (p : Nat) (c : Pc) : (s.setPc p c).pc p = c :=
  update_self ..

theorem Queued.alone (h : Queued s q) {p' : Nat} (hp : (s.pc p).buf = some b)
    (hp' : (s.pc p').buf = some b) : p = p' :=
  Option.some.inj ((h.locked p b hp).symm.trans (h.locked p' b hp'))

theorem Queued.fresh (h : Queued s q) (hp : s.pc p = .entering b) : b ∉ q := by
  intro hb
  obtain ⟨-, p', n, hreq, -⟩ := h.waiting b hb
  have heq : p = p' := h.alone (by rw [hp]; rfl) (buf_of_request hreq)
  rw [← heq, hp] at hreq
  cases hreq

theorem Quiet.queued (h : Quiet s) : Queued s [] := by
  refine ⟨h.queue, List.nodup_nil, ?_, ?_, ?_, fun p b hb => ?_, fun b hb => ?_, fun p b n hn => ?_,
    fun p b hb => ?_⟩
  · rw [h.appended, h.completed]
    rfl
  · rw [h.started, h.completed]
    rfl
  · rw [h.drive]
    rfl
  · rw [h.pc] at hb
    cases hb
  · cases hb
  · rw [h.pc] at hn
    cases hn
  · rw [h.pc] at hb
    cases hb

theorem Queued.setPc_idle (h : Queued s q) {c : Pc} (hreq : c.request = none)
    (hold : ∀ b n, (s.pc p).request = some (b, n) → n < s.completed.length)
    (hlock : ∀ b, c.buf = some b → (s.buf b).lock = some p)
    (hent : ∀ b, c = .entering b → s.synced b = false) : Queued (s.setPc p c) q := by
  have hpc : ∀ p', p' ≠ p → (s.setPc p c).pc p' = s.pc p' := fun p' hp => update_of_ne hp ..
  have hself := s.pc_setPc_self p c
  refine ⟨h.chain, h.nodup, h.appended, h.started, h.drive, fun p' b hb => ?_, fun b hb => ?_,
    fun p' b n hn => ?_, fun p' b hb => ?_⟩
  · by_cases hp : p' = p
    · subst hp
      rw [hself] at hb
      exact hlock b hb
    · rw [hpc p' hp] at hb
      exact h.locked p' b hb
  · obtain ⟨hflags, p', n, hn, hle⟩ := h.waiting b hb
    refine ⟨hflags, p', n, ?_, hle⟩
    rw [hpc p' ?_]
    · exact hn
    · rintro rfl
      have := hold b n hn
      omega
  · by_cases hp : p' = p
    · subst hp
      rw [hself, hreq] at hn
      cases hn
    · rw [hpc p' hp] at hn
      exact h.own p' b n hn
  · by_cases hp : p' = p
    · subst hp
      rw [hself] at hb
      exact hent b hb
    · rw [hpc p' hp] at hb
      exact h.entering p' b hb

theorem Queued.setPc_wait (h : Queued s q) {c : Pc} (hreq : (s.pc p).request = some (b, n))
    (hc : c.request = some (b, n)) : Queued (s.setPc p c) q := by
  have hpc : ∀ p', (s.setPc p c).pc p' = if p' = p then c else s.pc p' := fun p' => update_apply ..
  have hrequest : ∀ p', ((s.setPc p c).pc p').request = (s.pc p').request := by
    intro p'
    rw [hpc]
    split
    · rename_i hp
      rw [hp, hc, hreq]
    · rfl
  have hbuf : ∀ p', ((s.setPc p c).pc p').buf = (s.pc p').buf := by
    intro p'
    rw [hpc]
    split
    · rename_i hp
      rw [hp, buf_of_request hc, buf_of_request hreq]
    · rfl
  refine ⟨h.chain, h.nodup, h.appended, h.started, h.drive, fun p' b hb => ?_, fun b hb => ?_,
    fun p' b n hn => ?_, fun p' b hb => ?_⟩
  · rw [hbuf] at hb
    exact h.locked p' b hb
  · obtain ⟨hflags, p', n, hn, hle⟩ := h.waiting b hb
    exact ⟨hflags, p', n, by rw [hrequest]; exact hn, hle⟩
  · rw [hrequest] at hn
    exact h.own p' b n hn
  · rw [hpc] at hb
    split at hb
    · rw [hb] at hc
      cases hc
    · exact h.entering p' b hb

theorem Queued.mem_of_own (h : Queued s q) (hreq : (s.pc p).request = some (b, n))
    (hn : s.completed.length ≤ n) : b ∈ q := by
  have hget := (h.own p b n hreq).1
  rw [h.appended, List.getElem?_append_right hn] at hget
  exact List.mem_of_getElem? hget

theorem Queued.append (h : Queued s q) (hb : b ∉ q) : ∃ next head,
    append s b = .ok { s with qnext := next, idequeue := head, appended := s.appended ++ [b] } ∧
      Lib.Chain next head (q ++ [b]) := by
  have hchain : Lib.Chain (update s.qnext b none) s.idequeue q :=
    h.chain.congr fun a ha => update_of_ne (ne_of_mem_of_not_mem ha hb) ..
  have hend : update s.qnext b none b = none := update_self ..
  have hhead := h.chain.head
  unfold Ide.append
  cases q with
  | nil =>
    rw [hhead]
    exact ⟨_, _, rfl, rfl, hend⟩
  | cons a q =>
    rw [List.head?_cons] at hhead
    rw [hhead] at hchain
    have hlen : (a :: q).length ≤ NBUF := by
      have := List.Nodup.length_le_card h.nodup
      rwa [Fintype.card_fin] at this
    have hwalk := hchain.chainEnd hlen
    cases hlast : (a :: q).getLast? with
    | none => cases List.getLast?_eq_none_iff.mp hlast
    | some z =>
      rw [hlast] at hwalk
      dsimp only
      rw [hhead]
      dsimp only
      rw [hwalk]
      refine ⟨_, _, ?_, hchain.push h.nodup hb hend hlast⟩
      rw [← hhead]
      rfl

theorem idestart_ok (h : idestart s (some b) = .ok t) :
    ∃ cmd, t = { s with drive := s.drive ++ [cmd], started := s.started ++ [b] } := by
  unfold idestart at h
  dsimp only at h
  split at h
  · cases h
  · cases h
    exact ⟨_, rfl⟩

structure Pushed (s : Driver) (q : List (Fin NBUF)) (p : Nat) (b : Fin NBUF) (t : Driver) : Prop where
  buf : t.buf = s.buf
  chain : Lib.Chain t.qnext t.idequeue (q ++ [b])
  appended : t.appended = s.appended ++ [b]
  completed : t.completed = s.completed
  started : t.started = s.started ++ if q = [] then [b] else []
  drive : t.drive.length = s.drive.length + if q = [] then 1 else 0
  pc : t.pc = update s.pc p (.sleeping b s.appended.length)

theorem iderw_pushed (h : Queued s q) (hpc : s.pc p = .entering b) (hcall : iderw s p b = .ok t) :
    Pushed s q p b t := by
  have hb := h.fresh hpc
  obtain ⟨next, head, happend, hchain⟩ := h.append hb
  have hflags := h.entering p b hpc
  have htest : ∀ u : Driver, u.buf = s.buf → iderwTest u p b s.appended.length =
      u.setPc p (.sleeping b s.appended.length) := by
    intro u hu
    have hnot : u.synced b = false := by
      rw [← hflags, Driver.synced, Driver.synced, hu]
    rw [iderwTest, hnot]
    rfl
  obtain ⟨u0, hu0, hcall⟩ := Lib.bind_eq_ok.mp hcall
  cases hu0.symm.trans happend
  have hhead : head = (q ++ [b]).head? := hchain.head
  dsimp only at hcall
  split at hcall
  · rename_i hfirst
    obtain ⟨u, hstart, hcall⟩ := Lib.bind_eq_ok.mp hcall
    cases hcall
    have hq : q = [] := by
      cases q with
      | nil => rfl
      | cons a q =>
        rw [hhead] at hfirst
        cases hfirst
        exact (hb List.mem_cons_self).elim
    obtain ⟨cmd, rfl⟩ := idestart_ok hstart
    rw [htest]
    · exact ⟨rfl, hchain, rfl, rfl, by rw [if_pos hq]; rfl, by rw [if_pos hq]; exact List.length_append, rfl⟩
    · rfl
  · rename_i hfirst
    have hq : q ≠ [] := by
      rintro rfl
      exact hfirst hhead
    cases hcall
    rw [htest]
    · exact ⟨rfl, hchain, rfl, rfl, by rw [if_neg hq, List.append_nil]; rfl, by rw [if_neg hq]; rfl, rfl⟩
    · rfl

theorem Queued.pushed (h : Queued s q) (hpc : s.pc p = .entering b) (ht : Pushed s q p b t) :
    Queued t (q ++ [b]) := by
  have hb := h.fresh hpc
  have hsynced : ∀ a, t.synced a = s.synced a := fun a => by rw [Driver.synced, Driver.synced, ht.buf]
  have hself : t.pc p = .sleeping b s.appended.length := by rw [ht.pc, update_self]
  have hother : ∀ p', p' ≠ p → t.pc p' = s.pc p' := fun p' hp => by rw [ht.pc, update_of_ne hp]
  refine ⟨ht.chain, ?_, ?_, ?_, ?_, fun p' a ha => ?_, fun a ha => ?_, fun p' a n hn => ?_, fun p' a ha => ?_⟩
  · exact h.nodup.append (List.nodup_singleton b) (by simpa using hb)
  · rw [ht.appended, ht.completed, h.appended, List.append_assoc]
  · rw [ht.started, ht.completed, h.started, List.append_assoc]
    cases q with
    | nil => rfl
    | cons a q => rw [if_neg (List.cons_ne_nil _ _)]; rfl
  · rw [ht.drive, h.drive]
    cases q with
    | nil => rfl
    | cons a q => rw [if_neg (List.cons_ne_nil _ _)]; rfl
  · rw [ht.buf]
    by_cases hp : p' = p
    · subst hp
      rw [hself] at ha
      cases ha
      exact h.locked p' b (by rw [hpc]; rfl)
    · rw [hother p' hp] at ha
      exact h.locked p' a ha
  · rw [hsynced, ht.completed]
    rcases List.mem_append.mp ha with ha | ha
    · obtain ⟨hflags, p', n, hn, hle⟩ := h.waiting a ha
      refine ⟨hflags, p', n, ?_, hle⟩
      rw [hother p' ?_]
      · exact hn
      · rintro rfl
        rw [hpc] at hn
        cases hn
    · rw [List.mem_singleton.mp ha]
      refine ⟨h.entering p b hpc, p, s.appended.length, by rw [hself]; rfl, ?_⟩
      rw [h.appended, List.length_append]
      omega
  · rw [hsynced, ht.appended, ht.completed]
    by_cases hp : p' = p
    · subst hp
      rw [hself] at hn
      cases hn
      refine ⟨by simp, fun hlt => ?_⟩
      rw [h.appended, List.length_append] at hlt
      omega
    · rw [hother p' hp] at hn
      obtain ⟨hget, hdone⟩ := h.own p' a n hn
      refine ⟨?_, hdone⟩
      rw [List.getElem?_append_left (List.getElem?_eq_some_iff.mp hget).1]
      exact hget
  · rw [hsynced]
    by_cases hp : p' = p
    · subst hp
      rw [hself] at ha
      cases ha
    · rw [hother p' hp] at ha
      exact h.entering p' a ha

theorem Pc.request_wakeup (c : Pc) : (c.wakeup b).request = c.request := by
  cases c with
  | out | entering _ | woken _ _ => rfl
  | sleeping a n =>
    rw [Pc.wakeup]
    split <;> rfl

theorem Pc.buf_wakeup (c : Pc) : (c.wakeup b).buf = c.buf := by
  cases c with
  | out | entering _ | woken _ _ => rfl
  | sleeping a n =>
    rw [Pc.wakeup]
    split <;> rfl

theorem Pc.entering_wakeup {c : Pc} {a : Fin NBUF} (h : c.wakeup b = .entering a) : c = .entering a := by
  cases c with
  | out | entering _ | woken _ _ => exact h
  | sleeping a n =>
    rw [Pc.wakeup] at h
    split at h <;> cases h

structure Popped (s : Driver) (b : Fin NBUF) (q : List (Fin NBUF)) (t : Driver) : Prop where
  qnext : t.qnext = s.qnext
  idequeue : t.idequeue = s.qnext b
  other : ∀ a, a ≠ b → t.buf a = s.buf a
  lock : (t.buf b).lock = (s.buf b).lock
  synced : t.synced b = true
  appended : t.appended = s.appended
  completed : t.completed = s.completed ++ [b]
  started : t.started = s.started ++ q.take 1
  drive : t.drive.length = (q.take 1).length
  pc : ∀ p, t.pc p = (s.pc p).wakeup b

theorem ideintr_popped {bytes : Option Block} (h : Queued s (b :: q))
    (hcall : ideintr { s with drive := [] } bytes = .ok t) : Popped s b q t := by
  have hqueue : s.idequeue = some b := h.chain.head
  have hnext : s.qnext b = q.head? := h.chain.tail.head
  unfold ideintr at hcall
  dsimp only at hcall
  rw [hqueue] at hcall
  dsimp only at hcall
  generalize hx : (if (s.buf b).dirty = true then s.buf b
    else { s.buf b with data := bytes.getD (s.buf b).data }) = x at hcall
  have hlock : x.lock = (s.buf b).lock := by
    rw [← hx]
    split <;> rfl
  have hself : update s.buf b { x with valid := true, dirty := false } b =
      { x with valid := true, dirty := false } := update_self ..
  have hother : ∀ a, a ≠ b → update s.buf b { x with valid := true, dirty := false } a = s.buf a :=
    fun a ha => update_of_ne ha ..
  have hsynced : (let y := update s.buf b { x with valid := true, dirty := false } b
      y.valid && !y.dirty) = true := by
    rw [hself]
    rfl
  have hlock' : (update s.buf b { x with valid := true, dirty := false } b).lock =
      (s.buf b).lock := by
    rw [hself]
    exact hlock
  cases q with
  | nil =>
    have hnone : s.qnext b = none := hnext
    rw [hnone, if_neg (fun h => h rfl)] at hcall
    cases hcall
    exact ⟨rfl, hnone.symm, hother, hlock', hsynced, rfl, rfl, (List.append_nil _).symm, rfl, fun _ => rfl⟩
  | cons a q =>
    have hsome : s.qnext b = some a := hnext
    rw [hsome] at hcall
    split at hcall
    · obtain ⟨cmd, rfl⟩ := idestart_ok (b := a) hcall
      exact ⟨rfl, hsome.symm, hother, hlock', hsynced, rfl, rfl, rfl, rfl, fun _ => rfl⟩
    · rename_i hne
      exact (hne (Option.some_ne_none a)).elim

theorem Queued.popped (h : Queued s (b :: q)) (ht : Popped s b q t) : Queued t q := by
  have hlocked : ∀ a, (t.buf a).lock = (s.buf a).lock := by
    intro a
    by_cases ha : a = b
    · rw [ha, ht.lock]
    · rw [ht.other a ha]
  have hsynced : ∀ a, a ≠ b → t.synced a = s.synced a := fun a ha => by
    rw [Driver.synced, Driver.synced, ht.other a ha]
  have hlen : t.completed.length = s.completed.length + 1 := by
    rw [ht.completed, List.length_append]
    rfl
  have hfirst : s.appended[s.completed.length]? = some b := by
    rw [h.appended, List.getElem?_append_right le_rfl, Nat.sub_self]
    rfl
  have hbq := (List.nodup_cons.mp h.nodup).1
  refine ⟨?_, (List.nodup_cons.mp h.nodup).2, ?_, ?_, ht.drive, fun p a ha => ?_, fun a ha => ?_,
    fun p a n hn => ?_, fun p a ha => ?_⟩
  · rw [ht.qnext, ht.idequeue]
    exact h.chain.tail
  · rw [ht.appended, ht.completed, h.appended, List.append_assoc]
    rfl
  · rw [ht.started, ht.completed, h.started]
    rfl
  · rw [ht.pc, buf_wakeup] at ha
    rw [hlocked]
    exact h.locked p a ha
  · have hab : a ≠ b := ne_of_mem_of_not_mem ha hbq
    obtain ⟨hflags, p, n, hn, hle⟩ := h.waiting a (List.mem_cons_of_mem b ha)
    refine ⟨by rw [hsynced a hab]; exact hflags, p, n, by rw [ht.pc, request_wakeup]; exact hn, ?_⟩
    have hne : n ≠ s.completed.length := by
      rintro rfl
      exact hab (Option.some.inj ((h.own p a _ hn).1.symm.trans hfirst))
    omega
  · rw [ht.pc, request_wakeup] at hn
    obtain ⟨hget, hdone⟩ := h.own p a n hn
    refine ⟨by rw [ht.appended]; exact hget, fun hlt => ?_⟩
    by_cases hab : a = b
    · rw [hab]
      exact ht.synced
    · have hne : n ≠ s.completed.length := by
        rintro rfl
        exact hab (Option.some.inj (hget.symm.trans hfirst))
      rw [hsynced a hab]
      exact hdone (by omega)
  · rw [ht.pc] at ha
    have ha := entering_wakeup ha
    have hab : a ≠ b := fun e => h.fresh ha (e ▸ List.mem_cons_self)
    rw [hsynced a hab]
    exact h.entering p a ha

theorem Queued.changed (h : Queued s q) {x : Buf} (hfree : ∀ p, (s.pc p).buf ≠ some b) :
    Queued (s.setBuf b x) q := by
  have hbuf : ∀ a, a ≠ b → (s.setBuf b x).buf a = s.buf a := fun a ha => update_of_ne ha ..
  have hsynced : ∀ p a, (s.pc p).buf = some a → (s.setBuf b x).synced a = s.synced a := by
    intro p a ha
    rw [Driver.synced, Driver.synced, hbuf a fun e => hfree p (e ▸ ha)]
  refine ⟨h.chain, h.nodup, h.appended, h.started, h.drive, fun p a ha => ?_, fun a ha => ?_,
    fun p a n hn => ?_, fun p a ha => ?_⟩
  · rw [hbuf a fun e => hfree p (e ▸ ha)]
    exact h.locked p a ha
  · obtain ⟨hflags, p, n, hn, hle⟩ := h.waiting a ha
    exact ⟨by rw [hsynced p a (buf_of_request hn)]; exact hflags, p, n, hn, hle⟩
  · rw [hsynced p a (buf_of_request hn)]
    exact h.own p a n hn
  · have hpc : s.pc p = .entering a := ha
    rw [hsynced p a (by rw [hpc]; rfl)]
    exact h.entering p a ha

/-- A process returns from `iderw` when its own request has been completed. -/
theorem Queued.own_done (h : Queued s q) (hreq : (s.pc p).request = some (b, n)) (hsync : s.synced b = true) :
    n < s.completed.length := by
  by_contra hge
  have hflags := (h.waiting b (h.mem_of_own hreq (Nat.not_lt.mp hge))).1
  rw [hsync] at hflags
  cases hflags

theorem Queued.notMem_of_done (h : Queued s q) (hreq : (s.pc p).request = some (b, n))
    (hn : n < s.completed.length) : b ∉ q := by
  intro hb
  obtain ⟨-, p', n', hreq', hle⟩ := h.waiting b hb
  have heq : p = p' := h.alone (buf_of_request hreq) (buf_of_request hreq')
  rw [← heq, hreq] at hreq'
  cases hreq'
  omega

theorem Queued.retest (h : Queued s q) (hreq : (s.pc p).request = some (b, n)) :
    Queued (iderwTest s p b n) q := by
  unfold iderwTest
  split
  · rename_i hsync
    refine h.setPc_idle rfl (fun a m hm => ?_) (fun a ha => ?_) fun a ha => ?_
    · cases hreq.symm.trans hm
      exact h.own_done hreq hsync
    · cases ha
    · cases ha
  · exact h.setPc_wait hreq rfl

theorem Queued.step {a : Act} (h : Queued s q) (hstep : Step s a t) : ∃ q', Queued t q' := by
  cases hstep with
  | @call p b hpc htests =>
    unfold iderwTests at htests
    split at htests
    · cases htests
    rename_i hlock
    split at htests
    · cases htests
    rename_i hsync
    refine ⟨q, h.setPc_idle rfl (fun b n hn => ?_) (fun c hc => ?_) fun c hc => ?_⟩
    · rw [hpc] at hn
      cases hn
    · cases hc
      exact not_not.mp hlock
    · cases hc
      exact Bool.not_eq_true _ ▸ hsync
  | enqueue hpc hcall => exact ⟨_, h.pushed hpc (iderw_pushed h hpc hcall)⟩
  | kill hpc => exact ⟨q, h.setPc_wait (by rw [hpc]; rfl) rfl⟩
  | retest hpc => exact ⟨q, h.retest (by rw [hpc]; rfl)⟩
  | @interrupt _ cmd rest bytes hdrive hcall =>
    have hlen := h.drive
    rw [hdrive, List.length_cons] at hlen
    cases q with
    | nil => cases hlen
    | cons b q =>
      have hrest : rest = [] := List.length_eq_zero_iff.mp (Nat.succ.inj hlen)
      rw [hrest] at hcall
      exact ⟨q, h.popped (ideintr_popped h hcall)⟩
  | change hfree => exact ⟨q, h.changed hfree⟩

end

/-- Requests are started one at a time, in the order in which they were appended; the queue is
the list of those that are not completed, and `iderw` returns behind its own request. -/
theorem ide_queue {s0 s : Driver} {as : List Act} (h0 : Quiet s0) (hrun : Lib.Run Step s0 as s) :
    ∃ q, Lib.Chain s.qnext s.idequeue q ∧ q.Nodup ∧ s.appended = s.completed ++ q ∧
      s.started = s.completed ++ q.take 1 ∧ s.drive.length = (q.take 1).length ∧
      ∀ p a t, (a = .enqueue p ∨ a = .retest p) → Step s a t → t.pc p = .out →
        ∃ b n, s.pc p = .woken b n ∧ s.appended[n]? = some b ∧ s.completed[n]? = some b ∧ b ∉ q ∧
          (t.buf b).valid = true ∧ (t.buf b).dirty = false := by
  obtain ⟨q, h⟩ := hrun.invariant (fun s => ∃ q, Queued s q) ⟨[], h0.queued⟩ fun s a t ⟨q, h⟩ hstep =>
    h.step hstep
  refine ⟨q, h.chain, h.nodup, h.appended, h.started, h.drive, fun p a t ha hstep hout => ?_⟩
  rcases ha with rfl | rfl
  · -- `iderw` does not find its own request completed when it has just appended it
    cases hstep with
    | enqueue hpc hcall =>
      rw [(iderw_pushed h hpc hcall).pc, update_self] at hout
      cases hout
  cases hstep with
  | @retest _ b n hpc =>
    have hreq : (s.pc p).request = some (b, n) := by rw [hpc]; rfl
    unfold iderwTest at hout ⊢
    split at hout
    · rename_i hsync
      have hdone := h.own_done hreq hsync
      have hget := (h.own p b n hreq).1
      refine ⟨b, n, hpc, hget, ?_, h.notMem_of_done hreq hdone, ?_⟩
      · rw [h.appended, List.getElem?_append_left hdone] at hget
        exact hget
      · have hflags := Bool.and_eq_true_iff.mp hsync
        rw [if_pos hsync]
        exact ⟨hflags.1, Bool.not_eq_true' _ ▸ hflags.2⟩
    · rw [Driver.pc_setPc_self] at hout
      cases hout

/-- Process 0 holds the locks of all buffers, none of which is valid. -/
def Driver.idle : Driver where
  buf := fun _ => { lock := some 0 }
  qnext := fun _ => none
  idequeue := none
  havedisk1 := true
  drive := []
  pc := fun _ => .out
  appended := []
  started := []
  completed := []

theorem ide_queue_one_request : ∃ s t, Lib.Run Step Driver.idle [.call 0 0, .enqueue 0, .interrupt none] s ∧
    Step s (.retest 0) t ∧ t.pc 0 = .out ∧ ∃ b n, s.pc 0 = .woken b n ∧ s.completed[n]? = some b := by
  have hquiet : Quiet Driver.idle := ⟨rfl, rfl, fun _ => rfl, rfl, rfl, rfl⟩
  have hrun : ∃ s, Lib.Run Step Driver.idle [.call 0 0, .enqueue 0, .interrupt none] s ∧
      s.pc 0 = .woken 0 0 ∧ (iderwTest s 0 0 0).pc 0 = .out := by
    have hcall : Step Driver.idle (.call 0 0) (Driver.idle.setPc 0 (.entering 0)) := .call rfl rfl
    exact ⟨_, ((Lib.Run.single hcall).snoc (.enqueue rfl rfl)).snoc (.interrupt rfl rfl), rfl, rfl⟩
  obtain ⟨s, hrun, hpc, hout⟩ := hrun
  obtain ⟨q, -, -, -, -, -, hreturn⟩ := ide_queue hquiet hrun
  obtain ⟨b, n, h1, -, h2, -⟩ := hreturn 0 _ _ (Or.inr rfl) (.retest hpc) hout
  exact ⟨s, _, hrun, .retest hpc, hout, b, n, h1, h2⟩

end Xv6.Ide
