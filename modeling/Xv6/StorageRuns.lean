import Xv6.Coherence
import Xv6.Lib.Run

/-!
Runs of the storage from `binit` on, seen through their events. Every block outside the
log reads as it was last logged, and it is written to its home only after a header on
the disk has named it.
-/

namespace Xv6

open Function Storage

def Storage.Step (s : Storage) (es : List Event) (s' : Storage) : Prop :=
  ∃ op, op.Allowed s ∧ op.perform s = .ok s' ∧ es = s.events op s'

def Storage.start (area : LogArea) (drives : Drives) : Storage where
  cache := binit drives
  log := { area := area }
  pc := .idle

def lastLogged (es : List Event) (b : Nat) : Option Block :=
  es.foldl (fun r e =>
    match e with
    | .logged b' data => if b' = b then some data else r
    | .wrote _ => r) none

/-- Block `b` was logged, and no header written since then names it. -/
def Pending (area : LogArea) (es : List Event) (b : Nat) : Prop :=
  ∃ xs data ys, es = xs ++ .logged b data :: ys ∧
    ∀ h, .wrote h ∈ ys → h.blockno = area.start → b ∉ h.data.header

/-- Between the `log_write` of a block and a write of that block, a header is written
that names it. -/
def WriteAhead (area : LogArea) (es : List Event) : Prop :=
  ∀ xs b data ys w zs, es = xs ++ .logged b data :: (ys ++ .wrote w :: zs) → w.blockno = b →
    ∃ h, .wrote h ∈ ys ∧ h.blockno = area.start ∧ b ∈ h.data.header

/-- A run's events account for what the storage holds. -/
structure Storage.Tracks (area : LogArea) (drives : Drives) (es : List Event) (s : Storage) : Prop where
  inv : s.Inv
  place : s.log.area = area
  view : ∀ b, ¬ area.Holds b → s.view b = (lastLogged es b).getD (drives.read area.dev b)
  logged : ∀ b ∈ s.log.lh, lastLogged es b ≠ none
  outside : ∀ b, lastLogged es b ≠ none → ¬ area.Holds b
  pending : ∀ b, Pending area es b → b ∈ s.log.lh ∧ ∀ p tail, s.pc ≠ .install p tail
  ahead : WriteAhead area es

section
variable {s s' : Storage} {op : Op} {area : LogArea} {drives : Drives} {es es' : List Event}
  {e : Event} {b : Nat}

theorem lastLogged_logged {data : Block} :
    lastLogged (es ++ [.logged b data]) = update (lastLogged es) b (some data) := by
  funext b'
  by_cases hb : b' = b
  · subst hb
    simp [lastLogged]
  · simp [lastLogged, hb, Ne.symm hb]

theorem lastLogged_wrote {w : Write} : lastLogged (es ++ [.wrote w]) = lastLogged es := by
  funext b'
  simp [lastLogged]

theorem Pending.of_append (h : Pending area (es ++ [e]) b) :
    (∃ data, e = .logged b data) ∨
      Pending area es b ∧ ∀ h, e = .wrote h → h.blockno = area.start → b ∉ h.data.header := by
  obtain ⟨xs, data, ys, hes, hnone⟩ := h
  rcases List.eq_nil_or_concat ys with rfl | ⟨ys, e', rfl⟩
  · obtain ⟨-, he⟩ := List.append_inj' hes rfl
    exact .inl ⟨data, by simpa using he⟩
  rw [List.concat_eq_append, ← List.cons_append, ← List.append_assoc] at hes
  obtain ⟨rfl, he⟩ := List.append_inj' hes rfl
  obtain rfl : e = e' := by simpa using he
  refine .inr ⟨⟨xs, data, ys, rfl, fun h hmem => hnone h (by simp [hmem])⟩, ?_⟩
  intro h hw
  exact hnone h (by simp [hw])

/-- It is enough to look at the last event, and there at blocks still pending. -/
theorem WriteAhead.append (h : WriteAhead area es)
    (hlast : ∀ w, e = .wrote w → ¬ Pending area es w.blockno) : WriteAhead area (es ++ [e]) := by
  intro xs b data ys w zs hes hb
  rcases List.eq_nil_or_concat zs with rfl | ⟨zs, e', rfl⟩
  · rw [← List.cons_append, ← List.append_assoc] at hes
    obtain ⟨rfl, he⟩ := List.append_inj' hes rfl
    have he : e = .wrote w := by simpa using he
    by_contra hnone
    refine hlast w he ⟨xs, data, ys, by rw [hb], ?_⟩
    intro h hmem hstart hin
    exact hnone ⟨h, hmem, hstart, hb ▸ hin⟩
  · rw [List.concat_eq_append, ← List.cons_append, ← List.append_assoc, ← List.cons_append,
      ← List.append_assoc] at hes
    obtain ⟨rfl, -⟩ := List.append_inj' hes rfl
    exact h xs b data ys w zs (by simp) hb

/-- A block of the transaction is written to its home only once the log is committed. -/
theorem Storage.Inv.install_of_write (h : s.Inv) (hs : s.Stepped op s') {w : Write}
    (hw : .wrote w ∈ s.events op s') (hb : w.blockno ∈ s.log.lh) :
    ∃ p tail, s.pc = .install p tail := by
  have hlog : ∀ {c x data}, s.Writes c x data → s.log.area.Holds x → w ≠ ⟨s.log.area.dev, x, data⟩ := by
    rintro c x data - hx rfl
    exact h.entries.outside _ hb hx
  cases hs with
  | bread fetch => simp [Storage.events] at hw
  | brelse held => simp [Storage.events, Bcache.released] at hw
  | logWrite small room inside => simp [Storage.events] at hw
  | beginOp running room => simp [Storage.events] at hw
  | endOp running more => simp [Storage.events] at hw
  | lastOp running last => simp [Storage.events] at hw
  | writeLog pc todo wrote =>
    rw [events_writes wrote] at hw
    exact absurd (by simpa using hw) (hlog wrote (copy_holds h.entries todo))
  | commit pc done wrote =>
    rw [events_writes wrote] at hw
    exact absurd (by simpa using hw) (hlog wrote s.log.area.start_holds)
  | install pc todo wrote => exact ⟨_, _, pc⟩
  | clear pc done wrote => exact ⟨_, _, pc⟩
  | finish pc => simp [Storage.events] at hw
  | readHead pc => exact absurd pc (h.running _)

theorem Storage.Tracks.pending_step (h : s.Tracks area drives es) (hs : s.Stepped op s')
    (hp : Pending area (es ++ s.events op s') b) :
    b ∈ s'.log.lh ∧ ∀ p tail, s'.pc ≠ .install p tail := by
  have hkeep : s.events op s' = [] → b ∈ s.log.lh ∧ ∀ p tail, s.pc ≠ .install p tail := by
    intro he
    rw [he, List.append_nil] at hp
    exact h.pending b hp
  cases hs with
  | bread fetch => exact hkeep (by simp [Storage.events])
  | brelse held => exact hkeep (by simp [Storage.events, Bcache.released])
  | logWrite small room inside =>
    rename_i p i data
    have hidle : s.pc = .idle := by
      apply h.inv.idle
      by_contra hc
      have := h.inv.alone (by simpa using hc)
      omega
    refine ⟨Log.mem_absorb.mpr ?_, by simp [hidle]⟩
    have he : s.events (.logWrite p i data) { s with
        cache := s.cache.setBuf i { s.cache.buf i with data := data, dirty := true }
        log := s.log.absorb (s.cache.buf i).blockno } =
        [.logged (s.cache.buf i).blockno data] := by simp [Storage.events]
    rw [he] at hp
    rcases hp.of_append with ⟨data', hb⟩ | ⟨hp, -⟩
    · simp only [Event.logged.injEq] at hb
      exact .inr hb.1.symm
    · exact .inl (h.pending b hp).1
  | beginOp running room => exact hkeep (by simp [Storage.events])
  | endOp running more => exact hkeep (by simp [Storage.events])
  | lastOp running last =>
    refine ⟨(hkeep (by simp [Storage.events])).1, ?_⟩
    intro p tail
    dsimp only
    split
    · simp
    · simp
  | writeLog pc todo wrote =>
    rw [events_writes wrote] at hp
    rcases hp.of_append with ⟨data', hb⟩ | ⟨hp, -⟩
    · cases hb
    · exact ⟨(h.pending b hp).1, by simp⟩
  | commit pc done wrote =>
    rw [events_writes wrote] at hp
    rcases hp.of_append with ⟨data', hb⟩ | ⟨hp, hnot⟩
    · cases hb
    · have hnot := hnot _ rfl (by rw [h.place])
      rw [Block.header_setHeader _ h.inv.entries.small] at hnot
      exact absurd (h.pending b hp).1 hnot
  | install pc todo wrote =>
    rw [events_writes wrote] at hp
    rcases hp.of_append with ⟨data', hb⟩ | ⟨hp, -⟩
    · cases hb
    · exact absurd pc ((h.pending b hp).2 _ _)
  | clear pc done wrote =>
    rw [events_writes wrote] at hp
    rcases hp.of_append with ⟨data', hb⟩ | ⟨hp, -⟩
    · cases hb
    · exact absurd pc ((h.pending b hp).2 _ _)
  | finish pc => exact ⟨(hkeep (by simp [Storage.events])).1, by simp⟩
  | readHead pc => exact absurd pc (h.inv.running _)

theorem Storage.Inv.lh_step (h : s.Inv) (hs : s.Stepped op s') (hb : b ∈ s'.log.lh) :
    b ∈ s.log.lh ∨ ∃ data, s.events op s' = [.logged b data] := by
  cases hs with
  | logWrite small room inside =>
    rcases Log.mem_absorb.mp hb with hb | rfl
    · exact .inl hb
    · exact .inr ⟨_, by simp [Storage.events]; rfl⟩
  | clear pc done wrote => simp at hb
  | readHead pc => exact absurd pc (h.running _)
  | _ => exact .inl hb

theorem Storage.stepped_area (hs : s.Stepped op s') : s'.log.area = s.log.area := by
  cases hs with
  | logWrite small room inside => simp [Log.absorb_eq]
  | _ => rfl

theorem Storage.Tracks.step (h : s.Tracks area drives es) (hstep : s.Step es' s') :
    s'.Tracks area drives (es ++ es') := by
  obtain ⟨op, hallowed, hrun, rfl⟩ := hstep
  have hs := perform_stepped h.inv.coherent hrun
  have heff := h.inv.effect hs hallowed
  have hwrites := fun w => h.inv.install_of_write (w := w) hs
  have hlogged := fun b => h.inv.lh_step (b := b) hs
  have hinv := h.inv.step_inv hs hallowed
  have hpending := fun b => h.pending_step (b := b) hs
  have hplace := (stepped_area hs).trans h.place
  generalize s.events op s' = es' at heff hwrites hlogged hpending ⊢
  cases heff with
  | silent hdrives hview =>
    rw [List.append_nil] at hpending ⊢
    exact {
      inv := hinv
      place := hplace
      view := fun b hb => by rw [hview, h.view b hb]
      logged := by
        intro b hb
        rcases hlogged b hb with hb | ⟨data, he⟩
        · exact h.logged b hb
        · cases he
      outside := h.outside
      pending := hpending
      ahead := h.ahead }
  | @logs x data outside hdrives hview =>
    exact {
      inv := hinv
      place := hplace
      view := by
        intro b hb
        rw [hview, lastLogged_logged]
        by_cases hbx : b = x
        · subst hbx
          simp
        · rw [update_of_ne hbx, update_of_ne hbx, h.view b hb]
      logged := by
        intro b hb
        rw [lastLogged_logged]
        by_cases hbx : b = x
        · subst hbx
          simp
        · rw [update_of_ne hbx]
          rcases hlogged b hb with hb | ⟨data', he⟩
          · exact h.logged b hb
          · simp only [List.cons.injEq, Event.logged.injEq] at he
            exact absurd he.1.1.symm hbx
      outside := by
        intro b hb
        rw [lastLogged_logged] at hb
        by_cases hbx : b = x
        · subst hbx
          exact h.place ▸ outside
        · rw [update_of_ne hbx] at hb
          exact h.outside b hb
      pending := hpending
      ahead := h.ahead.append (by simp) }
  | @writes x data same hdrives hview =>
    exact {
      inv := hinv
      place := hplace
      view := by
        intro b hb
        rw [hview, lastLogged_wrote, ← h.view b hb]
        by_cases hbx : b = x
        · subst hbx
          rw [update_self, same (h.place ▸ hb)]
        · rw [update_of_ne hbx]
      logged := by
        intro b hb
        rw [lastLogged_wrote]
        rcases hlogged b hb with hb | ⟨data', he⟩
        · exact h.logged b hb
        · cases he
      outside := by
        intro b
        rw [lastLogged_wrote]
        exact h.outside b
      pending := hpending
      ahead := by
        refine h.ahead.append ?_
        intro w hw hp
        obtain ⟨hin, hpc⟩ := h.pending _ hp
        obtain ⟨p, tail, hinst⟩ := hwrites w (by simp [hw]) hin
        exact hpc p tail hinst }

theorem Storage.start_tracks (area : LogArea) (drives : Drives) :
    (Storage.start area drives).Tracks area drives [] := by
  have hset : { b | b ∈ (Storage.start area drives).log.lh } = ∅ := by simp [Storage.start]
  have hc := binit_coherent drives area.device
  have hinv : (Storage.start area drives).Inv := .of_idle rfl rfl (hset ▸ hc)
    ⟨List.nodup_nil, by simp [Storage.start], by simp [Storage.start], by simp [Storage.start],
      area.header⟩
  exact {
    inv := hinv
    place := rfl
    view := fun b _ => hinv.view_eq_disk (by simp [Storage.start])
    logged := by simp [Storage.start]
    outside := by simp [lastLogged]
    pending := by
      rintro b ⟨xs, data, ys, hes, -⟩
      simp at hes
    ahead := by
      intro xs b data ys w zs hes
      simp at hes }

theorem Storage.run_tracks {ess : List (List Event)}
    (h : Lib.Run Storage.Step (Storage.start area drives) ess s) :
    s.Tracks area drives ess.flatten := by
  induction h with
  | refl => exact start_tracks area drives
  | snoc _ hstep ih =>
    rw [List.flatten_append, List.flatten_singleton]
    exact ih.step hstep

/-- In every state a run from `binit` reaches, a block has one buffer, the list holds
all buffers, and `bread` returns the block as last logged, or as it is on the disk; and
the run writes ahead. -/
theorem bcache_refines_blocks {ess : List (List Event)}
    (h : Lib.Run Storage.Step (Storage.start area drives) ess s) :
    (∀ i j, (s.cache.buf i).dev = area.dev → (s.cache.buf j).dev = area.dev →
      (s.cache.buf i).blockno = (s.cache.buf j).blockno → i = j) ∧
    (∃ l, s.cache.ring.Lists l ∧ l.Perm (List.finRange NBUF)) ∧
    (∀ p b i c, bread s.cache p area.dev b = .ok (i, c) →
      (c.buf i).dev = area.dev ∧ (c.buf i).blockno = b ∧ (c.buf i).lock = some p ∧
      (c.buf i).data = (lastLogged ess.flatten b).getD (s.disk b) ∧
      (¬ area.Holds b → (c.buf i).data = (lastLogged ess.flatten b).getD (drives.read area.dev b))) ∧
    WriteAhead area ess.flatten := by
  have ht := Storage.run_tracks h
  have hplace := ht.place
  have hc := ht.inv.coherent
  rw [hplace] at hc
  refine ⟨fun i j hi hj hb => hc.unique ⟨hi, hb⟩ ⟨hj, rfl⟩, hc.listed, ?_, ht.ahead⟩
  intro p b i c hread
  obtain ⟨x, hx, rfl⟩ := bread_fetch hc hread
  simp only [Bcache.setBuf_self]
  have hdata : x.data = s.view b := by rw [hx.data, Storage.view, hplace]
  refine ⟨hx.device, hx.blockno, hx.lock, ?_, fun hb => hdata.trans (ht.view b hb)⟩
  rw [hdata]
  cases hl : lastLogged ess.flatten b with
  | none => exact ht.inv.view_eq_disk fun hb => ht.logged b hb hl
  | some data =>
    rw [ht.view b (ht.outside b (by simp [hl])), hl]
    rfl

end

/-- An operation on the empty root file system logs block 40 and releases its buffer. -/
theorem exists_run_logging :
    ∃ ess s, Lib.Run Storage.Step (Storage.start mkfsLog ⟨fun _ _ _ => 0, []⟩) ess s ∧
      lastLogged ess.flatten 40 = some (fun _ => 7) ∧ s.pc = .idle ∧
      s.log = { area := mkfsLog, outstanding := 1, lh := [40] } := by
  let s0 := Storage.start mkfsLog ⟨fun _ _ _ => 0, []⟩
  have hc : s0.cache.Coherent 1 ∅ := binit_coherent _ (by decide)
  obtain ⟨i, c, hread⟩ := bread_quiet (p := 0) (b := 40) hc (fun _ => rfl) (by decide)
  obtain ⟨x, hx, rfl⟩ := bread_fetch hc hread
  let s1 : Storage := { s0 with log := { s0.log with outstanding := 1 } }
  let s2 : Storage := { s1 with cache := s0.cache.setBuf i x }
  let s3 : Storage := { s2 with
    cache := (s2.cache.memmove i fun _ => 7).setBuf i
      { (s2.cache.memmove i fun _ => 7).buf i with dirty := true }
    log := s2.log.absorb ((s2.cache.memmove i fun _ => 7).buf i).blockno }
  let s4 : Storage := { s3 with cache := s3.cache.released i }
  have h1 : s0.Step (s0.events (.beginOp 0) s1) s1 := ⟨.beginOp 0, trivial, rfl, rfl⟩
  have h2 : s1.Step (s1.events (.bread 0 40) s2) s2 :=
    ⟨.bread 0 40, trivial, Lib.bind_eq_ok.mpr ⟨_, hread, rfl⟩, rfl⟩
  have hi : s2.cache.buf i = x := Bcache.setBuf_self
  have h3 : s2.Step (s2.events (.logWrite 0 i fun _ => 7) s3) s3 := by
    refine ⟨.logWrite 0 i fun _ => 7, ⟨by rw [hi, hx.lock], ?_⟩, rfl, rfl⟩
    rw [hi, hx.blockno]
    show ¬ mkfsLog.Holds 40
    decide
  have hrun := ((Lib.Run.single h1).snoc h2).snoc h3
  have hlock : (s3.cache.buf i).lock = some 0 := by
    rw [Bcache.setBuf_self, Bcache.memmove, Bcache.setBuf_self, hi, hx.lock]
  have h4 : s3.Step (s3.events (.brelse 0 i) s4) s4 :=
    ⟨.brelse 0 i, trivial, Lib.bind_eq_ok.mpr
      ⟨_, brelse_eq (run_tracks hrun).inv.coherent hlock, rfl⟩, rfl⟩
  have hb : ((s2.cache.memmove i fun _ => 7).buf i).blockno = 40 := by
    rw [Bcache.memmove, Bcache.setBuf_self, hi, hx.blockno]
  refine ⟨_, s4, hrun.snoc h4, ?_, rfl, ?_⟩
  · have e1 : s0.events (.beginOp 0) s1 = [] := rfl
    have e2 : s1.events (.bread 0 40) s2 = [] := rfl
    have e3 : s2.events (.logWrite 0 i fun _ => 7) s3 = [.logged (s2.cache.buf i).blockno fun _ => 7] := rfl
    have e4 : s3.events (.brelse 0 i) s4 = [] := events_silent (by simp) rfl
    simp [e1, e2, e3, e4, lastLogged, hi, hx.blockno]
  · show s2.log.absorb _ = _
    rw [hb, Log.absorb_eq]
    rfl

theorem bcache_refines_logged_block :
    ∃ ess s, Lib.Run Storage.Step (Storage.start mkfsLog ⟨fun _ _ _ => 0, []⟩) ess s ∧
      lastLogged ess.flatten 40 = some (fun _ => 7) ∧ s.log.lh = [40] ∧
      (∃ l, s.cache.ring.Lists l ∧ l.Perm (List.finRange NBUF)) ∧
      ∀ p i c, bread s.cache p 1 40 = .ok (i, c) → (c.buf i).data = fun _ => 7 := by
  obtain ⟨ess, s, hrun, hlogged, -, hlog⟩ := exists_run_logging
  obtain ⟨-, hlist, hread, -⟩ := bcache_refines_blocks hrun
  refine ⟨ess, s, hrun, hlogged, by rw [hlog], hlist, fun p i c h => ?_⟩
  rw [(hread p 40 i c h).2.2.2.1, hlogged]
  rfl

end Xv6
