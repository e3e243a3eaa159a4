import Xv6.StorageSteps
import Mathlib.Data.List.GetD

/-!
The cache over whole runs. From `binit` on, every block outside the log reads as it was
last logged, and reaches the disk only after a header that names it.
-/

namespace Xv6

open Function Storage

variable {b i j tail : Nat} {data : Block} {c : Bcache} {es : List Event}

structure LogArea.Logs (g : LogArea) (lh : List Nat) : Prop where
  nodup : lh.Nodup
  outside : ∀ b ∈ lh, ¬ g.Holds b
  bound : ∀ b ∈ lh, b < FSSIZE
  small : lh.length ≤ LOGSIZE
  room : lh.length < g.size

/-- What holds between the steps of a machine that has come up. Log block `j` reads as
the block it is a copy of, as far as `write_log` has come. -/
structure Storage.Inv (s : Storage) : Prop where
  coherent : s.cache.Coherent s.log.area.dev s.pinned
  entries : s.log.area.Logs s.log.lh
  committing : s.log.committing = true ↔ s.pc ≠ .idle
  alone : s.log.committing = true → s.log.outstanding = 0
  copies : ∀ p tail, s.pc = .writeLog p tail →
    0 < s.log.lh.length ∧ tail ≤ s.log.lh.length ∧ ∀ j < tail, s.view (s.copy j) = s.view (s.home j)
  installs : ∀ p tail, s.pc = .install p tail →
    tail ≤ s.log.lh.length ∧ ∀ j < s.log.lh.length, s.view (s.copy j) = s.view (s.home j)
  finished : ∀ p, s.pc = .finish p → s.log.lh = []
  running : ∀ p, s.pc ≠ .readHead p

section
variable {s s' : Storage} {op : Op}

theorem Storage.home_mem (h : j < s.log.lh.length) : s.home j ∈ s.log.lh := by
  rw [Storage.home, List.getD_eq_getElem _ _ h]
  exact List.getElem_mem h

theorem Storage.copy_holds (h : s.log.area.Logs s.log.lh) (hj : j < s.log.lh.length) :
    s.log.area.Holds (s.copy j) := by
  have := h.room
  unfold LogArea.Holds Storage.copy
  omega

theorem LogArea.start_holds (g : LogArea) : g.Holds g.start := ⟨le_refl _, by have := g.header; omega⟩

theorem Storage.home_ne_copy (h : s.log.area.Logs s.log.lh) (hi : i < s.log.lh.length)
    (hj : j < s.log.lh.length) : s.home i ≠ s.copy j := fun e =>
  h.outside _ (home_mem hi) (e ▸ copy_holds h hj)

theorem Storage.home_inj (h : s.log.area.Logs s.log.lh) (hi : i < s.log.lh.length)
    (hj : j < s.log.lh.length) (e : s.home i = s.home j) : i = j := by
  rw [Storage.home, Storage.home, List.getD_eq_getElem _ _ hi, List.getD_eq_getElem _ _ hj] at e
  exact (List.Nodup.getElem_inj_iff h.nodup).mp e

theorem Storage.pinned_subset (h : b ∈ s.pinned) : b ∈ s.log.lh := by
  unfold Storage.pinned at h
  split at h
  · exact absurd h (Set.notMem_empty b)
  · split at h
    · exact List.mem_of_mem_drop h
    · exact absurd h (Set.notMem_empty b)
  · exact h

theorem Storage.Inv.view_eq_disk (h : s.Inv) (hb : b ∉ s.log.lh) : s.view b = s.disk b :=
  h.coherent.view_unpinned fun hp => hb (pinned_subset hp)

theorem Storage.Writes.view (h : s.Writes c b data) :
    c.view s.log.area.dev = update s.view b data := Bcache.Wrote.view h

theorem Storage.Writes.coherent_of_holds (h : s.Writes c b data) (hs : s.log.area.Logs s.log.lh)
    (hb : s.log.area.Holds b) : c.Coherent s.log.area.dev s.pinned := by
  have hp : b ∉ s.pinned := fun hp => hs.outside b (pinned_subset hp) hb
  simpa [Set.sdiff_singleton_eq_self hp] using Bcache.Wrote.coherent h

theorem Log.absorb_logs {g : Log} (h : g.area.Logs g.lh) (hb : ¬ g.area.Holds b)
    (hbound : b < FSSIZE) (hsmall : g.lh.length < LOGSIZE) (hroom : g.lh.length + 1 < g.area.size) :
    g.area.Logs (g.absorb b).lh := by
  have hlen : (g.absorb b).lh.length ≤ g.lh.length + 1 := by
    rw [Log.absorb_eq]
    split
    · exact Nat.le_succ _
    · simp
  refine ⟨Log.nodup_absorb h.nodup b, ?_, ?_, by omega, by omega⟩
  · intro x hx
    rcases Log.mem_absorb.mp hx with hx | rfl
    · exact h.outside x hx
    · exact hb
  · intro x hx
    rcases Log.mem_absorb.mp hx with hx | rfl
    · exact h.bound x hx
    · exact hbound

theorem Storage.Inv.setCache (h : s.Inv) (hc : c.Coherent s.log.area.dev s.pinned)
    (hv : c.view s.log.area.dev = s.cache.view s.log.area.dev) : { s with cache := c }.Inv where
  coherent := hc
  entries := h.entries
  committing := h.committing
  alone := h.alone
  copies := by
    intro p tail hpc
    simpa only [Storage.view, Storage.copy, Storage.home, hv] using h.copies p tail hpc
  installs := by
    intro p tail hpc
    simpa only [Storage.view, Storage.copy, Storage.home, hv] using h.installs p tail hpc
  finished := h.finished
  running := h.running

theorem Storage.Inv.idle (h : s.Inv) (hc : s.log.committing = false) : s.pc = .idle := by
  by_contra hpc
  have := h.committing.mpr hpc
  simp [hc] at this

theorem Storage.pinned_idle (h : s.pc = .idle) : s.pinned = { b | b ∈ s.log.lh } := by
  simp [Storage.pinned, h]

theorem Storage.Inv.of_idle (hpc : s.pc = .idle) (hrun : s.log.committing = false)
    (hc : s.cache.Coherent s.log.area.dev { b | b ∈ s.log.lh }) (he : s.log.area.Logs s.log.lh) :
    s.Inv where
  coherent := pinned_idle hpc ▸ hc
  entries := he
  committing := by simp [hpc, hrun]
  alone := by simp [hrun]
  copies := by simp [hpc]
  installs := by simp [hpc]
  finished := by simp [hpc]
  running := by simp [hpc]

theorem Storage.drop_eq_cons (h : tail < s.log.lh.length) :
    s.log.lh.drop tail = s.home tail :: s.log.lh.drop (tail + 1) := by
  rw [List.drop_eq_getElem_cons h, Storage.home, List.getD_eq_getElem _ _ h]

theorem Storage.pinned_rest (he : s.log.area.Logs s.log.lh) (h : tail < s.log.lh.length) :
    { b | b ∈ s.home tail :: s.log.lh.drop (tail + 1) } \ {s.home tail} =
      { b | b ∈ s.log.lh.drop (tail + 1) } := by
  have hnodup := he.nodup.sublist (List.drop_sublist tail s.log.lh)
  rw [drop_eq_cons h] at hnodup
  have hnot := (List.nodup_cons.mp hnodup).1
  ext b
  simp only [Set.mem_sdiff, Set.mem_ofPred_eq, List.mem_cons, Set.mem_singleton_iff]
  constructor
  · rintro ⟨rfl | hb, hne⟩
    · exact absurd rfl hne
    · exact hb
  · intro hb
    exact ⟨.inr hb, fun e => hnot (e ▸ hb)⟩

theorem Storage.Inv.coherent_logWrite {p : Nat} {i : Fin NBUF} (h : s.Inv)
    (hidle : s.pc = .idle) (held : (s.cache.buf i).lock = some p) (data : Block) :
    (s.cache.setBuf i { s.cache.buf i with data := data, dirty := true }).Coherent s.log.area.dev
      { b | b ∈ s.log.lh ∨ b = (s.cache.buf i).blockno } := by
  have hc := h.coherent
  rw [pinned_idle hidle] at hc
  have hok := hc.bufs i
  have hdev : (s.cache.buf i).dev = s.log.area.dev := hok.held (by simp [held])
  refine hc.setBuf ?_ ?_ ?_ ?_
  · exact {
      refs := hok.refs
      held := hok.held
      foreign := fun hd => absurd hdev hd
      valid := hok.valid
      bound := hok.bound
      clean := by simp
      dirty := by simp }
  · intro j hj
    have hok' := hc.bufs j
    refine { hok' with dirty := fun hd => ?_ }
    have hne : (s.cache.buf j).blockno ≠ (s.cache.buf i).blockno :=
      fun e => hj (hc.unique ⟨hd, e⟩ ⟨hdev, rfl⟩)
    simpa [hne] using hok'.dirty hd
  · intro _ j hj hcj
    exact hj (hc.unique hcj ⟨hdev, rfl⟩)
  · rintro b (hb | rfl)
    · obtain ⟨j, hj⟩ := hc.pins hb
      by_cases hji : j = i
      · subst hji
        exact .inl hj
      · exact .inr ⟨j, hji, hj⟩
    · exact .inl ⟨hdev, rfl⟩

theorem Storage.Inv.step_inv (h : s.Inv) (hstep : s.Stepped op s') (hallowed : op.Allowed s) :
    s'.Inv := by
  cases hstep with
  | bread fetch => exact h.setCache (fetch.coherent h.coherent) (fetch.view h.coherent)
  | brelse held => exact h.setCache (h.coherent.released _) (h.coherent.view_released held)
  | logWrite small room inside =>
    rename_i p i data
    obtain ⟨held, outside⟩ := hallowed
    have hrun : s.log.committing = false := by
      by_contra hc
      have := h.alone (by simpa using hc)
      omega
    have hok := h.coherent.bufs i
    refine .of_idle (h.idle hrun) (by simpa [Log.absorb_eq] using hrun) ?_
      (Log.absorb_logs h.entries outside (hok.bound (hok.held (by simp [held]))) small room)
    have hc := h.coherent_logWrite (h.idle hrun) held data
    have hset : { b | b ∈ (s.log.absorb (s.cache.buf i).blockno).lh } =
        { b | b ∈ s.log.lh ∨ b = (s.cache.buf i).blockno } := Set.ext fun _ => Log.mem_absorb
    exact hset ▸ hc
  | beginOp running room =>
    have hidle := h.idle running
    exact .of_idle hidle running (pinned_idle hidle ▸ h.coherent) h.entries
  | endOp running more =>
    have hidle := h.idle running
    exact .of_idle hidle running (pinned_idle hidle ▸ h.coherent) h.entries
  | lastOp running last =>
    have hc := h.coherent
    rw [pinned_idle (h.idle running)] at hc
    by_cases hn : 0 < s.log.lh.length
    · simp only [hn, if_true]
      exact {
        coherent := hc
        entries := h.entries
        committing := by simp
        alone := by simp
        copies := by simp [hn]
        installs := by simp
        finished := by simp
        running := by simp }
    · simp only [hn, if_false]
      exact {
        coherent := hc
        entries := h.entries
        committing := by simp
        alone := by simp
        copies := by simp
        installs := by simp
        finished := fun _ _ => List.eq_nil_of_length_eq_zero (Nat.eq_zero_of_not_pos hn)
        running := by simp }
  | writeLog pc todo wrote =>
    rename_i p tail c
    have hcommit := h.committing.mpr (by simp [pc])
    obtain ⟨hn, htail, hcopies⟩ := h.copies p tail pc
    have hc := wrote.coherent_of_holds h.entries (copy_holds h.entries todo)
    exact {
      coherent := by
        simp only [Storage.pinned, pc] at hc ⊢
        exact hc
      entries := h.entries
      committing := by simp [hcommit]
      alone := h.alone
      copies := by
        rintro _ _ ⟨rfl, rfl⟩
        refine ⟨hn, todo, fun j hj => ?_⟩
        have hj' : j < s.log.lh.length := by omega
        show c.view _ (s.copy j) = c.view _ (s.home j)
        rw [wrote.view, update_of_ne (home_ne_copy h.entries hj' todo)]
        by_cases hjt : j = tail
        · subst hjt
          rw [update_self]
        · rw [update_of_ne (by unfold Storage.copy; omega), hcopies j (by omega)]
      installs := by simp
      finished := by simp
      running := by simp }
  | commit pc done wrote =>
    rename_i p tail c
    have hcommit := h.committing.mpr (by simp [pc])
    obtain ⟨hn, htail, hcopies⟩ := h.copies p tail pc
    obtain rfl : tail = s.log.lh.length := by omega
    have hstart := s.log.area.start_holds
    have hc := wrote.coherent_of_holds h.entries hstart
    exact {
      coherent := by
        simp only [Storage.pinned, pc] at hc
        simpa [Storage.pinned, hcommit] using hc
      entries := h.entries
      committing := by simp [hcommit]
      alone := h.alone
      copies := by simp
      installs := by
        rintro _ _ ⟨rfl, rfl⟩
        refine ⟨Nat.zero_le _, fun j hj => ?_⟩
        have hhome : s.home j ≠ s.log.area.start := fun e =>
          h.entries.outside _ (home_mem hj) (e ▸ hstart)
        show c.view _ (s.copy j) = c.view _ (s.home j)
        rw [wrote.view, update_of_ne hhome,
          update_of_ne (by unfold Storage.copy; omega), hcopies j hj]
      finished := by simp
      running := by simp }
  | install pc todo wrote =>
    rename_i p tail c
    have hcommit := h.committing.mpr (by simp [pc])
    obtain ⟨htail, hcopies⟩ := h.installs p tail pc
    exact {
      coherent := by
        have hc := Bcache.Wrote.coherent wrote
        simp only [Storage.pinned, pc, hcommit, if_true, drop_eq_cons todo] at hc ⊢
        rwa [pinned_rest h.entries todo] at hc
      entries := h.entries
      committing := by simp [hcommit]
      alone := h.alone
      copies := by simp
      installs := by
        rintro _ _ ⟨rfl, rfl⟩
        refine ⟨todo, fun j hj => ?_⟩
        show c.view _ (s.copy j) = c.view _ (s.home j)
        rw [wrote.view, update_of_ne (home_ne_copy h.entries todo hj).symm,
          hcopies tail todo, update_eq_self, hcopies j hj]
      finished := by simp
      running := by simp }
  | clear pc done wrote =>
    rename_i p tail c
    have hcommit := h.committing.mpr (by simp [pc])
    have hc := wrote.coherent_of_holds h.entries s.log.area.start_holds
    simp only [hcommit, if_true]
    exact {
      coherent := by
        simp only [Storage.pinned, pc, hcommit, if_true, List.drop_eq_nil_of_le done] at hc
        simpa [Storage.pinned] using hc
      entries := ⟨List.nodup_nil, by simp, by simp, by simp, s.log.area.header⟩
      committing := by simp
      alone := fun _ => h.alone hcommit
      copies := by simp
      installs := by simp
      finished := by simp
      running := by simp }
  | finish pc =>
    have hc := h.coherent
    simp only [Storage.pinned, pc] at hc
    exact .of_idle rfl rfl hc h.entries
  | readHead pc => exact absurd pc (h.running _)

/-- What an operation shows on the outside: the block it logs, the blocks it writes. -/
inductive Event where
  | logged (b : Nat) (data : Block)
  | wrote (w : Write)

def Storage.events (s : Storage) (op : Op) (s' : Storage) : List Event :=
  (match op with
    | .logWrite _ i data => [.logged (s.cache.buf i).blockno data]
    | _ => []) ++
  (s'.cache.drives.writes.drop s.cache.drives.writes.length).map .wrote

/-- A step is silent, logs one block outside the log, or writes one block. A block
outside the log is written as it reads. -/
inductive Storage.Effect (s s' : Storage) : List Event → Prop where
  | silent (drives : s'.cache.drives = s.cache.drives) (view : s'.view = s.view) : Effect s s' []
  | logs {b : Nat} {data : Block} (outside : ¬ s.log.area.Holds b)
      (drives : s'.cache.drives = s.cache.drives) (view : s'.view = update s.view b data) :
      Effect s s' [.logged b data]
  | writes {b : Nat} {data : Block} (same : ¬ s.log.area.Holds b → data = s.view b)
      (drives : s'.cache.drives = s.cache.drives.put ⟨s.log.area.dev, b, data⟩)
      (view : s'.view = update s.view b data) :
      Effect s s' [.wrote ⟨s.log.area.dev, b, data⟩]

theorem Storage.events_silent (hop : ∀ p i data, op ≠ .logWrite p i data)
    (hd : s'.cache.drives = s.cache.drives) : s.events op s' = [] := by
  cases op with
  | logWrite p i data => exact absurd rfl (hop p i data)
  | _ => simp [Storage.events, hd]

theorem Storage.events_writes (hw : s.Writes s'.cache b data) :
    s.events .advance s' = [.wrote ⟨s.log.area.dev, b, data⟩] := by
  simp [Storage.events, Bcache.Wrote.drives hw, Drives.put]

theorem Storage.Effect.of_view (hop : ∀ p i data, op ≠ .logWrite p i data)
    (hes : es = s.events op s') (hd : s'.cache.drives = s.cache.drives) (hv : s'.view = s.view) :
    s.Effect s' es := by
  rw [hes, events_silent hop hd]
  exact .silent hd hv

theorem Storage.Effect.of_writes (hw : s.Writes s'.cache b data) (harea : s'.log.area = s.log.area)
    (hes : es = s.events .advance s') (hsame : ¬ s.log.area.Holds b → data = s.view b) :
    s.Effect s' es := by
  rw [hes, events_writes hw]
  refine .writes hsame (Bcache.Wrote.drives hw) ?_
  rw [← hw.view, ← harea]
  rfl

theorem Storage.Inv.effect (h : s.Inv) (hstep : s.Stepped op s') (hallowed : op.Allowed s) :
    s.Effect s' (s.events op s') := by
  have hc := h.coherent
  obtain ⟨es, hes⟩ : ∃ es, es = s.events op s' := ⟨_, rfl⟩
  rw [← hes]
  cases hstep with
  | bread fetch => exact .of_view (by simp) hes rfl (fetch.view hc)
  | brelse held => exact .of_view (by simp) hes rfl (hc.view_released held)
  | logWrite small room inside =>
    rename_i p i data
    have hc' := (h.step_inv (.logWrite small room inside) hallowed).coherent
    have hi : s.cache.Caches s.log.area.dev (s.cache.buf i).blockno i :=
      ⟨(hc.bufs i).held (by simp [hallowed.1]), rfl⟩
    have : es = [.logged (s.cache.buf i).blockno data] := by
      simp [hes, Storage.events]
    rw [this]
    refine .logs hallowed.2 rfl ?_
    have hv := hc.view_replace hc' hi (Bcache.caches_setBuf.mpr (.inl ⟨rfl, hi⟩))
      (fun j hj => Bcache.setBuf_of_ne hj) fun _ _ => rfl
    rwa [Bcache.setBuf_self] at hv
  | beginOp running room => exact .of_view (by simp) hes rfl rfl
  | endOp running more => exact .of_view (by simp) hes rfl rfl
  | lastOp running last => exact .of_view (by simp) hes rfl rfl
  | writeLog pc todo wrote =>
    exact .of_writes wrote rfl hes fun hb => absurd (copy_holds h.entries todo) hb
  | commit pc done wrote =>
    exact .of_writes wrote rfl hes fun hb => absurd s.log.area.start_holds hb
  | install pc todo wrote =>
    exact .of_writes wrote rfl hes fun _ => (h.installs _ _ pc).2 _ todo
  | clear pc done wrote =>
    exact .of_writes wrote rfl hes fun hb => absurd s.log.area.start_holds hb
  | finish pc => exact .of_view (by simp) hes rfl rfl
  | readHead pc => exact absurd pc (h.running _)

end

end Xv6
