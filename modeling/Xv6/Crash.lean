import Xv6.StorageRuns

/-!
Crashes. What recovery makes of a block depends on the drives alone: the copy in the log
if the header on the disk names the block, and the block itself if it does not. Each
write of `commit` and of `recover_from_log` keeps that, except the one header write that
commits a transaction.
-/

namespace Xv6

open Drives Storage

variable {g : LogArea} {es es' : List Event} {s0 : Storage}

def Drives.header (d : Drives) (g : LogArea) : List Nat := (d.read g.dev g.start).header

/-- What a block becomes when the log on the disk is replayed. -/
def Drives.replay (d : Drives) (g : LogArea) (b : Nat) : Block :=
  if b ∈ d.header g then d.read g.dev (g.start + (d.header g).idxOf b + 1) else d.read g.dev b

/-- The log on the disk is well formed, and replayed it gives `target`. -/
structure Drives.Durable (d : Drives) (g : LogArea) (target : Nat → Block) : Prop where
  logs : g.Logs (d.header g)
  replay : ∀ b, ¬ g.Holds b → d.replay g b = target b

/-- Recovery has read the header and installed the first `tail` blocks. -/
structure Storage.Installing (s : Storage) (target : Nat → Block) (tail : Nat) : Prop where
  coherent : s.cache.Coherent s.log.area.dev ∅
  quiet : s.cache.Quiet
  header : s.log.lh = s.cache.drives.header s.log.area
  durable : s.cache.drives.Durable s.log.area target
  bound : tail ≤ s.log.lh.length
  installed : ∀ j < tail, s.disk (s.home j) = s.disk (s.copy j)

section
variable {d : Drives} {g : LogArea} {target : Nat → Block} {b tail : Nat} {data : Block}

theorem Drives.header_put_of_ne (d : Drives) (h : b ≠ g.start) (data : Block) :
    (d.put ⟨g.dev, b, data⟩).header g = d.header g := by
  rw [Drives.header, read_put_of_ne _ _ _ h.symm, Drives.header]

theorem Drives.header_put_start : (d.put ⟨g.dev, g.start, data⟩).header g = data.header := by
  rw [Drives.header, read_put_self]

theorem LogArea.Logs.copy_holds {lh : List Nat} {j : Nat} (h : g.Logs lh) (hj : j < lh.length) :
    g.Holds (g.start + j + 1) := by
  have := h.room
  unfold LogArea.Holds
  omega

theorem Drives.replay_cleared (h : d.header g = []) : d.replay g b = d.read g.dev b := by
  simp [Drives.replay, h]

theorem Drives.Durable.put (h : d.Durable g target) (hb : b ∈ d.header g) (data : Block) :
    (d.put ⟨g.dev, b, data⟩).Durable g target := by
  have hout := h.logs.outside b hb
  have hstart : b ≠ g.start := fun e => hout (e ▸ g.start_holds)
  have hheader := d.header_put_of_ne hstart data
  refine ⟨hheader ▸ h.logs, fun b' hb' => ?_⟩
  rw [← h.replay b' hb', Drives.replay, Drives.replay, hheader]
  by_cases hm : b' ∈ d.header g
  · have hcopy := h.logs.copy_holds (List.idxOf_lt_length_iff.mpr hm)
    have hne : g.start + (d.header g).idxOf b' + 1 ≠ b := fun e => hout (e ▸ hcopy)
    rw [if_pos hm, if_pos hm, read_put_of_ne _ _ _ hne]
  · have hne : b' ≠ b := fun e => hm (e ▸ hb)
    rw [if_neg hm, if_neg hm, read_put_of_ne _ _ _ hne]

theorem Drives.Durable.clear (h : d.Durable g target)
    (hall : ∀ j < (d.header g).length, d.read g.dev ((d.header g).getD j 0) = d.read g.dev (g.start + j + 1)) :
    (d.put ⟨g.dev, g.start, (d.read g.dev g.start).setHeader []⟩).Durable g target ∧
      (d.put ⟨g.dev, g.start, (d.read g.dev g.start).setHeader []⟩).header g = [] := by
  have hheader : (d.put ⟨g.dev, g.start, (d.read g.dev g.start).setHeader []⟩).header g = [] := by
    rw [header_put_start, Block.header_setHeader _ (by simp)]
  refine ⟨⟨?_, fun b hb => ?_⟩, hheader⟩
  · rw [hheader]
    exact ⟨List.nodup_nil, by simp, by simp, by simp, g.header⟩
  have hstart : b ≠ g.start := fun e => hb (e ▸ g.start_holds)
  rw [replay_cleared hheader, read_put_of_ne _ _ _ hstart, ← h.replay b hb,
    Drives.replay]
  by_cases hbm : b ∈ d.header g
  · have hlt := List.idxOf_lt_length_iff.mpr hbm
    have := hall _ hlt
    rw [List.getD_eq_getElem _ _ hlt, List.getElem_idxOf hlt] at this
    rw [if_pos hbm, this]
  · rw [if_neg hbm]

end

section
variable {s s' : Storage} {target : Nat → Block} {p tail : Nat} {c : Bcache}

theorem Storage.Installing.view (h : s.Installing target tail) (b : Nat) : s.view b = s.disk b :=
  h.coherent.view_unpinned (Set.notMem_empty b)

theorem Storage.Installing.step (h : s.Installing target tail) (htail : tail < s.log.lh.length)
    (hw : s.cache.Wrote c s.log.area.dev ∅ (s.home tail) (s.view (s.copy tail))) :
    { s with cache := c }.Installing target (tail + 1) := by
  have hlogs : s.log.area.Logs s.log.lh := h.header ▸ h.durable.logs
  have hdrives := hw.drives
  rw [h.view] at hdrives
  have hne : ∀ j < s.log.lh.length, s.copy j ≠ s.home tail := fun j hj =>
    (home_ne_copy hlogs htail hj).symm
  have hhead : c.drives.header s.log.area = s.cache.drives.header s.log.area := by
    rw [hdrives]
    refine header_put_of_ne _ (fun e => ?_) _
    exact hlogs.outside _ (home_mem htail) (e ▸ s.log.area.start_holds)
  exact {
    coherent := by simpa using hw.coherent
    quiet := hw.quiet h.quiet
    header := h.header.trans hhead.symm
    durable := by
      show c.drives.Durable s.log.area target
      rw [hdrives]
      exact h.durable.put (h.header ▸ home_mem htail) _
    bound := htail
    installed := by
      intro j hj
      have hj' : j < s.log.lh.length := by omega
      show c.drives.read _ (s.home j) = c.drives.read _ (s.copy j)
      rw [hdrives, read_put_of_ne _ _ _ (hne j hj')]
      by_cases hjt : j = tail
      · subst hjt
        rw [read_put_self]
        rfl
      · have hhome : s.home j ≠ s.home tail := fun e => hjt (home_inj hlogs hj' htail e)
        rw [read_put_of_ne _ _ _ hhome]
        exact h.installed j (by omega) }

theorem Storage.Installing.clear (h : s.Installing target tail) (htail : s.log.lh.length ≤ tail)
    (hw : s.cache.Wrote c s.log.area.dev ∅ s.log.area.start
      ((s.view s.log.area.start).setHeader [])) :
    c.drives.Durable s.log.area target ∧ c.drives.header s.log.area = [] := by
  rw [hw.drives, h.view]
  refine h.durable.clear fun j hj => ?_
  rw [← h.header] at hj ⊢
  exact h.installed j (by omega)

theorem Storage.crash_coherent (s : Storage) (p : Nat) :
    (s.crash p).cache.Coherent s.log.area.dev ∅ ∧ (s.crash p).cache.Quiet :=
  ⟨binit_coherent _ s.log.area.device, fun _ => rfl⟩

theorem LogArea.start_lt (g : LogArea) : g.start < FSSIZE := by
  have := g.fits
  have := g.header
  omega

theorem readHead_installing (hc : s.cache.Coherent s.log.area.dev ∅) (hq : s.cache.Quiet)
    (hd : s.cache.drives.Durable s.log.area target) (h : readHead s p = .ok s') :
    s'.Installing target 0 ∧ s'.log.area = s.log.area := by
  obtain ⟨c', rfl, hc', hview, hdrives, hlocks⟩ := readHead_spec hc h
  refine ⟨?_, rfl⟩
  exact {
    coherent := hc'
    quiet := fun j => (hlocks j).trans (hq j)
    header := by
      show (s.cache.view _ _).header = c'.drives.header _
      rw [hc.view_unpinned (Set.notMem_empty _), hdrives]
      rfl
    durable := by
      show c'.drives.Durable _ _
      rw [hdrives]
      exact hd
    bound := Nat.zero_le _
    installed := by simp }

theorem installTrans_installing (n : Nat) (h : s.Installing target tail)
    (hn : s.log.lh.length = tail + n) :
    ∃ s', installTrans n tail s p = .ok s' ∧ s'.Installing target (tail + n) ∧ s'.log = s.log := by
  induction n generalizing s tail with
  | zero => exact ⟨s, rfl, h, rfl⟩
  | succ n ih =>
    have htail : tail < s.log.lh.length := by omega
    have hlogs : s.log.area.Logs s.log.lh := h.header ▸ h.durable.logs
    have hcopy := copy_holds hlogs htail
    have hfits := s.log.area.fits
    have hlt : s.log.area.start + tail + 1 < FSSIZE := lt_of_lt_of_le hcopy.2 hfits
    obtain ⟨s1, h1⟩ := installBody_total (p := p) h.coherent h.quiet hlt
      (hlogs.bound _ (home_mem htail)) (home_ne_copy hlogs htail htail)
    obtain ⟨c, rfl, hw⟩ := copyTail_spec h.coherent h1
    obtain ⟨s', hrun, hs', hlog⟩ := ih (h.step htail hw) (by simp only; omega)
    refine ⟨s', Lib.bind_eq_ok.mpr ⟨_, h1, hrun⟩, ?_, hlog⟩
    rwa [show tail + (n + 1) = tail + 1 + n by omega]

theorem recoverFromLog_spec (hc : s.cache.Coherent s.log.area.dev ∅) (hq : s.cache.Quiet)
    (hd : s.cache.drives.Durable s.log.area target) :
    ∃ s', recoverFromLog s p = .ok s' ∧ ∀ b, ¬ s.log.area.Holds b → s'.disk b = target b := by
  obtain ⟨s1, h1⟩ := readHead_total (p := p) hc hq s.log.area.start_lt
  obtain ⟨hs1, harea⟩ := readHead_installing hc hq hd h1
  obtain ⟨s2, h2, hs2, hlog⟩ := installTrans_installing (p := p) s1.log.lh.length hs1 (by simp)
  obtain ⟨s3, h3⟩ := writeHead_total (s := s2.clear) (p := p) hs2.coherent hs2.quiet
    s2.log.area.start_lt
  obtain ⟨c, rfl, hw⟩ := writeHead_spec (s := s2.clear) hs2.coherent h3
  have hlen : s2.log.lh.length ≤ 0 + s1.log.lh.length := by simp [hlog]
  obtain ⟨hdur, hhead⟩ := hs2.clear hlen hw
  rw [hlog, harea] at hdur hhead
  refine ⟨_, Lib.bind_eq_ok.mpr ⟨_, h1, Lib.bind_eq_ok.mpr ⟨_, h2, Lib.bind_eq_ok.mpr ⟨_, h3, rfl⟩⟩⟩,
    fun b hb => ?_⟩
  rw [← hdur.replay b hb, replay_cleared hhead, ← harea, ← hlog]
  rfl

/-! ### Recovery that may be cut short -/

/-- One statement of recovery, or another crash. -/
def Storage.Recovers (s : Storage) (_ : Unit) (s' : Storage) : Prop :=
  s.advance = .ok s' ∨ ∃ p, s' = s.crash p

structure Storage.Recovering (s : Storage) (g : LogArea) (target : Nat → Block) : Prop where
  place : s.log.area = g
  coherent : s.cache.Coherent g.dev ∅
  quiet : s.cache.Quiet
  running : s.log.committing = false
  durable : s.cache.drives.Durable g target
  installing : ∀ p tail, s.pc = .install p tail → s.Installing target tail
  phase : s.pc = .idle ∨ (∃ p, s.pc = .readHead p) ∨ ∃ p tail, s.pc = .install p tail

theorem Storage.crash_recovering (hplace : s.log.area = g) (hd : s.cache.drives.Durable g target)
    (p : Nat) : (s.crash p).Recovering g target := by
  subst hplace
  obtain ⟨hc, hq⟩ := s.crash_coherent p
  exact {
    place := rfl
    coherent := hc
    quiet := hq
    running := rfl
    durable := hd
    installing := by simp [Storage.crash]
    phase := .inr (.inl ⟨p, rfl⟩) }

theorem Storage.Recovering.step {u : Unit} (h : s.Recovering g target) (hstep : s.Recovers u s') :
    s'.Recovering g target := by
  obtain hstep | ⟨p, rfl⟩ := hstep
  swap
  · exact crash_recovering h.place h.durable p
  obtain ⟨rfl, hc, hq, hrun, hd, hinst, hphase⟩ := h
  have hpin : s.pinned = ∅ := by
    rcases hphase with hpc | ⟨p, hpc⟩ | ⟨p, tail, hpc⟩
    · simp [Storage.advance, hpc, throw, throwThe, MonadExceptOf.throw] at hstep
    · simp [Storage.pinned, hpc]
    · simp [Storage.pinned, hpc, hrun]
  have hs : s.Stepped .advance s' := perform_stepped (hpin ▸ hc) hstep
  rcases hphase with hpc | ⟨p, hpc⟩ | ⟨p, tail, hpc⟩
  · simp [Storage.advance, hpc, throw, throwThe, MonadExceptOf.throw] at hstep
  · cases hs with
    | readHead pc hc' hview hdrives hlocks =>
      rename_i q c
      have hinst : Storage.Installing { s with
          cache := c
          log := { s.log with lh := (s.view s.log.area.start).header }
          pc := .install q 0 } target 0 := {
        coherent := hpin ▸ hc'
        quiet := fun j => (hlocks j).trans (hq j)
        header := by
          show (s.cache.view _ _).header = c.drives.header _
          rw [hc.view_unpinned (Set.notMem_empty _), hdrives]
          rfl
        durable := by
          show c.drives.Durable _ _
          rw [hdrives]
          exact hd
        bound := Nat.zero_le _
        installed := by simp }
      exact {
        place := rfl
        coherent := hinst.coherent
        quiet := hinst.quiet
        running := hrun
        durable := hinst.durable
        installing := by
          rintro _ _ ⟨rfl, rfl⟩
          exact hinst
        phase := .inr (.inr ⟨_, _, rfl⟩) }
    | _ => simp_all
  · have hi := hinst p tail hpc
    cases hs with
    | install pc todo wrote =>
      rename_i q tail' c
      obtain ⟨rfl, rfl⟩ : p = q ∧ tail = tail' := by simpa [hpc] using pc
      have wrote' := wrote
      rw [Storage.Writes, hpin] at wrote'
      have hnext := hi.step todo wrote'
      exact {
        place := rfl
        coherent := hnext.coherent
        quiet := hnext.quiet
        running := hrun
        durable := hnext.durable
        installing := by
          rintro _ _ ⟨rfl, rfl⟩
          exact { hnext with }
        phase := .inr (.inr ⟨_, _, rfl⟩) }
    | clear pc done wrote =>
      rename_i q tail' c
      obtain ⟨rfl, rfl⟩ : p = q ∧ tail = tail' := by simpa [hpc] using pc
      have wrote' := wrote
      rw [Storage.Writes, hpin] at wrote'
      obtain ⟨hdur, -⟩ := hi.clear done wrote'
      simp only [hrun, Bool.false_eq_true, if_false]
      exact {
        place := rfl
        coherent := by simpa using wrote'.coherent
        quiet := wrote'.quiet hq
        running := rfl
        durable := hdur
        installing := by simp
        phase := .inl rfl }
    | _ => simp_all

/-! ### The commit point -/

/-- The header on the disk is empty but while a transaction is installed. -/
def Storage.HeaderOk (s : Storage) : Prop :=
  match s.pc with
  | .install _ _ => s.cache.drives.header s.log.area = s.log.lh
  | _ => s.cache.drives.header s.log.area = []

theorem Storage.HeaderOk.of_drives (h : s.HeaderOk) (hd : s'.cache.drives = s.cache.drives)
    (harea : s'.log.area = s.log.area) (hpc : ∀ p tail, s.pc ≠ .install p tail)
    (hpc' : ∀ p tail, s'.pc ≠ .install p tail) : s'.HeaderOk := by
  have hhead : s.cache.drives.header s.log.area = [] := by
    unfold Storage.HeaderOk at h
    split at h
    · rename_i p tail e
      exact absurd e (hpc p tail)
    · exact h
  unfold Storage.HeaderOk
  split
  · rename_i p tail e
    exact absurd e (hpc' p tail)
  · rw [hd, harea, hhead]

theorem Storage.HeaderOk.step {op : Op} (h : s.HeaderOk) (hinv : s.Inv) (hs : s.Stepped op s') :
    s'.HeaderOk := by
  have hput : ∀ {c b data}, s.Writes c b data → b ≠ s.log.area.start →
      c.drives.header s.log.area = s.cache.drives.header s.log.area := by
    intro c b data hw hb
    rw [Bcache.Wrote.drives hw]
    exact header_put_of_ne _ hb _
  have hcopy : ∀ tail, s.copy tail ≠ s.log.area.start := fun tail => by
    unfold Storage.copy
    omega
  cases hs with
  | bread fetch => exact h
  | brelse held => exact h
  | logWrite small room inside =>
    have hidle : s.pc = .idle := by
      apply hinv.idle
      by_contra hc
      have := hinv.alone (by simpa using hc)
      omega
    exact h.of_drives rfl (by simp [Log.absorb_eq]) (by simp [hidle]) (by simp [hidle])
  | beginOp running room => exact h
  | endOp running more => exact h
  | lastOp running last =>
    have hidle := hinv.idle running
    refine h.of_drives rfl rfl (by simp [hidle]) ?_
    intro p tail
    dsimp only
    split
    · simp
    · simp
  | writeLog pc todo wrote =>
    unfold Storage.HeaderOk at h ⊢
    simp only [pc] at h
    exact (hput wrote (hcopy _)).trans h
  | commit pc done wrote =>
    unfold Storage.HeaderOk
    show Drives.header _ _ = _
    rw [Bcache.Wrote.drives wrote, header_put_start,
      Block.header_setHeader _ hinv.entries.small]
  | install pc todo wrote =>
    unfold Storage.HeaderOk at h ⊢
    simp only [pc] at h
    refine (hput wrote ?_).trans h
    exact fun e => hinv.entries.outside _ (home_mem todo) (e ▸ s.log.area.start_holds)
  | clear pc done wrote =>
    have hcommit := hinv.committing.mpr (by simp [pc])
    simp only [hcommit, if_true]
    unfold Storage.HeaderOk
    show Drives.header _ _ = _
    rw [Bcache.Wrote.drives wrote, header_put_start, Block.header_setHeader _ (by simp)]
  | finish pc => exact h.of_drives rfl rfl (by simp [pc]) (by simp)
  | readHead pc => exact absurd pc (hinv.running _)

theorem Storage.HeaderOk.durable_install (h : s.HeaderOk) (hinv : s.Inv)
    (hpc : s.pc = .install p tail) : s.cache.drives.Durable s.log.area s.view := by
  have hhead : s.cache.drives.header s.log.area = s.log.lh := by
    simpa [Storage.HeaderOk, hpc] using h
  refine ⟨hhead ▸ hinv.entries, fun b hb => ?_⟩
  rw [Drives.replay, hhead]
  by_cases hm : b ∈ s.log.lh
  · have hlt := List.idxOf_lt_length_iff.mpr hm
    have hhome : s.home (s.log.lh.idxOf b) = b := by
      rw [Storage.home, List.getD_eq_getElem _ _ hlt, List.getElem_idxOf hlt]
    have hout : s.copy (s.log.lh.idxOf b) ∉ s.log.lh := fun hin =>
      hinv.entries.outside _ hin (copy_holds hinv.entries hlt)
    have hcopy := (hinv.installs p tail hpc).2 _ hlt
    rw [hhome, hinv.view_eq_disk hout] at hcopy
    rw [if_pos hm, ← hcopy]
    rfl
  · rw [if_neg hm, hinv.view_eq_disk hm]
    rfl

theorem Storage.HeaderOk.durable_cleared (h : s.HeaderOk) (hpc : ∀ p tail, s.pc ≠ .install p tail) :
    s.cache.drives.Durable s.log.area s.disk := by
  have hhead : s.cache.drives.header s.log.area = [] := by
    unfold Storage.HeaderOk at h
    split at h
    · rename_i p tail e
      exact absurd e (hpc p tail)
    · exact h
  refine ⟨?_, fun b _ => replay_cleared hhead⟩
  rw [hhead]
  exact ⟨List.nodup_nil, by simp, by simp, by simp, s.log.area.header⟩

def Committed (g : LogArea) (es : List Event) : Prop :=
  ∃ w, .wrote w ∈ es ∧ w.blockno = g.start ∧ w.data.header ≠ []

structure Storage.Commits (s0 : Storage) (es : List Event) (s : Storage) : Prop where
  inv : s.Inv
  head : s.HeaderOk
  place : s.log.area = s0.log.area
  view : ∀ b, ¬ s0.log.area.Holds b → s.view b = s0.view b
  before : ¬ Committed s0.log.area es → (∃ p tail, s.pc = .writeLog p tail) ∧
    ∀ b, ¬ s0.log.area.Holds b → s.disk b = s0.disk b
  after : Committed s0.log.area es → (∃ p tail, s.pc = .install p tail) ∨
    s.log.lh = [] ∧ ∀ p tail, s.pc ≠ .writeLog p tail

theorem Committed.append (h : Committed g es) : Committed g (es ++ es') := by
  obtain ⟨w, hw, hrest⟩ := h
  exact ⟨w, List.mem_append_left _ hw, hrest⟩

theorem committed_append_other {w : Write} (hw : w.blockno ≠ g.start) :
    Committed g (es ++ [.wrote w]) ↔ Committed g es := by
  constructor
  · rintro ⟨w', hw', hstart, hhead⟩
    rcases List.mem_append.mp hw' with hw' | hw'
    · exact ⟨w', hw', hstart, hhead⟩
    · obtain rfl : w' = w := by simpa using hw'
      exact absurd hstart hw
  · exact Committed.append

theorem Storage.Commits.step (h : s0.Commits es s) (hpc : s.pc ≠ .idle) (hstep : s.Step es' s') :
    s0.Commits (es ++ es') s' := by
  obtain ⟨op, hallowed, hrun, hes⟩ := hstep
  have hinv := h.inv
  have hcommit := hinv.committing.mpr hpc
  have halone := hinv.alone hcommit
  have hs := perform_stepped hinv.coherent hrun
  have hinv' := hinv.step_inv hs hallowed
  have hhead' := h.head.step hinv hs
  have hplace' := (stepped_area hs).trans h.place
  have hpast : (∀ p tail, s.pc ≠ .writeLog p tail) → Committed s0.log.area es := by
    intro hno
    by_contra hnot
    obtain ⟨⟨q, t, hq⟩, -⟩ := h.before hnot
    exact hno q t hq
  have hsame : ∀ {c x data}, s.Writes c x data → (¬ s.log.area.Holds x → data = s.view x) →
      ∀ b, ¬ s0.log.area.Holds b → c.view s.log.area.dev b = s0.view b := by
    intro c x data hw hdata b hb
    rw [hw.view, ← h.view b hb]
    by_cases hbx : b = x
    · subst hbx
      rw [Function.update_self, hdata (h.place ▸ hb)]
    · rw [Function.update_of_ne hbx]
  cases hs with
  | bread fetch =>
    rw [hes.trans (events_silent (by simp) rfl), List.append_nil]
    exact ⟨hinv', hhead', hplace',
      fun b hb => (congrFun (fetch.view hinv.coherent) b).trans (h.view b hb), h.before, h.after⟩
  | brelse held =>
    rw [hes.trans (events_silent (by simp) rfl), List.append_nil]
    exact ⟨hinv', hhead', hplace',
      fun b hb => (congrFun (hinv.coherent.view_released held) b).trans (h.view b hb), h.before,
      h.after⟩
  | logWrite small room inside => omega
  | beginOp running room => simp [hcommit] at running
  | endOp running more => simp [hcommit] at running
  | lastOp running last => simp [hcommit] at running
  | writeLog pc todo wrote =>
    rename_i p tail c
    have hholds := copy_holds hinv.entries todo
    have hstart : s.copy tail ≠ s0.log.area.start := by
      unfold Storage.copy
      rw [h.place]
      omega
    rw [hes, events_writes wrote]
    refine ⟨hinv', hhead', hplace', hsame wrote fun hb => absurd hholds hb, ?_, ?_⟩
    · intro hnot
      rw [committed_append_other hstart] at hnot
      refine ⟨⟨p, _, rfl⟩, fun b hb => ?_⟩
      have hne : b ≠ s.copy tail := fun e => hb (h.place ▸ e ▸ hholds)
      rw [← (h.before hnot).2 b hb, Storage.disk]
      show c.drives.read _ b = _
      rw [Bcache.Wrote.drives wrote, read_put_of_ne _ _ _ hne]
      rfl
    · intro hcom
      rw [committed_append_other hstart] at hcom
      rcases h.after hcom with ⟨q, t, hq⟩ | ⟨-, hno⟩
      · simp [pc] at hq
      · exact absurd pc (hno p tail)
  | commit pc done wrote =>
    rename_i p tail c
    rw [hes, events_writes wrote]
    have hcom : Committed s0.log.area (es ++ [.wrote ⟨s.log.area.dev, s.log.area.start,
        (s.view s.log.area.start).setHeader s.log.lh⟩]) := by
      refine ⟨_, List.mem_append_right _ (List.mem_singleton_self _), by rw [h.place], ?_⟩
      rw [Block.header_setHeader _ hinv.entries.small]
      exact List.ne_nil_of_length_pos (hinv.copies p tail pc).1
    exact ⟨hinv', hhead', hplace', hsame wrote fun hb => absurd s.log.area.start_holds hb,
      fun hnot => absurd hcom hnot, fun _ => .inl ⟨p, 0, rfl⟩⟩
  | install pc todo wrote =>
    rename_i p tail c
    have hcom := hpast (by simp [pc])
    exact ⟨hinv', hhead', hplace', hsame wrote fun _ => (hinv.installs p tail pc).2 _ todo,
      fun hnot => absurd hcom.append hnot, fun _ => .inl ⟨p, _, rfl⟩⟩
  | clear pc done wrote =>
    rename_i p tail c
    have hcom := hpast (by simp [pc])
    refine ⟨hinv', hhead', hplace', hsame wrote fun hb => absurd s.log.area.start_holds hb,
      fun hnot => absurd hcom.append hnot, fun _ => .inr ⟨rfl, ?_⟩⟩
    simp [hcommit]
  | finish pc =>
    have hcom := hpast (by simp [pc])
    exact ⟨hinv', hhead', hplace', h.view, fun hnot => absurd hcom.append hnot,
      fun _ => .inr ⟨hinv.finished _ pc, by simp⟩⟩
  | readHead pc => exact absurd pc (hinv.running _)

/-- At any point of a commit, replay gives the blocks as they were before the
transaction or as they are after it. -/
theorem Storage.Commits.durable (h : s0.Commits es s) :
    (Committed s0.log.area es → s.cache.drives.Durable s0.log.area s0.view) ∧
      (¬ Committed s0.log.area es → s.cache.drives.Durable s0.log.area s0.disk) := by
  have hplace := h.place
  constructor
  · intro hcom
    rcases h.after hcom with ⟨p, tail, hpc⟩ | ⟨hlh, hpc⟩
    · have hd := h.head.durable_install h.inv hpc
      rw [hplace] at hd
      exact ⟨hd.logs, fun b hb => (hd.replay b hb).trans (h.view b hb)⟩
    by_cases hi : ∃ p tail, s.pc = .install p tail
    · obtain ⟨p, tail, hpc⟩ := hi
      have hd := h.head.durable_install h.inv hpc
      rw [hplace] at hd
      exact ⟨hd.logs, fun b hb => (hd.replay b hb).trans (h.view b hb)⟩
    · have hd := h.head.durable_cleared fun p tail hpc => hi ⟨p, tail, hpc⟩
      rw [hplace] at hd
      refine ⟨hd.logs, fun b hb => (hd.replay b hb).trans ?_⟩
      rw [← h.view b hb, h.inv.view_eq_disk (by simp [hlh])]
  · intro hnot
    obtain ⟨⟨p, tail, hpc⟩, hdisk⟩ := h.before hnot
    have hd := h.head.durable_cleared (by simp [hpc])
    rw [hplace] at hd
    exact ⟨hd.logs, fun b hb => (hd.replay b hb).trans (hdisk b hb)⟩

theorem Storage.run_headerOk {area : LogArea} {drives : Drives} {ess : List (List Event)}
    (hd : drives.header area = []) (h : Lib.Run Storage.Step (Storage.start area drives) ess s) :
    s.Inv ∧ s.HeaderOk ∧ s.log.area = area := by
  induction h with
  | refl => exact ⟨(start_tracks area drives).inv, hd, rfl⟩
  | snoc _ hstep ih =>
    obtain ⟨hinv, hhead, hplace⟩ := ih
    obtain ⟨op, hallowed, hrun, -⟩ := hstep
    have hs := perform_stepped hinv.coherent hrun
    exact ⟨hinv.step_inv hs hallowed, hhead.step hinv hs, (stepped_area hs).trans hplace⟩

theorem Storage.run_commits {cs : List (List Event)} (h0 : s0.Commits [] s0)
    (h : Lib.Run (Lib.When (fun s _ => s.pc ≠ .idle) Storage.Step) s0 cs s) :
    s0.Commits cs.flatten s := by
  induction h with
  | refl => exact h0
  | snoc _ hstep ih =>
    rw [List.flatten_append, List.flatten_singleton]
    exact ih.step hstep.1 hstep.2

/-- From a disk with an empty log any run leads to a commit; any part of it is carried
out, then there is a crash, and recovery may be cut short by crashes any number of
times. Recovery that runs to its end succeeds, and it leaves the blocks outside the log
as the transaction made them if a header with entries was written, and else as they
were on the disk before. -/
theorem commit_crash_atomic {area : LogArea} {drives : Drives} {ess cs : List (List Event)}
    {rs : List Unit} {s s1 s2 : Storage} {p q : Nat}
    (hempty : drives.header area = [])
    (hrun : Lib.Run Storage.Step (Storage.start area drives) ess s)
    (hpc : s.pc = .writeLog p 0)
    (hcommit : Lib.Run (Lib.When (fun s _ => s.pc ≠ .idle) Storage.Step) s cs s1)
    (hrecover : Lib.Run Storage.Recovers (s1.crash q) rs s2) (r : Nat) :
    ∃ s3, recoverFromLog (s2.crash r) r = .ok s3 ∧
      (Committed area cs.flatten → ∀ b, ¬ area.Holds b → s3.disk b = s.view b) ∧
      (¬ Committed area cs.flatten → ∀ b, ¬ area.Holds b → s3.disk b = s.disk b) := by
  obtain ⟨hinv, hhead, rfl⟩ := Storage.run_headerOk hempty hrun
  have hnone : ¬ Committed s.log.area [] := by
    rintro ⟨w, hw, -⟩
    simp at hw
  have hstart : s.Commits [] s :=
    ⟨hinv, hhead, rfl, fun _ _ => rfl, fun _ => ⟨⟨p, 0, hpc⟩, fun _ _ => rfl⟩,
      fun hcom => absurd hcom hnone⟩
  have hcommits := Storage.run_commits hstart hcommit
  obtain ⟨hafter, hbefore⟩ := hcommits.durable
  -- whichever it is, recovery keeps it through every crash and reaches it at the end
  have hrecovers : ∀ target, s1.cache.drives.Durable s.log.area target →
      ∃ s3, recoverFromLog (s2.crash r) r = .ok s3 ∧ ∀ b, ¬ s.log.area.Holds b → s3.disk b = target b := by
    intro target hd
    have hrec : s2.Recovering s.log.area target :=
      hrecover.invariant (Storage.Recovering · s.log.area target)
        (Storage.crash_recovering hcommits.place hd q) fun _ _ _ h hs => h.step hs
    obtain ⟨hc, hq⟩ := s2.crash_coherent r
    have hplace : (s2.crash r).log.area = s.log.area := hrec.place
    have hspec := recoverFromLog_spec (p := r) hc hq (hplace ▸ hrec.durable)
    rwa [hplace] at hspec
  by_cases hcom : Committed s.log.area cs.flatten
  · obtain ⟨s3, h3, hdisk⟩ := hrecovers s.view (hafter hcom)
    exact ⟨s3, h3, fun _ => hdisk, fun hnot => absurd hcom hnot⟩
  · obtain ⟨s3, h3, hdisk⟩ := hrecovers s.disk (hbefore hcom)
    exact ⟨s3, h3, fun h => absurd h hcom, fun _ => hdisk⟩

end

/-- The commit of block 40 is cut short at once: it has no effect. -/
theorem commit_crash_atomic_at_start :
    ∃ ess s, Lib.Run Storage.Step (Storage.start mkfsLog ⟨fun _ _ _ => 0, []⟩) ess s ∧
      s.pc = .writeLog 0 0 ∧ s.log.lh = [40] ∧
      ∃ s3, recoverFromLog ((s.crash 0).crash 0) 0 = .ok s3 ∧ s3.disk 40 = s.disk 40 := by
  obtain ⟨ess, s, hrun, -, hpc, hlog⟩ := exists_run_logging
  have hcommit : ∃ es, s.Step es { s with
      log := { s.log with outstanding := 0, committing := true }
      pc := .writeLog 0 0 } := by
    refine ⟨_, .endOp 0, ?_, ?_, rfl⟩
    · simp [Op.Allowed, hlog]
    · simp [Op.perform, Log.endOp, hlog, bind, Except.bind, pure, Except.pure]
  obtain ⟨es, hcommit⟩ := hcommit
  have hrun' := hrun.snoc hcommit
  obtain ⟨s3, h3, -, hbefore⟩ := commit_crash_atomic (q := 0) rfl hrun' rfl .refl .refl 0
  refine ⟨_, _, hrun', rfl, by simp [hlog], s3, h3, hbefore ?_ 40 (by decide)⟩
  rintro ⟨w, hw, -⟩
  simp at hw

end Xv6
