import Xv6.LogSpec

/-!
What one operation on the storage does, said once for all that is proved about runs.
The set of pinned blocks follows the log: a logged block is pinned until it is installed.
-/

namespace Xv6

open Lib

/-- The blocks whose newest contents are in the cache only. -/
def Storage.pinned (s : Storage) : Set Nat :=
  match s.pc with
  | .readHead _ => ∅
  | .install _ tail => if s.log.committing then { b | b ∈ s.log.lh.drop tail } else ∅
  | _ => { b | b ∈ s.log.lh }

def Storage.home (s : Storage) (tail : Nat) : Nat := s.log.lh.getD tail 0

def Storage.copy (s : Storage) (tail : Nat) : Nat := s.log.area.start + tail + 1

def Storage.view (s : Storage) (b : Nat) : Block := s.cache.view s.log.area.dev b

def Storage.disk (s : Storage) (b : Nat) : Block := s.cache.drives.read s.log.area.dev b

def Storage.Writes (s : Storage) (c : Bcache) (b : Nat) (data : Block) : Prop :=
  s.cache.Wrote c s.log.area.dev s.pinned b data

/-- The effects of the operations, with what each found. -/
inductive Storage.Stepped (s : Storage) : Op → Storage → Prop where
  | bread {p b : Nat} {i : Fin NBUF} {x : Buf}
      (fetch : s.cache.Fetch s.log.area.dev s.pinned p b i x) :
      Stepped s (.bread p b) { s with cache := s.cache.setBuf i x }
  | logWrite {p : Nat} {i : Fin NBUF} {data : Block}
      (small : s.log.lh.length < LOGSIZE) (room : s.log.lh.length + 1 < s.log.area.size)
      (inside : 0 < s.log.outstanding) :
      Stepped s (.logWrite p i data)
        { s with
          cache := s.cache.setBuf i { s.cache.buf i with data := data, dirty := true }
          log := s.log.absorb (s.cache.buf i).blockno }
  | brelse {p : Nat} {i : Fin NBUF} (held : (s.cache.buf i).lock = some p) :
      Stepped s (.brelse p i) { s with cache := s.cache.released i }
  | beginOp {p : Nat} (running : s.log.committing = false)
      (room : s.log.lh.length + (s.log.outstanding + 1) * MAXOPBLOCKS ≤ LOGSIZE) :
      Stepped s (.beginOp p) { s with log := { s.log with outstanding := s.log.outstanding + 1 } }
  | endOp {p : Nat} (running : s.log.committing = false) (more : s.log.outstanding - 1 ≠ 0) :
      Stepped s (.endOp p) { s with log := { s.log with outstanding := s.log.outstanding - 1 } }
  | lastOp {p : Nat} (running : s.log.committing = false) (last : s.log.outstanding - 1 = 0) :
      Stepped s (.endOp p)
        { s with
          log := { s.log with outstanding := 0, committing := true }
          pc := if 0 < s.log.lh.length then .writeLog p 0 else .finish p }
  | writeLog {p tail : Nat} {c : Bcache} (pc : s.pc = .writeLog p tail)
      (todo : tail < s.log.lh.length)
      (wrote : s.Writes c (s.copy tail) (s.view (s.home tail))) :
      Stepped s .advance { s with cache := c, pc := .writeLog p (tail + 1) }
  | commit {p tail : Nat} {c : Bcache} (pc : s.pc = .writeLog p tail)
      (done : s.log.lh.length ≤ tail)
      (wrote : s.Writes c s.log.area.start ((s.view s.log.area.start).setHeader s.log.lh)) :
      Stepped s .advance { s with cache := c, pc := .install p 0 }
  | install {p tail : Nat} {c : Bcache} (pc : s.pc = .install p tail)
      (todo : tail < s.log.lh.length)
      (wrote : s.Writes c (s.home tail) (s.view (s.copy tail))) :
      Stepped s .advance { s with cache := c, pc := .install p (tail + 1) }
  | clear {p tail : Nat} {c : Bcache} (pc : s.pc = .install p tail)
      (done : s.log.lh.length ≤ tail)
      (wrote : s.Writes c s.log.area.start ((s.view s.log.area.start).setHeader [])) :
      Stepped s .advance
        { s with
          cache := c
          log := { s.log with lh := [] }
          pc := if s.log.committing then .finish p else .idle }
  | finish {p : Nat} (pc : s.pc = .finish p) :
      Stepped s .advance { s with log := { s.log with committing := false }, pc := .idle }
  | readHead {p : Nat} {c : Bcache} (pc : s.pc = .readHead p)
      (coherent : c.Coherent s.log.area.dev s.pinned)
      (view : c.view s.log.area.dev = s.cache.view s.log.area.dev)
      (drives : c.drives = s.cache.drives)
      (locks : ∀ j, (c.buf j).lock = (s.cache.buf j).lock) :
      Stepped s .advance
        { s with
          cache := c
          log := { s.log with lh := (s.view s.log.area.start).header }
          pc := .install p 0 }

theorem perform_stepped {s s' : Storage} {op : Op}
    (hc : s.cache.Coherent s.log.area.dev s.pinned) (h : op.perform s = .ok s') :
    s.Stepped op s' := by
  cases op with
  | bread p b =>
    obtain ⟨⟨i, c⟩, hb, h⟩ := bind_eq_ok.mp h
    cases h
    obtain ⟨x, hx, rfl⟩ := bread_fetch hc hb
    exact .bread hx
  | logWrite p i data =>
    obtain ⟨_, hcheck, h⟩ := bind_eq_ok.mp h
    cases h
    simp only [Log.checkWrite] at hcheck
    split at hcheck
    · cases hcheck
    split at hcheck
    · cases hcheck
    rename_i hroom hout
    rw [not_or, not_le, not_le] at hroom
    have hstep := @Storage.Stepped.logWrite s p i data hroom.1 hroom.2 (by omega)
    simpa [Bcache.memmove, Bcache.setBuf_setBuf] using hstep
  | brelse p i =>
    obtain ⟨c, hb, h⟩ := bind_eq_ok.mp h
    cases h
    have hp := brelse_held hb
    rw [brelse_eq hc hp] at hb
    cases hb
    exact .brelse hp
  | beginOp p =>
    obtain ⟨g, hg, h⟩ := bind_eq_ok.mp h
    cases h
    simp only [Log.beginOp] at hg
    split at hg
    · cases hg
    split at hg
    · cases hg
    rename_i hrun hroom
    cases hg
    exact .beginOp (by simpa using hrun) (by omega)
  | endOp p =>
    obtain ⟨⟨commit, g⟩, hg, h⟩ := bind_eq_ok.mp h
    cases h
    simp only [Log.endOp] at hg
    split at hg
    · cases hg
    rename_i hrun
    split at hg
    · rename_i hlast
      cases hg
      simpa [hlast] using Storage.Stepped.lastOp (p := p) (by simpa using hrun) hlast
    · rename_i hmore
      cases hg
      exact .endOp (by simpa using hrun) hmore
  | advance =>
    simp only [Op.perform, Storage.advance] at h
    split at h
    · cases h
    · rename_i p tail hpc
      split at h
      · rename_i htodo
        obtain ⟨s1, hbody, h⟩ := bind_eq_ok.mp h
        cases h
        obtain ⟨c, rfl, hw⟩ := copyTail_spec hc hbody
        exact .writeLog hpc htodo hw
      · rename_i hdone
        obtain ⟨s1, hbody, h⟩ := bind_eq_ok.mp h
        cases h
        obtain ⟨c, rfl, hw⟩ := writeHead_spec hc hbody
        exact .commit hpc (by omega) hw
    · rename_i p tail hpc
      split at h
      · rename_i htodo
        obtain ⟨s1, hbody, h⟩ := bind_eq_ok.mp h
        cases h
        obtain ⟨c, rfl, hw⟩ := copyTail_spec hc hbody
        exact .install hpc htodo hw
      · rename_i hdone
        obtain ⟨s1, hbody, h⟩ := bind_eq_ok.mp h
        cases h
        obtain ⟨c, rfl, hw⟩ := writeHead_spec (s := s.clear) hc hbody
        exact .clear hpc (by omega) hw
    · rename_i p hpc
      cases h
      exact .finish hpc
    · rename_i p hpc
      obtain ⟨s1, hbody, h⟩ := bind_eq_ok.mp h
      cases h
      obtain ⟨c, rfl, hcoh, hview, hdrives, hlocks⟩ := readHead_spec hc hbody
      exact .readHead hpc hcoh hview hdrives hlocks

end Xv6
