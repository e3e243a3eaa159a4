import Xv6.DescriptorSpec
import Xv6.ForkSpec

/-!
What `wmap`, `wunmap` and `fork` do to descriptors and reference counts. `wmap` takes one
more descriptor for the file it is given, before it looks at the region table; `wunmap`
closes none; the child of a `fork` has the descriptors of its parent.
-/

namespace Xv6

open Function Lib Kernel

variable {b go : Bool} {a addr flags : Nat} {r : Option Nat} {fd length : Int} {src : List UInt8}
  {i : Fin MAX_WMMAP_INFO} {np : Fin NPROC} {x : Proc}

section
variable {fs fs' : Files} {f : Nat}

theorem writei_same {ip : Option Nat} {off : Nat} (h : writei fs ip src off = (r, fs')) :
    fs.Same fs' := by
  unfold writei at h
  split at h
  · cases h
    exact .refl _
  dsimp only at h
  split at h
  · cases h
    exact .refl _
  split at h
  · cases h
    exact .refl _
  · split at h
    · cases h
      exact .refl _
    · cases h
      exact setInode_same ..

theorem writeChunks_same {n : Nat} (h : writeChunks n fs f src = .ok (b, fs')) : fs.Same fs' := by
  induction n generalizing fs src with
  | zero =>
    cases h
    exact .refl _
  | succ n ih =>
    rw [writeChunks] at h
    split at h
    · cases h
      exact .refl _
    dsimp only at h
    obtain ⟨fs1, h1, h⟩ := bind_eq_ok.mp h
    cases hw : writei fs1 (fs.file f).ip (src.take 1536) (fs1.file f).off with
    | mk r fs2 =>
      rw [hw] at h
      dsimp only at h
      obtain ⟨fs3, h3, h⟩ := bind_eq_ok.mp h
      have hsame : fs.Same fs3 :=
        (((ilock_same h1).trans (writei_same hw)).trans (setOff_same ..)).trans (iunlock_same h3)
      split at h
      · cases h
        exact hsame
      · exact hsame.trans (ih h)

theorem filewrite_same (h : filewrite fs f src = .ok (b, fs')) : fs.Same fs' := by
  unfold filewrite at h
  split at h
  · cases h
    exact .refl _
  split at h
  · split at h
    · cases h
    · cases h
      exact ⟨fun _ => rfl, rfl, rfl⟩
  · exact writeChunks_same h
  · cases h

end

/-- Descriptors, files but for offsets, and process states are as before, and the region
tables of the processes other than `p`. -/
structure SameFiles (k : Kernel) (p : Fin NPROC) (k' : Kernel) : Prop where
  fs : k.fs.Same k'.fs
  ofile : ∀ q, (k'.proc q).ofile = (k.proc q).ofile
  state : ∀ q, (k'.proc q).state = (k.proc q).state
  wmap : ∀ q, q ≠ p → (k'.proc q).wmap = (k.proc q).wmap

section
variable {k k1 k' : Kernel} {p : Fin NPROC}

theorem SameFiles.refl (k : Kernel) (p : Fin NPROC) : SameFiles k p k :=
  ⟨.refl _, fun _ => rfl, fun _ => rfl, fun _ _ => rfl⟩

theorem SameFiles.trans (h : SameFiles k p k1) (h' : SameFiles k1 p k') : SameFiles k p k' :=
  ⟨h.fs.trans h'.fs, fun q => (h'.ofile q).trans (h.ofile q),
    fun q => (h'.state q).trans (h.state q), fun q hq => (h'.wmap q hq).trans (h.wmap q hq)⟩

theorem SameFiles.fds (h : SameFiles k p k') : k'.fds = k.fds := by
  funext r
  exact congrFun (h.ofile r.1) r.2

theorem Kernel.FilesCounted.congr (hc : k.FilesCounted) (hfds : k'.fds = k.fds)
    (hrefs : k'.fs.refs = k.fs.refs) : k'.FilesCounted := by
  unfold Kernel.FilesCounted
  rw [hfds, hrefs]
  exact hc

theorem SameFiles.counted (h : SameFiles k p k') (hc : k.FilesCounted) : k'.FilesCounted :=
  hc.congr h.fds h.fs.refs

theorem fds_setProc_same (h : x.ofile = (k.proc p).ofile) : (k.setProc p x).fds = k.fds := by
  funext ⟨q, j⟩
  unfold Kernel.fds
  by_cases hq : q = p
  · subst hq
    rw [proc_setProc_self, h]
  · rw [proc_setProc_ne hq]

theorem SameFiles.setProc (hfs : k.fs.Same k1.fs) (hproc : k1.proc = k.proc)
    (hofile : x.ofile = (k.proc p).ofile) (hstate : x.state = (k.proc p).state) :
    SameFiles k p (k1.setProc p x) := by
  refine ⟨hfs, fun q => ?_, fun q => ?_, fun q hq => ?_⟩
  · by_cases hq : q = p
    · subst hq
      rw [proc_setProc_self, hofile]
    · rw [proc_setProc_ne hq, hproc]
  · by_cases hq : q = p
    · subst hq
      rw [proc_setProc_self, hstate]
    · rw [proc_setProc_ne hq, hproc]
  · rw [proc_setProc_ne hq, hproc]

theorem writeBack_same {x : Frame} {fs : Files} (h : writeBack p i k a x = .ok (b, fs)) :
    k.fs.Same fs := by
  unfold writeBack at h
  dsimp only at h
  split at h
  · obtain ⟨r, -, h⟩ := bind_eq_ok.mp h
    split at h
    · cases h
      exact .refl _
    · exact (setOff_same ..).trans (filewrite_same h)
  · cases h
    exact .refl _

theorem unmapPage_sameFiles {pte : Pte} (h : unmapPage p i k a pte = .ok (k', go)) :
    SameFiles k p k' := by
  unfold unmapPage at h
  split at h
  · cases h
  obtain ⟨⟨ok, fs⟩, hw, h⟩ := bind_eq_ok.mp h
  have hfs := writeBack_same hw
  dsimp only at h
  split at h
  · obtain ⟨m, -, h⟩ := bind_eq_ok.mp h
    cases h
    exact .setProc hfs rfl rfl rfl
  · cases h
    exact ⟨hfs, fun _ => rfl, fun _ => rfl, fun _ _ => rfl⟩

theorem unmapPages_sameFiles {bound : Nat} (h : unmapPages k p addr bound i = .ok (k', go)) :
    SameFiles k p k' := by
  unfold unmapPages at h
  split at h
  · exact sweep_rule (P := SameFiles k p) (Q := fun s _ => SameFiles k p s) (fun _ hs => hs)
      (fun _ _ _ _ hs hb => hs.trans (unmapPage_sameFiles hb))
      (fun _ _ _ _ hs hb => hs.trans (unmapPage_sameFiles hb)) (.refl k p) h
  · cases h
    exact .refl k p

theorem wunmap_sameFiles (h : wunmap k p addr = .ok (b, k')) : SameFiles k p k' := by
  rcases wunmap_cases h with ⟨-, -, rfl⟩ | ⟨-, -, -, rfl⟩ | ⟨-, i, k1, -, hu, rfl⟩
  · exact .refl k' p
  · exact .refl k' p
  have hsame := unmapPages_sameFiles hu
  split
  · refine hsame.trans ?_
    unfold Kernel.dropRegion
    exact .setProc (.refl _) rfl rfl rfl
  · exact hsame

theorem sysWunmap_sameFiles (h : sysWunmap k p addr = .ok (b, k')) : SameFiles k p k' := by
  unfold sysWunmap at h
  split at h
  · cases h
    exact .refl k p
  · exact wunmap_sameFiles h

def Proc.CanDup (x : Proc) (fd : Int) : Prop := (argfd x fd).isSome ∧ ∃ i, x.ofile i = none

/-- Descriptor `i` of process `p` was taken for the file `f` of its descriptor `fd`. -/
structure Duplicated (k : Kernel) (p : Fin NPROC) (fd : Int) (i : Fin NOFILE) (f : Nat)
    (k1 : Kernel) : Prop where
  source : ∃ j, argfd (k.proc p) fd = some (j, f)
  free : (k.proc p).ofile i = none
  ofile : (k1.proc p).ofile = update (k.proc p).ofile i (some f)
  change : FdChange k p none k1

theorem Duplicated.canDup {i : Fin NOFILE} {f : Nat} (h : Duplicated k p fd i f k1) :
    (k.proc p).CanDup fd := by
  obtain ⟨j, hj⟩ := h.source
  exact ⟨by rw [hj]; rfl, i, h.free⟩

theorem storedFd_cases {n : Int} (h : storedFd k p fd = .ok (n, k1)) :
    (¬ (k.proc p).CanDup fd ∧ n = -1 ∧ k1 = k) ∨
    ∃ i f, n = (i.val : Int) ∧ Duplicated k p fd i f k1 := by
  unfold storedFd at h
  split at h
  · unfold duplicateFd at h
    split at h
    · rename_i hfd
      split at h
      · rename_i hnone
        cases h
        refine Or.inl ⟨fun hd => ?_, rfl, rfl⟩
        have := hd.1
        rw [argfd, dif_pos hfd, hnone] at this
        cases this
      rename_i f hf
      split at h
      · rename_i hfull
        cases h
        refine Or.inl ⟨fun hd => ?_, rfl, rfl⟩
        obtain ⟨i, hi⟩ := hd.2
        have := List.find?_eq_none.mp hfull i (List.mem_finRange i)
        rw [hi] at this
        exact this rfl
      · rename_i i hi
        obtain ⟨fs, hfs, h⟩ := bind_eq_ok.mp h
        cases h
        have hx : fdalloc (k.proc p) f = some (i, { k.proc p with
            ofile := update (k.proc p).ofile i (some f) }) := by
          rw [fdalloc, hi]
          rfl
        refine Or.inr ⟨i, f, rfl, ⟨_, by rw [argfd, dif_pos hfd, hf]; rfl⟩, (fdalloc_some hx).1, ?_,
          .take hx (.single (.dup hfs))⟩
        rw [proc_setProc_self]
    · rename_i hfd
      cases h
      refine Or.inl ⟨fun hd => ?_, rfl, rfl⟩
      have := hd.1
      rw [argfd, dif_neg hfd] at this
      cases this
  · rename_i hfd
    cases h
    refine Or.inl ⟨fun hd => ?_, rfl, rfl⟩
    have := hd.1
    rw [argfd, dif_neg (by omega)] at this
    cases this

theorem wmap_stored (h : wmap k p addr length flags fd = .ok (r, k')) :
    ∃ n k1, storedFd k p fd = .ok (n, k1) ∧
      ((r = none ∧ k' = k1 ∧ (k.proc p).wmap.add addr length (flags &&& 4 = 0) n = none) ∨
        ∃ w, r = some addr ∧ (k.proc p).wmap.add addr length (flags &&& 4 = 0) n = some w ∧
          k' = k1.setProc p { k1.proc p with wmap := w }) := by
  obtain ⟨⟨n, k1⟩, hf, h⟩ := bind_eq_ok.mp h
  have hw : (k1.proc p).wmap = (k.proc p).wmap := by
    rw [storedFd_spec hf]
    simp [Kernel.setProc]
  refine ⟨n, k1, hf, ?_⟩
  dsimp only at h
  rw [hw] at h
  split at h
  · rename_i hadd
    cases h
    exact Or.inl ⟨rfl, rfl, hadd⟩
  · rename_i w hadd
    cases h
    exact Or.inr ⟨w, rfl, hadd, rfl⟩

theorem sysWmap_files (h : sysWmap k p addr length flags fd = .ok (r, k')) :
    (k.FilesCounted → k'.FilesCounted) ∧ ∀ q, q ≠ p → k'.proc q = k.proc q := by
  rcases sysWmap_cases h with ⟨-, rfl⟩ | ⟨-, -, -, -, -, -, h⟩
  · exact ⟨id, fun _ _ => rfl⟩
  refine ⟨?_, fun q hq => ?_⟩
  · obtain ⟨n, k1, hn, hcase⟩ := wmap_stored h
    have hcount : k.FilesCounted → k1.FilesCounted := by
      rcases storedFd_cases hn with ⟨-, -, rfl⟩ | ⟨_, _, -, hd⟩
      · exact id
      · exact hd.change.counted
    rcases hcase with ⟨-, rfl, -⟩ | ⟨w, -, -, rfl⟩
    · exact hcount
    · exact fun hc => (hcount hc).congr (fds_setProc_same rfl) rfl
  · rw [(wmap_spec h).1, proc_setProc_ne hq]

theorem dupAll_files {is : List (Fin NOFILE)} (hne : p ≠ np) (h : dupAll p np is k = .ok k') :
    (k.FilesCounted → k'.FilesCounted) ∧
      ∀ i f, (k.proc p).ofile i = some f → (i ∈ is ∨ (k.proc np).ofile i = some f) →
        (k'.proc np).ofile i = some f := by
  induction is generalizing k with
  | nil =>
    cases h
    exact ⟨id, fun i f _ hi => by simpa using hi⟩
  | cons j is ih =>
    rw [dupAll] at h
    split at h
    · rename_i hnone
      obtain ⟨hcount, hfd⟩ := ih h
      refine ⟨hcount, fun i f hi hmem => hfd i f hi ?_⟩
      rcases hmem with hmem | hmem
      · rcases List.mem_cons.mp hmem with rfl | hmem
        · rw [hnone] at hi
          cases hi
        · exact Or.inl hmem
      · exact Or.inr hmem
    · rename_i g hg
      obtain ⟨fs, hfs, h⟩ := bind_eq_ok.mp h
      obtain ⟨hcount, hfd⟩ := ih h
      rw [proc_setProc_ne hne, proc_setProc_self] at hfd
      refine ⟨fun hc => hcount ?_, fun i f hi hmem => hfd i f hi ?_⟩
      · unfold Kernel.FilesCounted at hc ⊢
        rw [fds_setProc]
        exact hc.take (np, j) fun g => (refs_filedup hfs g).ge
      by_cases hij : i = j
      · subst hij
        rw [hg] at hi
        cases hi
        exact Or.inr (by simp)
      · refine hmem.imp (fun hm => (List.mem_cons.mp hm).resolve_left hij) fun hm => ?_
        simpa [hij] using hm

theorem dropSlot_fds (h : dropSlot k np = .ok k') : k'.fds = k.fds ∧ k'.fs = k.fs := by
  obtain ⟨s, -, -, hk⟩ := dropSlot_spec h
  rw [hk]
  exact ⟨fds_setProc_same (k := { k with mach := k'.mach }) rfl, rfl⟩

theorem fds_forking {s : Frame} {a : Kmem} {m : Machine} (pgdir : PgDir) {d : PgDir} (hne : p ≠ np) :
    (k.forking p np s a m pgdir d).fds = k.fds ∧
      (k.forking p np s a m pgdir d).fs = k.fs := by
  refine ⟨?_, rfl⟩
  funext ⟨q, j⟩
  unfold Kernel.fds
  by_cases hq : q = np
  · subst hq
    simp [Kernel.forking, Kernel.setProc, hne.symm]
  · by_cases hqp : q = p
    · subst hqp
      simp [Kernel.forking, Kernel.setProc, hne]
    · simp [Kernel.forking, Kernel.setProc, hq, hqp]

/-- What `fork` does to descriptors: counts cover them, and a child has those of its
parent. -/
theorem fork_files (hp : (k.proc p).live) (hsz : (k.proc p).sz ≤ 0x80000000)
    (hok : (k.proc p).wmap.Ok) (h : fork k p = .ok (r, k')) : (k.FilesCounted → k'.FilesCounted) ∧
      ∀ q, (k.proc q).state = .unused → (k'.proc q).live →
        ∀ i f, (k.proc p).ofile i = some f → (k'.proc q).ofile i = some f := by
  unfold fork at h
  split at h
  · rename_i k1 ha
    cases h
    rcases allocproc_none ha with rfl | ⟨np, hun, -, hk⟩
    · exact ⟨id, fun q hq hl => (hl hq).elim⟩
    refine ⟨fun hc => hc.congr ?_ (by rw [hk]; rfl), fun q hq hl => ?_⟩
    · rw [hk]
      exact fds_setProc_same rfl
    rw [hk] at hl
    refine (hl ?_).elim
    by_cases hqn : q = np
    · subst hqn
      simpa using hun
    · rw [proc_setProc_ne hqn]
      exact hq
  rename_i np k1 ha
  obtain ⟨hun, s, a, hs, rfl⟩ := allocproc_some ha
  have hne : p ≠ np := by
    rintro rfl
    exact hp hun
  obtain ⟨⟨child, pgdir, m⟩, hc, h⟩ := bind_eq_ok.mp h
  simp only [Kernel.setProc, update_of_ne hne] at hc
  rcases copyuvm_spec hsz hc with ⟨d, rfl, hcopy⟩ | ⟨rfl, j, t, hcopy⟩
  · obtain ⟨k2, hdup, h⟩ := bind_eq_ok.mp h
    obtain ⟨fs, hfs, h⟩ := bind_eq_ok.mp h
    obtain ⟨⟨ok, k3⟩, hw, h⟩ := bind_eq_ok.mp h
    have hready := forkReady_of_dupAll (s := s) (a := a) hne.symm hdup fs
    obtain ⟨done, hslots⟩ := copySlots_spec hne (by rw [hready.parent]; exact hok) hw
    obtain ⟨hcount, hfd⟩ := dupAll_files (k := k.forking p np s a m pgdir d) hne hdup
    obtain ⟨hfds, hfs0⟩ := fds_forking (k := k) (s := s) (a := a) (m := m) (d := d) pgdir hne
    have hfds3 : k3.fds = k2.fds := by
      rw [hslots.eq]
      refine Eq.trans (fds_setProc_same rfl) ?_
      exact fds_setProc_same (k := { k2 with fs := fs }) rfl
    have hrefs3 : k3.fs.refs = k2.fs.refs := by
      rw [hslots.eq]
      exact (idup_same hfs).refs
    have hcount3 : k.FilesCounted → k3.FilesCounted := fun hc =>
      (hcount (hc.congr hfds (by rw [hfs0]))).congr hfds3 hrefs3
    have hother : ∀ q, (k.proc q).state = .unused → q ≠ np → k3.proc q = k.proc q := by
      intro q hq hqn
      rw [hslots.eq, proc_setProc_ne hqn]
      refine hready.others q ?_ hqn
      rintro rfl
      exact hp hq
    dsimp only at h
    split at h
    · cases h
      refine ⟨hcount3, fun q hq hl i f hi => ?_⟩
      by_cases hqn : q = np
      · subst hqn
        have hk2 := hfd i f ((congrFun hfds (p, i)).trans hi) (Or.inl (List.mem_finRange i))
        exact (congrFun hfds3 (q, i)).trans hk2
      · rw [hother q hq hqn] at hl
        exact (hl hq).elim
    · obtain ⟨k4, hd, h⟩ := bind_eq_ok.mp h
      cases h
      obtain ⟨hfds4, hfs4⟩ := dropSlot_fds hd
      refine ⟨fun hc => (hcount3 hc).congr hfds4 (by rw [hfs4]), fun q hq hl => ?_⟩
      obtain ⟨_, -, -, hk⟩ := dropSlot_spec hd
      rw [hk] at hl
      refine (hl ?_).elim
      by_cases hqn : q = np
      · subst hqn
        simp
      · rw [proc_setProc_ne hqn]
        exact (congrArg Proc.state (hother q hq hqn)).trans hq
  · obtain ⟨k2, hd, h⟩ := bind_eq_ok.mp h
    cases h
    obtain ⟨hfds, hfs⟩ := dropSlot_fds hd
    refine ⟨fun hc => hc.congr ?_ (by rw [hfs]; rfl), fun q hq hl => ?_⟩
    · rw [hfds]
      refine Eq.trans (fds_setProc_same rfl) ?_
      exact fds_setProc_same (p := np) rfl
    obtain ⟨_, -, -, hk⟩ := dropSlot_spec hd
    rw [hk] at hl
    refine (hl ?_).elim
    by_cases hqn : q = np
    · subst hqn
      simp
    · have hqp : q ≠ p := by
        rintro rfl
        exact hp hq
      rw [proc_setProc_ne hqn]
      simpa [Kernel.setProc, hqp, hqn] using hq

end

end Xv6
