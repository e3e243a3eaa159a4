import Xv6.Descriptors
import Xv6.Lib.Handles
import Xv6.RegionCalls

/-!
What the descriptor calls change. Each keeps the descriptors it does not close, and the
reference counts keep covering the descriptors of all processes.
-/

namespace Xv6

open Function Lib Multiset

def Files.refs (fs : Files) (f : Nat) : Nat := (fs.file f).ref

def Kernel.fds (k : Kernel) (r : Fin NPROC × Fin NOFILE) : Option Nat := (k.proc r.1).ofile r.2

def Kernel.FilesCounted (k : Kernel) : Prop := Lib.Counted k.fds k.fs.refs

structure Files.Same (fs fs' : Files) : Prop where
  file : ∀ f, { fs'.file f with off := 0 } = { fs.file f with off := 0 }
  page : fs'.page = fs.page
  npages : fs'.npages = fs.npages

section
variable {fs fs1 fs' : Files} {ip : Option Nat} {f : Nat}

theorem Files.Same.refl (fs : Files) : fs.Same fs := ⟨fun _ => rfl, rfl, rfl⟩

theorem Files.Same.trans (h : fs.Same fs1) (h' : fs1.Same fs') : fs.Same fs' :=
  ⟨fun f => (h'.file f).trans (h.file f), h'.page.trans h.page, h'.npages.trans h.npages⟩

theorem Files.Same.refs (h : fs.Same fs') : fs'.refs = fs.refs := by
  funext g
  have := congrArg File.ref (h.file g)
  exact this

theorem setInode_same (fs : Files) (i : Nat) (x : Inode) : fs.Same (fs.setInode i x) :=
  ⟨fun _ => rfl, rfl, rfl⟩

theorem setOff_same (fs : Files) (f n : Nat) : fs.Same (fs.setFile f { fs.file f with off := n }) := by
  refine ⟨fun g => ?_, rfl, rfl⟩
  by_cases hg : g = f
  · subst hg
    simp [Files.setFile]
  · simp [Files.setFile, hg]

theorem idup_same (h : idup fs ip = .ok fs') : fs.Same fs' := by
  unfold idup at h
  split at h
  · cases h
  · cases h
    exact setInode_same ..

theorem ilock_same (h : ilock fs ip = .ok fs') : fs.Same fs' := by
  unfold ilock at h
  split at h
  · cases h
  split at h
  · cases h
  · split at h
    · cases h
    · cases h
      exact setInode_same ..

theorem iunlock_same (h : iunlock fs ip = .ok fs') : fs.Same fs' := by
  unfold iunlock at h
  split at h
  · cases h
  · split at h
    · cases h
    · cases h
      exact setInode_same ..

theorem iput_same (h : iput fs ip = .ok fs') : fs.Same fs' := by
  unfold iput at h
  split at h
  · cases h
  · dsimp only at h
    split at h
    · cases h
    · cases h
      exact setInode_same ..

theorem iunlockput_same (h : iunlockput fs ip = .ok fs') : fs.Same fs' := by
  obtain ⟨fs1, h1, h⟩ := bind_eq_ok.mp h
  exact (iunlock_same h1).trans (iput_same h)

theorem refs_setFile_ref (x : File) (g : Nat) :
    (fs.setFile f x).refs g = if g = f then x.ref else fs.refs g := by
  unfold Files.refs Files.setFile
  by_cases hg : g = f
  · subst hg
    simp
  · simp [hg]

theorem refs_setFile {x : File} (h : x.ref = (fs.file f).ref) : (fs.setFile f x).refs = fs.refs := by
  funext g
  rw [refs_setFile_ref]
  split
  · rename_i hg
    rw [h, hg, Files.refs]
  · rfl

theorem refs_filedup (h : filedup fs f = .ok fs') (g : Nat) :
    fs'.refs g = fs.refs g + if g = f then 1 else 0 := by
  unfold filedup at h
  split at h
  · cases h
  cases h
  rw [refs_setFile_ref]
  by_cases hg : g = f
  · subst hg
    simp [Files.refs]
  · simp [hg]

theorem refs_fileclose (h : fileclose fs f = .ok fs') (g : Nat) :
    fs.refs g = fs'.refs g + if g = f then 1 else 0 := by
  unfold fileclose at h
  dsimp only at h
  split at h
  · cases h
  rename_i hpos
  split at h
  · cases h
    rw [refs_setFile_ref]
    by_cases hg : g = f
    · subst hg
      simp only [Files.refs, if_pos]
      omega
    · simp [hg]
  · have hrefs : fs'.refs = (fs.setFile f { fs.file f with ref := 0, type := .none }).refs := by
      split at h
      · exact (iput_same h).refs
      · split at h
        · cases h
        · cases h
          rfl
      · cases h
        rfl
    rw [hrefs, refs_setFile_ref]
    by_cases hg : g = f
    · subst hg
      simp only [Files.refs, if_pos]
      omega
    · simp [hg]

theorem refs_filealloc (h : filealloc fs = (some f, fs')) :
    fs.refs f = 0 ∧ ∀ g, fs'.refs g = fs.refs g + if g = f then 1 else 0 := by
  unfold filealloc at h
  split at h
  · cases h
  rename_i f' hf
  cases h
  have hzero : fs.refs f = 0 := by simpa [Files.refs] using List.find?_some hf
  refine ⟨hzero, fun g => ?_⟩
  rw [refs_setFile_ref]
  by_cases hg : g = f
  · subst hg
    simp [hzero]
  · simp [hg]

theorem filealloc_none (h : filealloc fs = (none, fs')) : fs' = fs := by
  unfold filealloc at h
  split at h
  · cases h
    rfl
  · cases h

theorem refs_initPipe {f0 f1 : Nat} : (initPipe fs f0 f1).refs = fs.refs := by
  unfold initPipe
  dsimp only
  rw [refs_setFile, refs_setFile]
  · rfl
  · rfl
  · rfl

theorem ref_filealloc (h : filealloc fs = (some f, fs')) : (fs'.file f).ref = 1 := by
  obtain ⟨hzero, hrefs⟩ := refs_filealloc h
  have := hrefs f
  rwa [hzero, if_pos rfl] at this

end

/-- The descriptors of all processes, the references that a call has in hand, and the files. -/
structure FdState where
  fds : Fin NPROC × Fin NOFILE → Option Nat
  held : Multiset Nat
  fs : Files

inductive FdOp : FdState → FdState → Prop where
  | same {t : Fin NPROC × Fin NOFILE → Option Nat} {h : Multiset Nat} {fs fs' : Files} :
      fs.Same fs' → FdOp ⟨t, h, fs⟩ ⟨t, h, fs'⟩
  | alloc {t : Fin NPROC × Fin NOFILE → Option Nat} {h : Multiset Nat} {fs fs' : Files} {f : Nat} :
      filealloc fs = (some f, fs') → FdOp ⟨t, h, fs⟩ ⟨t, f ::ₘ h, fs'⟩
  | opened {t : Fin NPROC × Fin NOFILE → Option Nat} {h : Multiset Nat} {fs fs' : Files} {f : Nat}
      {x : File} : filealloc fs = (some f, fs') → x.ref = 1 → x.type = .inode →
      FdOp ⟨t, h, fs⟩ ⟨t, f ::ₘ h, fs'.setFile f x⟩
  | pipe {t : Fin NPROC × Fin NOFILE → Option Nat} {h : Multiset Nat} {fs fs1 fs2 : Files}
      {f0 f1 : Nat} : filealloc fs = (some f0, fs1) → filealloc fs1 = (some f1, fs2) →
      FdOp ⟨t, h, fs⟩ ⟨t, f0 ::ₘ f1 ::ₘ h, initPipe fs2 f0 f1⟩
  | dup {t : Fin NPROC × Fin NOFILE → Option Nat} {h : Multiset Nat} {fs fs' : Files} {f : Nat} :
      filedup fs f = .ok fs' → FdOp ⟨t, h, fs⟩ ⟨t, f ::ₘ h, fs'⟩
  | close {t : Fin NPROC × Fin NOFILE → Option Nat} {h : Multiset Nat} {fs fs' : Files} {f : Nat} :
      fileclose fs f = .ok fs' → FdOp ⟨t, f ::ₘ h, fs⟩ ⟨t, h, fs'⟩
  | take {t : Fin NPROC × Fin NOFILE → Option Nat} {h : Multiset Nat} {fs : Files} {f : Nat}
      (i : Fin NPROC × Fin NOFILE) : t i = none →
      FdOp ⟨t, f ::ₘ h, fs⟩ ⟨update t i (some f), h, fs⟩
  | give {t : Fin NPROC × Fin NOFILE → Option Nat} {h : Multiset Nat} {fs : Files} {f : Nat}
      (i : Fin NPROC × Fin NOFILE) : t i = some f →
      FdOp ⟨t, h, fs⟩ ⟨update t i none, f ::ₘ h, fs⟩

abbrev FdOps : FdState → FdState → Prop := Relation.ReflTransGen FdOp

/-- Descriptors and references in hand on one side, reference counts on the other. -/
def FdState.owed (s : FdState) (g : Nat) : Nat := handles s.fds g + s.held.count g

theorem FdOp.balance {s s' : FdState} (h : FdOp s s') (g : Nat) :
    s'.fs.refs g + s.owed g = s.fs.refs g + s'.owed g := by
  unfold FdState.owed
  cases h <;> dsimp only
  case same h => rw [h.refs]
  case alloc h =>
      rw [(refs_filealloc h).2 g, count_cons]
      omega
  case opened h hx _ =>
      rw [refs_setFile (hx.trans (ref_filealloc h).symm), (refs_filealloc h).2 g,
        count_cons]
      omega
  case pipe h0 h1 =>
      rw [refs_initPipe, (refs_filealloc h1).2 g, (refs_filealloc h0).2 g, count_cons,
        count_cons]
      omega
  case dup h =>
      rw [refs_filedup h g, count_cons]
      omega
  case close h =>
      rw [refs_fileclose h g, count_cons]
      omega
  case take i h =>
      rw [handles_take _ h, count_cons]
      omega
  case give i h =>
      rw [← handles_clear _ h g, count_cons]
      omega

theorem FdOps.balance {s s' : FdState} (h : FdOps s s') (g : Nat) :
    s'.fs.refs g + s.owed g = s.fs.refs g + s'.owed g := by
  induction h with
  | refl => rfl
  | tail _ hop ih =>
    have := hop.balance g
    omega

/-- The effect of a descriptor call of process `p`, which closes at most `closed`. -/
structure FdChange (k : Kernel) (p : Fin NPROC) (closed : Option (Fin NOFILE)) (k' : Kernel) :
    Prop where
  eq : k' = { k with fs := k'.fs }.setProc p { k.proc p with ofile := (k'.proc p).ofile }
  kept : ∀ i f, (k.proc p).ofile i = some f → closed ≠ some i → (k'.proc p).ofile i = some f
  ops : FdOps ⟨k.fds, 0, k.fs⟩ ⟨k'.fds, 0, k'.fs⟩

section
variable {k k' : Kernel} {p : Fin NPROC} {fs fs1 : Files} {f : Nat} {i : Fin NOFILE} {x : Proc}

theorem FdChange.counted {closed : Option (Fin NOFILE)} (h : FdChange k p closed k')
    (hc : k.FilesCounted) : k'.FilesCounted := by
  intro g
  have hbal := FdOps.balance h.ops g
  have hle : handles k.fds g ≤ k.fs.refs g := hc g
  simp only [FdState.owed, count_zero] at hbal
  omega

theorem FdChange.of_fs (h : FdOps ⟨k.fds, 0, k.fs⟩ ⟨k.fds, 0, fs⟩) :
    FdChange k p none { k with fs := fs } :=
  ⟨by simp [Kernel.setProc], fun _ _ h _ => h, h⟩

theorem fdalloc_some (h : fdalloc x f = some (i, x')) :
    x.ofile i = none ∧ x' = { x with ofile := update x.ofile i (some f) } := by
  unfold fdalloc at h
  obtain ⟨j, hj, he⟩ := Option.map_eq_some_iff.mp h
  cases he
  exact ⟨by simpa using List.find?_some hj, rfl⟩

theorem fds_setProc (k : Kernel) (p : Fin NPROC) (fs : Files) (i : Fin NOFILE) (v : Option Nat) :
    ({ k with fs := fs }.setProc p
      { k.proc p with ofile := update (k.proc p).ofile i v }).fds =
      update k.fds (p, i) v := by
  funext ⟨q, j⟩
  unfold Kernel.fds
  by_cases hq : q = p
  · subst hq
    by_cases hj : j = i
    · subst hj
      simp
    · have hne : (q, j) ≠ (q, i) := by simp [hj]
      simp [hj, hne]
  · have hne : (q, j) ≠ (p, i) := by simp [hq]
    rw [update_of_ne hne, Kernel.proc_setProc_ne hq]

theorem FdChange.take {x' : Proc} (h : fdalloc (k.proc p) f = some (i, x'))
    (hops : FdOps ⟨k.fds, 0, k.fs⟩ ⟨k.fds, {f}, fs⟩) :
    FdChange k p none ({ k with fs := fs }.setProc p x') := by
  obtain ⟨hfree, rfl⟩ := fdalloc_some h
  refine ⟨by simp [Kernel.setProc], fun j g hj _ => ?_, ?_⟩
  · have hne : j ≠ i := by
      rintro rfl
      rw [hfree] at hj
      cases hj
    simpa [hne] using hj
  · rw [fds_setProc]
    exact hops.tail (.take (p, i) hfree)

theorem sysDup_change {fd : Int} {r : Option (Fin NOFILE)} (h : sysDup k p fd = .ok (r, k')) :
    FdChange k p none k' := by
  unfold sysDup at h
  split at h
  · cases h
    exact .of_fs .refl
  split at h
  · cases h
    exact .of_fs .refl
  · rename_i hx
    obtain ⟨fs, hfs, h⟩ := bind_eq_ok.mp h
    cases h
    exact .take hx (.single (.dup hfs))

theorem argfd_some {fd : Int} (h : argfd x fd = some (i, f)) :
    x.ofile i = some f ∧ fd = (i.val : Int) := by
  unfold argfd at h
  split at h
  · rename_i hfd
    obtain ⟨g, hg, he⟩ := Option.map_eq_some_iff.mp h
    cases he
    exact ⟨hg, by dsimp only; omega⟩
  · cases h

theorem sysClose_change {fd : Int} {b : Bool} (h : sysClose k p fd = .ok (b, k')) :
    FdChange k p ((argfd (k.proc p) fd).map Prod.fst) k' := by
  unfold sysClose at h
  split at h
  · rename_i harg
    cases h
    rw [harg]
    exact .of_fs .refl
  rename_i i f harg
  obtain ⟨fs, hfs, h⟩ := bind_eq_ok.mp h
  cases h
  rw [harg]
  have hi := (argfd_some harg).1
  refine ⟨by simp [Kernel.setProc], fun j g hj hne => ?_, ?_⟩
  · have hne : j ≠ i := fun he => hne (by rw [he]; rfl)
    simpa [hne] using hj
  · rw [fds_setProc]
    exact .tail (.single (.give (p, i) hi)) (.close hfs)

theorem setFile_same {x : File} (h : fs.Same fs1) :
    (fs.setFile f x).Same (fs1.setFile f x) := by
  refine ⟨fun g => ?_, h.page, h.npages⟩
  by_cases hg : g = f
  · subst hg
    simp [Files.setFile]
  · simpa [Files.setFile, hg] using h.file g

theorem sysOpen_change {ip : Option Nat} {omode : Nat} {r : Option (Fin NOFILE)}
    (h : sysOpen k p ip omode = .ok (r, k')) : FdChange k p none k' := by
  unfold sysOpen at h
  split at h
  · cases h
    exact .of_fs .refl
  obtain ⟨fs1, h1, h⟩ := bind_eq_ok.mp h
  obtain ⟨fs2, h2, h⟩ := bind_eq_ok.mp h
  have hlocked : FdOps ⟨k.fds, 0, k.fs⟩ ⟨k.fds, 0, fs2⟩ :=
    .single (.same ((idup_same h1).trans (ilock_same h2)))
  split at h
  · obtain ⟨fs3, h3, h⟩ := bind_eq_ok.mp h
    cases h
    exact .of_fs (hlocked.tail (.same (iunlockput_same h3)))
  split at h
  · rename_i fs3 ha
    obtain ⟨fs4, h4, h⟩ := bind_eq_ok.mp h
    cases h
    rw [filealloc_none ha] at h4
    exact .of_fs (hlocked.tail (.same (iunlockput_same h4)))
  rename_i f fs3 ha
  split at h
  · obtain ⟨fs4, h4, h⟩ := bind_eq_ok.mp h
    obtain ⟨fs5, h5, h⟩ := bind_eq_ok.mp h
    cases h
    exact .of_fs (((hlocked.tail (.alloc ha)).tail (.close h4)).tail
      (.same (iunlockput_same h5)))
  · rename_i fd x hx
    obtain ⟨fs4, h4, h⟩ := bind_eq_ok.mp h
    cases h
    have hsame := iunlock_same h4
    have href : (fs4.file f).ref = 1 := (congrFun hsame.refs f).trans (ref_filealloc ha)
    refine .take hx ((hlocked.tail (.opened ha ?_ ?_)).tail (.same (setFile_same hsame)))
    · exact href
    · rfl

/-- The references to two new files, or none, are in hand after `pipealloc`. -/
theorem pipealloc_ops {fs fs' : Files} {page : Bool} {r : Option (Nat × Nat)}
    {t : Fin NPROC × Fin NOFILE → Option Nat} (h : pipealloc fs page = .ok (r, fs')) :
    (r = none ∧ FdOps ⟨t, 0, fs⟩ ⟨t, 0, fs'⟩) ∨
    ∃ f0 f1, r = some (f0, f1) ∧ FdOps ⟨t, 0, fs⟩ ⟨t, f0 ::ₘ {f1}, fs'⟩ := by
  unfold pipealloc at h
  split at h
  · rename_i fs1 ha
    cases h
    rw [filealloc_none ha]
    exact Or.inl ⟨rfl, .refl⟩
  rename_i f0 fs1 ha
  split at h
  · rename_i fs2 hb
    obtain ⟨fs3, hc, h⟩ := bind_eq_ok.mp h
    cases h
    rw [filealloc_none hb] at hc
    exact Or.inl ⟨rfl, .tail (.single (.alloc ha)) (.close hc)⟩
  · rename_i f1 fs2 hb
    split at h
    · cases h
      exact Or.inr ⟨f0, f1, rfl, .single (.pipe ha hb)⟩
    obtain ⟨fs3, hc, h⟩ := bind_eq_ok.mp h
    obtain ⟨fs4, hd, h⟩ := bind_eq_ok.mp h
    cases h
    have hboth : FdOps ⟨t, 0, fs⟩ ⟨t, f0 ::ₘ f1 ::ₘ 0, fs2⟩ := by
      rw [cons_swap]
      exact .tail (.single (.alloc ha)) (.alloc hb)
    exact Or.inl ⟨rfl, (hboth.tail (.close hc)).tail (.close hd)⟩

theorem sysPipe_change {page : Bool} {b : Bool} (h : sysPipe k p page = .ok (b, k')) :
    FdChange k p none k' := by
  obtain ⟨⟨r, fs1⟩, hp, h⟩ := bind_eq_ok.mp h
  rcases pipealloc_ops (t := k.fds) hp with ⟨rfl, hops⟩ | ⟨f0, f1, rfl, hops⟩
  · cases h
    exact .of_fs hops
  dsimp only at h
  have hclose : ∀ {fs2 fs3 : Files}, fileclose fs1 f0 = .ok fs2 → fileclose fs2 f1 = .ok fs3 →
      FdOps ⟨k.fds, 0, k.fs⟩ ⟨k.fds, 0, fs3⟩ := fun ha hb =>
    (hops.tail (.close ha)).tail (.close hb)
  split at h
  · obtain ⟨fs2, ha, h⟩ := bind_eq_ok.mp h
    obtain ⟨fs3, hb, h⟩ := bind_eq_ok.mp h
    cases h
    exact .of_fs (hclose ha hb)
  rename_i fd0 x0 hx0
  obtain ⟨hfree0, hx0'⟩ := fdalloc_some hx0
  split at h
  · obtain ⟨fs2, ha, h⟩ := bind_eq_ok.mp h
    obtain ⟨fs3, hb, h⟩ := bind_eq_ok.mp h
    cases h
    have hback : update x0.ofile fd0 none = (k.proc p).ofile := by
      rw [hx0']
      dsimp only
      rw [update_idem, ← hfree0, update_eq_self]
    have hsame : ({ k with fs := fs3 }.setProc p
        { x0 with ofile := update x0.ofile fd0 none } : Kernel) = { k with fs := fs3 } := by
      rw [hback, hx0']
      simp [Kernel.setProc]
    rw [hsame]
    exact .of_fs (hclose ha hb)
  · rename_i fd1 x1 hx1
    cases h
    obtain ⟨hfree1, rfl⟩ := fdalloc_some hx1
    have hfds : ({ k with fs := fs1 }.setProc p
        { x0 with ofile := update x0.ofile fd1 (some f1) }).fds =
        update (update k.fds (p, fd0) (some f0)) (p, fd1) (some f1) := by
      rw [← fds_setProc k p fs1 fd0, ← hx0', ← fds_setProc _ p fs1 fd1]
      simp [Kernel.setProc]
    have hnone : update k.fds (p, fd0) (some f0) (p, fd1) = none := by
      rw [← fds_setProc k p fs1 fd0, ← hx0', Kernel.fds, Kernel.proc_setProc_self]
      exact hfree1
    subst hx0'
    refine ⟨by simp [Kernel.setProc], fun i f hi _ => ?_, ?_⟩
    · rw [Kernel.proc_setProc_self]
      dsimp only at hfree1 ⊢
      have hi0 : i ≠ fd0 := by
        rintro rfl
        rw [hfree0] at hi
        cases hi
      have hi1 : i ≠ fd1 := by
        rintro rfl
        rw [update_of_ne hi0, hi] at hfree1
        cases hfree1
      rw [update_of_ne hi1, update_of_ne hi0]
      exact hi
    · rw [hfds]
      exact (hops.tail (.take (p, fd0) hfree0)).tail (.take (p, fd1) hnone)

def FdCall.closes (x : Proc) : FdCall → Option (Fin NOFILE)
  | .close fd => (argfd x fd).map Prod.fst
  | _ => none

theorem FdCall.change {c : FdCall} (h : c.perform k p = .ok k') :
    FdChange k p (c.closes (k.proc p)) k' := by
  cases c with
  | «open» ip omode =>
    obtain ⟨⟨r, k1⟩, hc, h⟩ := bind_eq_ok.mp h
    cases h
    exact sysOpen_change hc
  | close fd =>
    obtain ⟨⟨r, k1⟩, hc, h⟩ := bind_eq_ok.mp h
    cases h
    exact sysClose_change hc
  | dup fd =>
    obtain ⟨⟨r, k1⟩, hc, h⟩ := bind_eq_ok.mp h
    cases h
    exact sysDup_change hc
  | pipe page =>
    obtain ⟨⟨r, k1⟩, hc, h⟩ := bind_eq_ok.mp h
    cases h
    exact sysPipe_change hc

end

end Xv6
