import Xv6.FileTable
import Xv6.ExitSpec
import Xv6.Lib.Run

/-!
Runs of the calls that make and drop descriptors. The reference count of a file is the number
of descriptors of all processes that stand for it, and the page of a pipe is freed by the
call that drops the last descriptor of its second end.
-/

namespace Xv6

open Lib Kernel

/-- Descriptors and files but for offsets are as before, and no process that holds
descriptors is taken for one that holds none. -/
structure Undisturbed (k k' : Kernel) : Prop where
  fds : k'.fds = k.fds
  fs : k.fs.Same k'.fs
  state : ∀ q, (k'.proc q).state = .unused ∨ (k'.proc q).state = .zombie →
    (k.proc q).state = .unused ∨ (k.proc q).state = .zombie

inductive HandleAct where
  | call (p : Fin NPROC) (c : FdCall)
  | wmap (p : Fin NPROC) (addr : Nat) (length : Int) (flags : Nat) (fd : Int)
  | fork (p : Fin NPROC)
  | exit (p : Fin NPROC)
  | other

/-- The calls `open`, `close`, `dup`, `pipe`, `wmap`, a `fork` that returns a pid, `exit`, and
whatever else the system does that leaves descriptors and files alone. -/
inductive HandleStep (k : Kernel) : HandleAct → Kernel → Prop where
  | call {p : Fin NPROC} {c : FdCall} {k' : Kernel} : k.ready p → c.perform k p = .ok k' →
      HandleStep k (.call p c) k'
  | wmap {p : Fin NPROC} {addr : Nat} {length : Int} {flags : Nat} {fd : Int} {r : Option Nat}
      {k' : Kernel} : k.ready p → sysWmap k p addr length flags fd = .ok (r, k') →
      HandleStep k (.wmap p addr length flags fd) k'
  | fork {p : Fin NPROC} {pid : Nat} {k' : Kernel} : k.ready p → fork k p = .ok (some pid, k') →
      HandleStep k (.fork p) k'
  | exit {p : Fin NPROC} {k' : Kernel} : k.ready p → exit k p = .ok k' → HandleStep k (.exit p) k'
  | other {k' : Kernel} : Undisturbed k k' → HandleStep k .other k'

/-- Counts are exact, and slots without a process and those of zombies hold no descriptor. -/
structure Kernel.FilesOk (k : Kernel) : Prop where
  refs : ∀ f, k.fs.refs f = handles k.fds f
  files : k.fs.Ok
  empty : ∀ q, (k.proc q).state = .unused ∨ (k.proc q).state = .zombie →
    ∀ i, (k.proc q).ofile i = none

section
variable {k k1 k' : Kernel} {p np : Fin NPROC}

theorem Kernel.FilesOk.ops (h : k.FilesOk) (hops : FdOps ⟨k.fds, 0, k.fs⟩ ⟨k'.fds, 0, k'.fs⟩)
    (hempty : ∀ q, (k'.proc q).state = .unused ∨ (k'.proc q).state = .zombie →
      ∀ i, (k'.proc q).ofile i = none) : k'.FilesOk := by
  refine ⟨fun f => ?_, hops.ok h.files, hempty⟩
  have hbal := FdOps.balance hops f
  have hf := h.refs f
  simp only [FdState.owed, Multiset.count_zero] at hbal
  omega

theorem Kernel.FilesOk.change {closed : Option (Fin NOFILE)} (h : k.FilesOk)
    (hp : (k.proc p).state = .running) (hc : FdChange k p closed k') : k'.FilesOk := by
  refine h.ops hc.ops fun q hq i => ?_
  rw [hc.eq] at hq ⊢
  by_cases hqp : q = p
  · subst hqp
    rw [proc_setProc_self] at hq
    rcases hq with hq | hq
    · exact absurd (hp.symm.trans hq) nofun
    · exact absurd (hp.symm.trans hq) nofun
  · rw [proc_setProc_ne hqp] at hq ⊢
    exact h.empty q hq i

theorem Kernel.FilesOk.undisturbed (h : k.FilesOk) (hu : Undisturbed k k') : k'.FilesOk := by
  refine h.ops ?_ fun q hq i => ?_
  · rw [hu.fds]
    exact .single (.same hu.fs)
  · exact (congrFun hu.fds (q, i)).trans (h.empty q (hu.state q hq) i)

theorem Kernel.FilesOk.wmap {addr : Nat} {length : Int} {flags : Nat} {fd : Int} {r : Option Nat}
    (h : k.FilesOk) (hp : (k.proc p).state = .running)
    (hw : sysWmap k p addr length flags fd = .ok (r, k')) : k'.FilesOk := by
  rcases sysWmap_cases hw with ⟨-, rfl⟩ | ⟨-, -, -, -, -, -, hw⟩
  · exact h
  obtain ⟨n, k1, hn, hcase⟩ := wmap_stored hw
  have h1 : k1.FilesOk := by
    rcases storedFd_cases hn with ⟨-, -, rfl⟩ | ⟨_, _, -, hd⟩
    · exact h
    · exact h.change hp hd.change
  rcases hcase with ⟨-, rfl, -⟩ | ⟨w, -, -, rfl⟩
  · exact h1
  · refine h1.undisturbed ⟨fds_setProc_same rfl, .refl _, fun q hq => ?_⟩
    by_cases hqp : q = p
    · subst hqp
      rwa [proc_setProc_self] at hq
    · rwa [proc_setProc_ne hqp] at hq

/-- The loop of `fork` over the descriptors of the parent fills a table that is empty. -/
theorem dupAll_ops {is : List (Fin NOFILE)} (hne : p ≠ np) (hnodup : is.Nodup)
    (hfree : ∀ i ∈ is, (k.proc np).ofile i = none) (h : dupAll p np is k = .ok k') :
    FdOps ⟨k.fds, 0, k.fs⟩ ⟨k'.fds, 0, k'.fs⟩ ∧
      ∀ q, (k'.proc q).state = (k.proc q).state ∧
        (q ≠ np → (k'.proc q).ofile = (k.proc q).ofile) := by
  induction is generalizing k with
  | nil =>
    cases h
    exact ⟨.refl, fun _ => ⟨rfl, fun _ => rfl⟩⟩
  | cons j is ih =>
    obtain ⟨hj, hnodup⟩ := List.nodup_cons.mp hnodup
    rw [dupAll] at h
    split at h
    · exact ih hnodup (fun i hi => hfree i (List.mem_cons_of_mem _ hi)) h
    rename_i g hg
    obtain ⟨fs, hfs, h⟩ := bind_eq_ok.mp h
    obtain ⟨hops, hsame⟩ := ih hnodup (fun i hi => by
      have hij : i ≠ j := by
        rintro rfl
        exact hj hi
      simpa [hij] using hfree i (List.mem_cons_of_mem _ hi)) h
    rw [fds_setProc] at hops
    refine ⟨.trans (.tail (.single (.dup hfs)) (.take (np, j) ?_)) hops, fun q => ?_⟩
    · exact hfree j List.mem_cons_self
    by_cases hq : q = np
    · subst hq
      refine ⟨(hsame q).1.trans (by simp), fun hqn => (hqn rfl).elim⟩
    · have he := hsame q
      rw [proc_setProc_ne hq] at he
      exact he

/-- Descriptors, files and process states are as before. -/
structure Untouched (k k' : Kernel) : Prop where
  fds : k'.fds = k.fds
  fs : k'.fs = k.fs
  state : ∀ q, (k'.proc q).state = (k.proc q).state

theorem Untouched.trans (h : Untouched k k1) (h' : Untouched k1 k') : Untouched k k' :=
  ⟨h'.fds.trans h.fds, h'.fs.trans h.fs, fun q => (h'.state q).trans (h.state q)⟩

theorem Untouched.setProc {m : Machine} {x : Proc} (ho : x.ofile = (k.proc p).ofile)
    (hs : x.state = (k.proc p).state) : Untouched k ({ k with mach := m }.setProc p x) := by
  refine ⟨fds_setProc_same (k := { k with mach := m }) ho, rfl, fun q => ?_⟩
  by_cases hq : q = p
  · subst hq
    rw [proc_setProc_self, hs]
  · rw [proc_setProc_ne hq]

theorem copySlots_untouched {is : List (Fin MAX_WMMAP_INFO)} {b : Bool}
    (h : copySlots p np is k = .ok (b, k')) : Untouched k k' := by
  induction is generalizing k with
  | nil =>
    cases h
    exact ⟨rfl, rfl, fun _ => rfl⟩
  | cons i is ih =>
    rw [copySlots] at h
    dsimp only at h
    split at h
    · exact ih h
    obtain ⟨⟨ok, d, km⟩, -, h⟩ := bind_eq_ok.mp h
    dsimp only at h
    split at h
    · refine Untouched.trans ?_ (ih h)
      exact .setProc rfl rfl
    · cases h
      exact .setProc rfl rfl

/-- A child that is handed out has the descriptors of its parent, and each counts. -/
theorem Kernel.FilesOk.fork {pid : Nat} (h : k.FilesOk) (hp : (k.proc p).state = .running)
    (hf : Xv6.fork k p = .ok (some pid, k')) : k'.FilesOk := by
  unfold Xv6.fork at hf
  split at hf
  · cases hf
  rename_i np k1 ha
  obtain ⟨hun, s, a, hs, rfl⟩ := allocproc_some ha
  have hne : p ≠ np := by
    rintro rfl
    rw [hun] at hp
    cases hp
  obtain ⟨⟨child, pgdir, m⟩, -, hf⟩ := bind_eq_ok.mp hf
  dsimp only at hf
  split at hf
  · obtain ⟨k2, -, hf⟩ := bind_eq_ok.mp hf
    cases hf
  rename_i d
  obtain ⟨k2, hdup, hf⟩ := bind_eq_ok.mp hf
  obtain ⟨fs, hfs, hf⟩ := bind_eq_ok.mp hf
  obtain ⟨⟨ok, k3⟩, hw, hf⟩ := bind_eq_ok.mp hf
  dsimp only at hf
  split at hf
  · cases hf
    obtain ⟨hfds0, hfs0⟩ := fds_forking (k := k) (s := s) (a := a) (m := m) (d := d) pgdir hne
    obtain ⟨hops, hsame⟩ := dupAll_ops (k := k.forking p np s a m pgdir d) hne
      (List.nodup_finRange _) (fun i _ => (congrFun hfds0 (np, i)).trans (h.empty np (Or.inl hun) i))
      hdup
    have hcopy := copySlots_untouched hw
    rw [hfds0, hfs0] at hops
    have hfds3 : k'.fds = k2.fds := hcopy.fds.trans (fds_setProc_same (k := { k2 with fs := fs }) rfl)
    refine h.ops ?_ fun q hq i => ?_
    · rw [hfds3, hcopy.fs]
      exact hops.tail (.same (idup_same hfs))
    rw [hcopy.state q] at hq
    have hqn : q ≠ np := by
      rintro rfl
      rw [proc_setProc_self] at hq
      rcases hq with hq | hq
      · cases hq
      · cases hq
    rw [proc_setProc_ne hqn, (hsame q).1] at hq
    have hstate : ((k.forking p np s a m pgdir d).proc q).state = (k.proc q).state := by
      by_cases hqp : q = p
      · subst hqp
        simp [Kernel.forking, Kernel.setProc, hqn]
      · simp [Kernel.forking, Kernel.setProc, hqp, hqn]
    rw [hstate] at hq
    have hold : (k'.proc q).ofile i = k.fds (q, i) := by
      rw [← congrFun hfds0 (q, i)]
      exact (congrFun hfds3 (q, i)).trans (congrFun ((hsame q).2 hqn) i)
    exact hold.trans (h.empty q hq i)
  · obtain ⟨k4, -, hf⟩ := bind_eq_ok.mp hf
    cases hf

theorem unmapAll_sameFiles {is : List (Fin MAX_WMMAP_INFO)} (h : unmapAll p is k = .ok k') :
    SameFiles k p k' := by
  induction is generalizing k with
  | nil =>
    cases h
    exact .refl _ _
  | cons i is ih =>
    rw [unmapAll] at h
    dsimp only at h
    split at h
    · exact ih h
    · obtain ⟨⟨b, k1⟩, hw, h⟩ := bind_eq_ok.mp h
      exact (wunmap_sameFiles hw).trans (ih h)

/-- The loop of `exit` gives up each descriptor and the reference that goes with it. -/
theorem closeAll_ops {is : List (Fin NOFILE)} (h : closeAll p is k = .ok k') :
    FdOps ⟨k.fds, 0, k.fs⟩ ⟨k'.fds, 0, k'.fs⟩ ∧
      ∀ i, i ∈ is ∨ (k.proc p).ofile i = none → (k'.proc p).ofile i = none := by
  induction is generalizing k with
  | nil =>
    cases h
    exact ⟨.refl, fun i hi => by simpa using hi⟩
  | cons j is ih =>
    rw [closeAll] at h
    split at h
    · rename_i hnone
      obtain ⟨hops, hclosed⟩ := ih h
      refine ⟨hops, fun i hi => hclosed i ?_⟩
      rcases hi with hi | hi
      · rcases List.mem_cons.mp hi with rfl | hi
        · exact Or.inr hnone
        · exact Or.inl hi
      · exact Or.inr hi
    · rename_i f hf
      obtain ⟨fs, hfs, h⟩ := bind_eq_ok.mp h
      obtain ⟨hops, hclosed⟩ := ih h
      rw [fds_setProc] at hops
      refine ⟨.trans (.tail (.single (.give (p, j) hf)) (.close hfs)) hops, fun i hi => hclosed i ?_⟩
      by_cases hij : i = j
      · subst hij
        exact Or.inr (by simp)
      · rcases hi with hi | hi
        · exact Or.inl ((List.mem_cons.mp hi).resolve_left hij)
        · exact Or.inr (by simpa [hij] using hi)

theorem Kernel.FilesOk.exit (h : k.FilesOk) (hp : (k.proc p).state = .running)
    (he : Xv6.exit k p = .ok k') : k'.FilesOk := by
  unfold Xv6.exit at he
  split at he
  · cases he
  obtain ⟨k1, hu, he⟩ := bind_eq_ok.mp he
  obtain ⟨k2, hc, he⟩ := bind_eq_ok.mp he
  obtain ⟨fs, hfs, he⟩ := bind_eq_ok.mp he
  cases he
  have hsame := unmapAll_sameFiles hu
  generalize decTables (k1.proc p).pgdir.tables k1.mach = m at hc
  obtain ⟨hops, hclosed⟩ := closeAll_ops hc
  have hk2 := closeAll_spec hc
  have hofile : ∀ q, (((reparent ({ k2 with fs := fs }.setProc p { k2.proc p with cwd := none })
      p).setProc p { (reparent ({ k2 with fs := fs }.setProc p { k2.proc p with cwd := none }) p).proc p
        with state := .zombie }).proc q).ofile = (k2.proc q).ofile := by
    intro q
    by_cases hqp : q = p
    · subst hqp
      rw [proc_setProc_self]
      dsimp only
      rw [proc_reparent, proc_setProc_self]
    · rw [proc_setProc_ne hqp, proc_reparent, proc_setProc_ne hqp]
  have hfds := funext fun r : Fin NPROC × Fin NOFILE => congrFun (hofile r.1) r.2
  refine h.ops ?_ fun q hq i => ?_
  · have h1 : FdOps ⟨k.fds, 0, k.fs⟩ ⟨k1.fds, 0, k1.fs⟩ := by
      rw [hsame.fds]
      exact .single (.same hsame.fs)
    have h2 : FdOps ⟨k.fds, 0, k.fs⟩ ⟨k2.fds, 0, k2.fs⟩ := h1.trans hops
    have h3 := h2.tail (.same (iput_same hfs))
    rw [show k2.fds = _ from hfds.symm] at h3
    exact h3
  · rw [hofile q]
    by_cases hqp : q = p
    · subst hqp
      exact hclosed i (Or.inl (List.mem_finRange i))
    have hq2 : k2.proc q = k1.proc q := by
      rw [hk2, proc_setProc_ne hqp]
    rw [proc_setProc_ne hqp, proc_reparent, proc_setProc_ne hqp] at hq
    dsimp only at hq
    rw [hq2, hsame.state q] at hq
    rw [hq2, hsame.ofile q]
    exact h.empty q hq i

theorem Kernel.FilesOk.step {a : HandleAct} (h : k.FilesOk) (hs : HandleStep k a k') :
    k'.FilesOk := by
  cases hs with
  | call hready hc => exact h.change hready.1 (FdCall.change hc)
  | wmap hready hw => exact h.wmap hready.1 hw
  | fork hready hf => exact h.fork hready.1 hf
  | exit hready he => exact h.exit hready.1 he
  | other hu => exact h.undisturbed hu

/-- No file is open: the table is zeroed and no process has a descriptor. -/
structure Kernel.NoFiles (k : Kernel) : Prop where
  file : ∀ f, k.fs.file f = {}
  npages : k.fs.npages = 0
  ofile : ∀ q i, (k.proc q).ofile i = none

theorem Kernel.NoFiles.filesOk (h : k.NoFiles) : k.FilesOk := by
  refine ⟨fun f => ?_, ⟨fun f _ => ?_, fun f hf => ?_, fun pg w f g hf => ?_, fun pg w hpg => ?_,
    fun pg hpg => ?_⟩, fun q _ i => h.ofile q i⟩
  · rw [Files.refs, h.file f]
    symm
    simp [handles, Kernel.fds, h.ofile]
  · rw [h.file f]
  · rw [h.file f] at hf
    cases hf
  · have hf := hf.1
    rw [h.file f] at hf
    cases hf
  · exact absurd hpg (by rw [h.npages]; exact Nat.not_lt_zero _)
  · exact absurd hpg (by rw [h.npages]; exact Nat.not_lt_zero _)

end

def Kernel.PipeOpen (k : Kernel) (pg : Nat) : Prop :=
  ∃ r f, k.fds r = some f ∧ (k.fs.file f).type = .pipe ∧ (k.fs.file f).pipe = some pg

theorem Kernel.FilesOk.pipeOpen_iff {k : Kernel} (h : k.FilesOk) {pg : Nat} (hpg : pg < k.fs.npages) :
    k.PipeOpen pg ↔ ((k.fs.page pg).readopen || (k.fs.page pg).writeopen) = true := by
  rw [PipePage.open_or]
  constructor
  · rintro ⟨r, f, -, ht, hp⟩
    exact ⟨(k.fs.file f).writable, (h.files.isOpen pg _ hpg).mpr ⟨f, ht, hp, rfl⟩⟩
  rintro ⟨w, hw⟩
  obtain ⟨f, hf⟩ := (h.files.isOpen pg w hpg).mp hw
  have href : k.fs.refs f ≠ 0 := fun h0 => absurd (hf.1.symm.trans (h.files.idle f h0)) nofun
  rw [h.refs f] at href
  obtain ⟨r, hr⟩ := handles_pos_iff.mp (Nat.pos_of_ne_zero href)
  exact ⟨r, f, hr, hf.1, hf.2.1⟩

/-- From a system without open files, after any sequence of calls, the count of each file is
the number of descriptors that stand for it, no descriptor stands for a file without
references, and the page of each pipe has been freed once if no descriptor stands for one of
its ends, and not at all otherwise. -/
theorem open_file_counts {k0 k : Kernel} {as : List HandleAct} (h₀ : k0.NoFiles)
    (h : Lib.Run HandleStep k0 as k) :
    (∀ f, (k.fs.file f).ref = handles k.fds f) ∧
    (∀ r f, k.fds r = some f → (k.fs.file f).ref ≠ 0) ∧
    (∀ r f, k.fds r = some f → (k.fs.file f).type = .pipe →
      ∃ pg < k.fs.npages, (k.fs.file f).pipe = some pg) ∧
    ∀ pg < k.fs.npages, (k.PipeOpen pg → (k.fs.page pg).freed = 0) ∧
      (¬ k.PipeOpen pg → (k.fs.page pg).freed = 1) := by
  have hok : k.FilesOk := h.invariant Kernel.FilesOk h₀.filesOk fun _ _ _ hs hstep => hs.step hstep
  refine ⟨hok.refs, fun r f hr => ?_, fun r f _ ht => hok.files.inPage f ht, fun pg hpg => ?_⟩
  · have hpos := handles_pos_iff.mpr ⟨r, hr⟩
    have href : (k.fs.file f).ref = handles k.fds f := hok.refs f
    omega
  · rw [hok.pipeOpen_iff hpg, hok.files.freed pg hpg]
    refine ⟨fun ho => if_pos ho, fun ho => if_neg ho⟩

theorem handleRun_of_calls {k k' : Kernel} {p : Fin NPROC} {cs : List FdCall} (hready : k.ready p)
    (h : cs.foldlM (fun k c => c.perform k p) k = .ok k') :
    Lib.Run HandleStep k (cs.map (.call p)) k' := by
  induction cs generalizing k with
  | nil =>
    cases h
    exact .refl
  | cons c cs ih =>
    rw [List.foldlM_cons] at h
    obtain ⟨k1, hc, h⟩ := bind_eq_ok.mp h
    have hready1 : k1.ready p := by
      rw [Kernel.ready, (FdCall.change hc).eq, proc_setProc_self]
      exact hready
    exact (Lib.Run.single (.call hready hc)).trans (ih hready1 h)

/-- A process opens a pipe and closes both ends. -/
theorem open_file_counts_one_pipe : ∃ k, Lib.Run HandleStep
      (Kernel.fresh.setProc 0 { Kernel.fresh.proc 0 with state := .running })
      [.call 0 (.pipe true), .call 0 (.close 0), .call 0 (.close 1)] k ∧
    k.fs.npages = 1 ∧ (k.fs.page 0).freed = 1 ∧ ∀ f, (k.fs.file f).ref = handles k.fds f := by
  have hstart : (Kernel.fresh.setProc 0 { Kernel.fresh.proc 0 with state := .running }).NoFiles := by
    refine ⟨fun _ => rfl, rfl, fun q i => ?_⟩
    by_cases hq : q = 0
    · subst hq
      rfl
    · rw [Kernel.proc_setProc_ne hq]
      rfl
  have hany : (([.pipe true, .close 0, .close 1] : List FdCall).foldlM (fun k c => FdCall.perform k 0 c)
      (Kernel.fresh.setProc 0 { Kernel.fresh.proc 0 with state := .running })).toOption.any
      (fun k => k.fs.npages = 1 && (k.fs.page 0).freed = 1) = true := by decide +kernel
  cases hk : ([.pipe true, .close 0, .close 1] : List FdCall).foldlM (fun k c => FdCall.perform k 0 c)
      (Kernel.fresh.setProc 0 { Kernel.fresh.proc 0 with state := .running }) with
  | error e =>
    rw [hk] at hany
    cases hany
  | ok k =>
    rw [hk] at hany
    have hrun := handleRun_of_calls ⟨rfl, rfl⟩ hk
    have hp := of_decide_eq_true (Bool.and_eq_true_iff.mp hany).1
    exact ⟨k, hrun, hp, of_decide_eq_true (Bool.and_eq_true_iff.mp hany).2,
      (open_file_counts hstart hrun).1⟩

end Xv6
