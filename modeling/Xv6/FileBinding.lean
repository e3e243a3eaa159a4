import Xv6.DescriptorBalance
import Xv6.Launch
import Xv6.Steps

/-!
The file behind a file-backed region. A region stores a descriptor number, and the
descriptor `wmap` took for it lies in the table that user code closes and reuses. The
number keeps standing for the file that was mapped as long as user code does not close
it, and as long as `wmap` was given an open descriptor and found a free one.
-/

namespace Xv6

open Wmap Kernel

variable {addr : Nat} {s : Bindings} {p : Fin NPROC} {c : FdCall} {k' : Kernel}
  {closed : Option (Fin NOFILE)} {r : Option Nat} {b : Bool}

/-- The system with the file that the caller's descriptor stood for when each region was
mapped. -/
structure Bindings where
  kernel : Kernel
  file : Fin NPROC → Fin MAX_WMMAP_INFO → Option Nat

/-- A step of the system, or a call on descriptors by process `p`. -/
inductive FileAct where
  | sys (a : Act)
  | fd (p : Fin NPROC) (c : FdCall)

def Act.Regions : Act → Prop
  | .fork _ | .wmap _ _ _ _ _ | .wunmap _ _ => True
  | _ => False

/-- No process appears, and descriptors, reference counts and regions are left alone. -/
structure Calm (k k' : Kernel) : Prop where
  fds : k'.fds = k.fds
  refs : k'.fs.refs = k.fs.refs
  live : ∀ q, (k'.proc q).live → (k.proc q).live
  regions : ∀ q, (k'.proc q).live → (k'.proc q).wmap.unloaded = (k.proc q).wmap.unloaded

/-- The file of slot `i` of process `q` after a step: `wmap` sets it in the slots that were
free, a child has those of its parent. -/
def Bindings.after (s : Bindings) (a : FileAct) (q : Fin NPROC) (i : Fin MAX_WMMAP_INFO) :
    Option Nat :=
  let k := s.kernel
  match a with
  | .sys (.wmap p _ _ _ fd) =>
    if p = q ∧ i ∉ (k.proc q).wmap.active then (argfd (k.proc q) fd).map Prod.snd
    else s.file q i
  | .sys (.fork p) => if (k.proc q).state = .unused then s.file p i else s.file q i
  | _ => s.file q i

/-- The calls `wmap`, `wunmap`, `fork`, `open`, `close`, `dup` and `pipe`, and the steps
between them that leave descriptors and regions alone. -/
def Bindings.Step (s : Bindings) (a : FileAct) (s' : Bindings) : Prop :=
  s'.file = s.after a ∧
  match a with
  | .sys a => Xv6.Step s.kernel a s'.kernel ∧ (¬ a.Regions → Calm s.kernel s'.kernel)
  | .fd p c => s.kernel.ready p ∧ c.perform s.kernel p = .ok s'.kernel

theorem FdCall.bindingsStep (hready : s.kernel.ready p) (h : c.perform s.kernel p = .ok k') :
    s.Step (.fd p c) ⟨k', s.after (.fd p c)⟩ := ⟨rfl, hready, h⟩

theorem Step.bindingsStep {a : Act} (h : Xv6.Step s.kernel a k') (ha : a.Regions) :
    s.Step (.sys a) ⟨k', s.after (.sys a)⟩ :=
  ⟨rfl, h, fun hn => (hn ha).elim⟩

/-- File-backed regions store a descriptor that stands for the file that was mapped. -/
def Proc.Bound (x : Proc) (file : Fin MAX_WMMAP_INFO → Option Nat) : Prop :=
  ∀ i ∈ x.wmap.active, (x.wmap.slot i).fileBacked = true →
    ∃ (fd : Fin NOFILE) (f : Nat), (x.wmap.slot i).fd = (fd.val : Int) ∧ file i = some f ∧
      x.ofile fd = some f

def Bindings.Bound (s : Bindings) : Prop :=
  ∀ q, (s.kernel.proc q).live → (s.kernel.proc q).Bound (s.file q)

/-- A file-backed mapping that is accepted has a descriptor that can be duplicated, and no
descriptor that a file-backed region stores is closed. -/
def FileAct.Keeps (k : Kernel) : FileAct → Prop
  | .sys (.wmap p addr length flags n) => WmapArgs addr length flags → flags &&& 4 = 0 →
      (k.proc p).wmap.Accepts addr length → (k.proc p).CanDup n
  | .fd p (.close n) => ∀ i ∈ (k.proc p).wmap.active,
      ((k.proc p).wmap.slot i).fileBacked = true → ((k.proc p).wmap.slot i).fd ≠ n
  | _ => True

section
variable {k k1 k' : Kernel} {p q : Fin NPROC} {x y : Proc}
  {file file' : Fin MAX_WMMAP_INFO → Option Nat}

theorem Proc.Bound.change (h : x.Bound file)
    (hw : ∀ i ∈ y.wmap.active, (y.wmap.slot i).fileBacked = true → i ∈ x.wmap.active ∧
      (x.wmap.slot i).fileBacked = true ∧ (y.wmap.slot i).fd = (x.wmap.slot i).fd ∧
      file' i = file i)
    (hfd : ∀ i ∈ x.wmap.active, (x.wmap.slot i).fileBacked = true → ∀ (fd : Fin NOFILE) f,
      (x.wmap.slot i).fd = (fd.val : Int) → x.ofile fd = some f → y.ofile fd = some f) :
    y.Bound file' := by
  intro i hi hb
  obtain ⟨hi', hb', hfd', hfile⟩ := hw i hi hb
  obtain ⟨fd, f, hstored, hf, hopen⟩ := h i hi' hb'
  exact ⟨fd, f, hfd'.trans hstored, hfile.trans hf, hfd i hi' hb' fd f hstored hopen⟩

theorem Proc.Bound.congr (h : x.Bound file) (hw : y.wmap.unloaded = x.wmap.unloaded)
    (hofile : y.ofile = x.ofile) : y.Bound file := by
  refine h.change (fun i hi hb => ?_) fun i _ _ fd f _ hf => by rw [hofile]; exact hf
  have hslot := congrArg (fun w => w.slot i) hw
  have hact : y.wmap.active = x.wmap.active := by
    rw [← active_unloaded, hw, active_unloaded]
  have hb' := congrArg Region.fileBacked hslot
  have hfd := congrArg Region.fd hslot
  exact ⟨hact ▸ hi, hb'.symm.trans hb, hfd, rfl⟩

theorem Proc.Bound.fdChange (hb : (k.proc p).Bound file) (h : FdChange k p closed k')
    (hclosed : ∀ i ∈ (k.proc p).wmap.active, ((k.proc p).wmap.slot i).fileBacked = true →
      ∀ fd : Fin NOFILE, ((k.proc p).wmap.slot i).fd = (fd.val : Int) → closed ≠ some fd) :
    (k'.proc p).Bound file := by
  have hwmap : (k'.proc p).wmap = (k.proc p).wmap := by
    rw [h.eq, proc_setProc_self]
  refine hb.change (fun i hi hfb => ?_) fun i hi hfb fd f hfd hf =>
    h.kept fd f hf (hclosed i hi hfb fd hfd)
  rw [hwmap] at hi hfb ⊢
  exact ⟨hi, hfb, rfl, rfl⟩

theorem FdChange.proc_ne (h : FdChange k p closed k') (hq : q ≠ p) : k'.proc q = k.proc q := by
  rw [h.eq, proc_setProc_ne hq]

theorem bound_sysWmap {length : Int} {flags : Nat} {fd : Int} (hb : (k.proc p).Bound file)
    (hkeep : WmapArgs addr length flags → flags &&& 4 = 0 →
      (k.proc p).wmap.Accepts addr length → (k.proc p).CanDup fd)
    (hold : ∀ i ∈ (k.proc p).wmap.active, file' i = file i)
    (hnew : ∀ i, i ∉ (k.proc p).wmap.active → file' i = (argfd (k.proc p) fd).map Prod.snd)
    (h : sysWmap k p addr length flags fd = .ok (r, k')) : (k'.proc p).Bound file' := by
  have hsame : ∀ {y : Proc}, y.wmap = (k.proc p).wmap →
      (∀ (j : Fin NOFILE) f, (k.proc p).ofile j = some f → y.ofile j = some f) → y.Bound file' := by
    intro y hw hfd
    refine hb.change (fun i hi hfb => ?_) fun _ _ _ j f _ hf => hfd j f hf
    rw [hw] at hi hfb ⊢
    exact ⟨hi, hfb, rfl, hold i hi⟩
  rcases sysWmap_cases h with ⟨-, rfl⟩ | ⟨h1, h2, h3, h4, h5, h6, h⟩
  · exact hsame rfl fun _ _ hf => hf
  obtain ⟨n, k1, hn, hcase⟩ := wmap_stored h
  have hw : (k1.proc p).wmap = (k.proc p).wmap := by
    rw [storedFd_spec hn]
    simp [Kernel.setProc]
  have hkept : ∀ (j : Fin NOFILE) f, (k.proc p).ofile j = some f →
      (k1.proc p).ofile j = some f := by
    intro j f hf
    rcases storedFd_cases hn with ⟨-, -, rfl⟩ | ⟨_, _, -, hd⟩
    · exact hf
    · exact hd.change.kept j f hf (by simp)
  rcases hcase with ⟨-, rfl, -⟩ | ⟨w, -, hadd, rfl⟩
  · exact hsame hw hkept
  have haccepts := (add_isSome_iff (flags &&& 4 = 0) n).mp (by rw [hadd]; rfl)
  obtain ⟨-, -, i, hi, rfl⟩ := add_some hadd
  rw [proc_setProc_self]
  intro j hj hfb
  dsimp only at hj hfb ⊢
  by_cases hji : j = i
  · subst hji
    rw [slot_update_self] at hfb ⊢
    have hcan := hkeep ⟨h1, h2, h3, h4, h5, h6⟩ (of_decide_eq_true hfb) haccepts
    rcases storedFd_cases hn with ⟨hnot, -, -⟩ | ⟨l, f, rfl, hd⟩
    · exact (hnot hcan).elim
    · obtain ⟨l', hl'⟩ := hd.source
      refine ⟨l, f, rfl, ?_, by rw [hd.ofile, Function.update_self]⟩
      rw [hnew j hi, hl']
      rfl
  · have hj' : j ∈ (k.proc p).wmap.active := by
      rw [mem_active, slot_update_ne hji] at hj
      exact mem_active.mpr hj
    rw [slot_update_ne hji] at hfb ⊢
    obtain ⟨l, f, hl, hf, hopen⟩ := hb j hj' hfb
    exact ⟨l, f, hl, (hold j hj').trans hf, hkept l f hopen⟩

theorem sysWunmap_slot (h : sysWunmap k p addr = .ok (b, k')) (i : Fin MAX_WMMAP_INFO) :
    (k'.proc p).wmap.slot i = (k.proc p).wmap.slot i ∨
      (k'.proc p).wmap.slot i = Region.empty := by
  unfold sysWunmap at h
  split at h
  · cases h
    exact Or.inl rfl
  rcases wunmap_cases h with ⟨-, -, rfl⟩ | ⟨-, -, -, rfl⟩ | ⟨-, j, k1, -, hu, rfl⟩
  · exact Or.inl rfl
  · exact Or.inl rfl
  have hsame := (wmap_unmapPages hu).1
  split
  · simp only [Kernel.dropRegion, proc_setProc_self, hsame]
    by_cases hij : i = j
    · subst hij
      exact Or.inr (slot_update_self _ _ _ _)
    · exact Or.inl (slot_update_ne hij)
  · rw [hsame]
    exact Or.inl rfl

theorem bound_sysWunmap (hb : (k.proc p).Bound file) (h : sysWunmap k p addr = .ok (b, k')) :
    (k'.proc p).Bound file := by
  refine hb.change (fun i hi hfb => ?_) fun _ _ _ j f _ hf => by
    rw [(sysWunmap_sameFiles h).ofile p]
    exact hf
  rw [mem_active] at hi ⊢
  rcases sysWunmap_slot h i with hs | hs
  · rw [hs] at hi hfb ⊢
    exact ⟨hi, hfb, rfl, rfl⟩
  · rw [hs] at hi
    cases hi

theorem bound_fork {files files' : Fin NPROC → Fin MAX_WMMAP_INFO → Option Nat} (hs : k.Sane)
    (hp : (k.proc p).live) (hb : ∀ q, (k.proc q).live → (k.proc q).Bound (files q))
    (hfiles : ∀ q, files' q = if (k.proc q).state = .unused then files p else files q)
    (h : fork k p = .ok (r, k')) (hq : (k'.proc q).live) : (k'.proc q).Bound (files' q) := by
  have hsz := ((hs p).size hp).le
  have hok := (hs p).wmap hp
  have hchild := (fork_files hp hsz hok h).2
  rw [hfiles q]
  -- a slot that is taken is bound as before, as long as its process is
  have hlive : k'.proc q = k.proc q ∨ k'.proc q = { k.proc q with pgdir := (k'.proc q).pgdir } →
      (k.proc q).live → (k'.proc q).Bound
        (if (k.proc q).state = .unused then files p else files q) := by
    intro he hl
    rw [if_neg hl]
    rcases he with he | he
    · rw [he]
      exact hb q hl
    · exact (hb q hl).congr (by rw [he]) (by rw [he])
  have hframe : ∀ np, ForkFrame k p np k' → q ≠ np → (k'.proc q).Bound
      (if (k.proc q).state = .unused then files p else files q) := by
    intro np hf hqn
    by_cases hqp : q = p
    · subst hqp
      exact hlive (Or.inr hf.parent) hp
    · have he := hf.others q hqp hqn
      rw [he] at hq
      exact hlive (Or.inl he) hq
  rcases fork_spec hp hsz hok h with ⟨-, rfl | ⟨np, hun, -, hk⟩⟩ |
      ⟨-, np, s, a, m, j, t, hf⟩ | ⟨-, np, s, a, a1, m, d, d1, done, hf⟩ |
      ⟨-, np, s, a, m, d, done, hf⟩
  · exact hlive (Or.inl rfl) hq
  · by_cases hqn : q = np
    · subst hqn
      rw [hk, proc_setProc_self] at hq
      exact (hq hun).elim
    · have he : k'.proc q = k.proc q := by
        rw [hk, proc_setProc_ne hqn]
      rw [he] at hq
      exact hlive (Or.inl he) hq
  · by_cases hqn : q = np
    · subst hqn
      rw [hf.child] at hq
      exact (hq rfl).elim
    · exact hframe np hf.toForkFrame hqn
  · by_cases hqn : q = np
    · subst hqn
      exact (hq hf.child.1).elim
    · exact hframe np hf.toForkFrame hqn
  · by_cases hqn : q = np
    · subst hqn
      rw [if_pos hf.unused]
      refine (hb p hp).change (fun i hi hfb => ?_) fun _ _ _ j f _ hopen =>
        hchild q hf.unused hq j f hopen
      rw [mem_active, hf.slot] at hi
      rw [hf.slot] at hfb ⊢
      by_cases hip : i ∈ (k.proc p).wmap.active
      · rw [if_pos hip] at hfb ⊢
        exact ⟨hip, hfb, rfl, rfl⟩
      · rw [if_neg hip] at hi
        cases hi
    · exact hframe np hf.toForkFrame hqn

end

/-- The processes are sane, reference counts cover the descriptors and regions are bound. -/
structure Bindings.Inv (s : Bindings) : Prop where
  sane : s.kernel.Sane
  counted : s.kernel.FilesCounted
  bound : s.Bound

section
variable {s s' : Bindings} {a : FileAct}

theorem Bindings.Inv.fd (h : s.Inv) (hkeep : (FileAct.fd p c).Keeps s.kernel)
    (hstep : s.Step (.fd p c) s') : s'.Inv := by
  obtain ⟨hfile, hready, hc⟩ := hstep
  have hchange := FdCall.change hc
  have hsane : s'.kernel.Sane := by
    refine step_sane (a := .files p (s'.kernel.proc p).ofile s'.kernel.fs) h.sane ⟨hready, ?_⟩
    exact congrArg Except.ok hchange.eq.symm
  refine ⟨hsane, hchange.counted h.counted, fun q hq => ?_⟩
  rw [congrFun hfile q, show s.after (.fd p c) q = s.file q from rfl]
  by_cases hqp : q = p
  · subst hqp
    refine (h.bound q hready.live).fdChange hchange fun i hi hfb fd hfd hcl => ?_
    cases c with
    | close n =>
      obtain ⟨⟨j, f⟩, harg, rfl⟩ := Option.map_eq_some_iff.mp hcl
      exact hkeep i hi hfb (hfd.trans (argfd_some harg).2.symm)
    | «open» _ _ | dup _ | pipe _ => cases hcl
  · rw [hchange.proc_ne hqp] at hq ⊢
    exact h.bound q hq

theorem Bindings.Inv.step (h : s.Inv) (hkeep : a.Keeps s.kernel) (hstep : s.Step a s') : s'.Inv := by
  cases a with
  | fd p c => exact h.fd hkeep hstep
  | sys a =>
    obtain ⟨hfile, hstep, hcalm⟩ := hstep
    have hsane := step_sane h.sane hstep
    have hother : ¬ a.Regions → s.after (.sys a) = s.file → s'.Inv := by
      intro hn he
      have hc := hcalm hn
      refine ⟨hsane, h.counted.congr hc.fds hc.refs, fun q hq => ?_⟩
      rw [hfile, he]
      exact (h.bound q (hc.live q hq)).congr (hc.regions q hq)
        (funext fun j => congrFun hc.fds (q, j))
    obtain ⟨k', file'⟩ := s'
    dsimp only at hfile hsane
    subst hfile
    obtain ⟨hen, hperform⟩ := hstep
    cases perform_ok hperform with
    | @fork p r k1 hf =>
      have hready : s.kernel.ready p := hen
      have hs := h.sane.enter p
      have hsz := ((hs p).size hready.live).le
      have hok := (hs p).wmap hready.live
      have hcount := (fork_files (k := s.kernel.enter p) hready.live hsz hok hf).1
      refine ⟨hsane, hcount h.counted, fun q hq => ?_⟩
      change (k1.proc q).Bound _
      refine bound_fork (k := s.kernel.enter p) hs hready.live h.bound (fun q => ?_) hf hq
      funext i
      dsimp only [Bindings.after]
      split
      · rename_i hun
        exact (congrFun (if_pos hun) i).symm
      · rename_i hun
        exact (congrFun (if_neg hun) i).symm
    | @wmap p addr length flags n r k1 hf =>
      have hready : s.kernel.ready p := hen.1
      obtain ⟨hcount, hne⟩ := sysWmap_files hf
      refine ⟨hsane, hcount h.counted, fun q hq => ?_⟩
      change (k1.proc q).Bound _
      by_cases hqp : q = p
      · subst hqp
        refine bound_sysWmap (k := s.kernel.enter q) (h.bound q hready.live) hkeep
          (fun i hi => ?_) (fun i hi => ?_) hf
        · exact if_neg fun hc => hc.2 hi
        · exact if_pos ⟨rfl, hi⟩
      · have hfile : s.after (.sys (.wmap p addr length flags n)) q = s.file q :=
          funext fun i => if_neg fun hc => hqp hc.1.symm
        change (k1.proc q).live at hq
        rw [hne q hqp] at hq ⊢
        dsimp only
        rw [hfile]
        exact h.bound q hq
    | @wunmap p addr b k1 hf =>
      have hready : s.kernel.ready p := hen.1
      have hsame := sysWunmap_sameFiles hf
      refine ⟨hsane, hsame.counted h.counted, fun q hq => ?_⟩
      change (k1.proc q).Bound (s.file q)
      by_cases hqp : q = p
      · subst hqp
        exact bound_sysWunmap (k := s.kernel.enter q) (h.bound q hready.live) hf
      · have hl : (s.kernel.proc q).live := fun hun => hq ((hsame.state q).trans hun)
        exact (h.bound q hl).congr (congrArg Wmap.unloaded (hsame.wmap q hqp)) (hsame.ofile q)
    | _ => exact hother id rfl

end

theorem fdget_eq {x : Proc} {fd : Fin NOFILE} {n : Int} (h : n = (fd.val : Int)) :
    x.fdget n = .ok (x.ofile fd) := by
  have hlt := fd.isLt
  subst h
  rw [Proc.fdget, dif_pos ⟨by omega, by omega⟩]
  rfl

/-- In every state reached from the start by steps that keep them, each file-backed region
stores a descriptor that stands for the file that was mapped, and that file is open. It is
the file that page-in and write-back get. -/
theorem mapped_files_bound {k0 : Kernel} {as : List FileAct} {s : Bindings} (hstart : k0.Start)
    (h : Lib.Run (Lib.When (fun s a => a.Keeps s.kernel) Bindings.Step) ⟨k0, fun _ _ => none⟩ as s)
    {q : Fin NPROC} (hq : (s.kernel.proc q).live) {i : Fin MAX_WMMAP_INFO}
    (hi : i ∈ (s.kernel.proc q).wmap.active)
    (hfb : ((s.kernel.proc q).wmap.slot i).fileBacked = true) :
    ∃ (fd : Fin NOFILE) (f : Nat), ((s.kernel.proc q).wmap.slot i).fd = (fd.val : Int) ∧
      s.file q i = some f ∧ (s.kernel.proc q).ofile fd = some f ∧
      1 ≤ (s.kernel.fs.file f).ref ∧
      (s.kernel.proc q).fdget ((s.kernel.proc q).wmap.slot i).fd = .ok (some f) := by
  obtain ⟨image, freelist, fs, root, initcode, hn, hr, hlen, hboot⟩ := hstart
  obtain ⟨x, f0, hb⟩ := boot_spec hlen hboot
  have hclosed : ∀ q j, (k0.proc q).ofile j = none := by
    intro q j
    by_cases hq : q = 0
    · subst hq
      rw [hb.self]
      rfl
    · rw [hb.others q hq]
      rfl
  have hinv : s.Inv := by
    refine h.invariant Bindings.Inv ⟨hb.sane, fun f => ?_, fun q hl i hi => ?_⟩
      fun t a u ht hstep => ht.step hstep.1 hstep.2
    · have hnone : Lib.handles k0.fds f = 0 := by
        refine Finset.card_eq_zero.mpr (Finset.filter_false_of_mem fun r _ => ?_)
        rw [Kernel.fds, hclosed]
        simp
      exact hnone.trans_le (Nat.zero_le _)
    · dsimp only at hl hi
      by_cases hq : q = 0
      · subst hq
        rw [hb.self] at hi
        simp at hi
      · rw [hb.others q hq] at hl
        exact (hl rfl).elim
  obtain ⟨fd, f, hfd, hfile, hopen⟩ := hinv.bound q hq i hi hfb
  exact ⟨fd, f, hfd, hfile, hopen, hinv.counted.pos (i := (q, fd)) hopen,
    (fdget_eq hfd).trans (by rw [hopen])⟩

/-- Files of which the root directory and two empty files, inodes 2 and 3, exist. -/
def twoFiles : Files :=
  (rootFiles.setInode 2 { type := 2, nlink := 1 }).setInode 3 { type := 2, nlink := 1 }

/-- The kernel `k` with `initproc` running, without regions or open files. -/
def Kernel.running (k : Kernel) : Kernel :=
  { k with fs := twoFiles.setInode 1 { type := 1, nlink := 1, ref := 1 } }.setProc 0
    { k.proc 0 with
      state := .running, cowFault := none, ofile := fun _ => none, wmap := Wmap.init }

theorem exists_running : ∃ k0 k : Kernel, k0.Start ∧
    Bindings.Step ⟨k0, fun _ _ => none⟩ (.sys (.dispatch 0)) ⟨k.running, fun _ _ => none⟩ := by
  obtain ⟨k0, x, s, hstart, hb⟩ := exists_booted twoFiles 1
  have hself := proc_dispatched_self k0 0
  have hk : (k0.dispatched 0).running = k0.dispatched 0 := by
    have hfs : (k0.dispatched 0).fs = twoFiles.setInode 1 { type := 1, nlink := 1, ref := 1 } :=
      hb.fs
    have hproc : ({ (k0.dispatched 0).proc 0 with
        state := .running, cowFault := none, ofile := fun _ => none, wmap := Wmap.init } : Proc) =
        (k0.dispatched 0).proc 0 := by
      rw [hself, hb.self]
      rfl
    rw [Kernel.running, hproc, ← hfs]
    simp [Kernel.setProc]
  refine ⟨k0, k0.dispatched 0, hstart, rfl, ?_, fun _ => ⟨?_, ?_, fun q hq => ?_, fun q hq => ?_⟩⟩
  · rw [hk]
    exact hb.dispatch
  · rw [hk]
    exact fds_setProc_same rfl
  · rw [hk]
    rfl
  · by_cases hq0 : q = 0
    · subst hq0
      rw [hb.self]
      rintro ⟨⟩
    · rw [hk, proc_dispatched_ne k0 hq0] at hq
      exact hq
  · rw [hk]
    by_cases hq0 : q = 0
    · subst hq0
      rw [hself]
    · rw [proc_dispatched_ne k0 hq0]

theorem mapped_files_bound_one_file : ∃ s : Bindings,
    (s.kernel.proc 0).wmap.slot 0 = ⟨0x60000000, 0x1000, 0, true, 1⟩ ∧
    ∃ (fd : Fin NOFILE) (f : Nat), ((s.kernel.proc 0).wmap.slot 0).fd = (fd.val : Int) ∧
      s.file 0 0 = some f ∧ (s.kernel.proc 0).ofile fd = some f ∧
      1 ≤ (s.kernel.fs.file f).ref ∧
      (s.kernel.proc 0).fdget ((s.kernel.proc 0).wmap.slot 0).fd = .ok (some f) := by
  obtain ⟨k0, k, hstart, hrun⟩ := exists_running
  have hmap : ∃ s : Bindings, Lib.Run (Lib.When (fun s a => a.Keeps s.kernel) Bindings.Step)
      ⟨k.running, fun _ _ => none⟩
      [.fd 0 (.open (some 2) 2), .sys (.wmap 0 0x60000000 0x1000 10 0)] s ∧
      (s.kernel.proc 0).live ∧
      (s.kernel.proc 0).wmap.slot 0 = ⟨0x60000000, 0x1000, 0, true, 1⟩ :=
    ⟨_, (Lib.Run.single ⟨trivial, FdCall.bindingsStep ⟨rfl, rfl⟩ rfl⟩).snoc
      ⟨fun _ _ _ => ⟨rfl, 1, rfl⟩, Step.bindingsStep
        ⟨⟨⟨rfl, rfl⟩, by decide, by decide, by decide⟩, rfl⟩ trivial⟩, nofun, rfl⟩
  obtain ⟨s, hmap, hlive, hslot⟩ := hmap
  have hfirst : Lib.Run (Lib.When (fun s a => a.Keeps s.kernel) Bindings.Step)
      ⟨k0, fun _ _ => none⟩ [.sys (.dispatch 0)] ⟨k.running, fun _ _ => none⟩ :=
    .single ⟨trivial, hrun⟩
  exact ⟨s, hslot, mapped_files_bound hstart (hfirst.trans hmap) hlive
    (Wmap.mem_active.mpr (by rw [hslot]; rfl)) (by rw [hslot])⟩

/-- `initproc` opens a file as descriptor 0 and maps it, so that the region stores the
duplicate 1. It closes 1 and opens another file: the region now stands for that one. -/
theorem mapped_file_replaced : ∃ (k0 : Kernel) (s : Bindings), k0.Start ∧
    Lib.Run Bindings.Step ⟨k0, fun _ _ => none⟩ [.sys (.dispatch 0), .fd 0 (.open (some 2) 2),
      .sys (.wmap 0 0x60000000 0x1000 10 0), .fd 0 (.close 1), .fd 0 (.open (some 3) 2)] s ∧
    (s.kernel.proc 0).live ∧
    (s.kernel.proc 0).wmap.slot 0 = ⟨0x60000000, 0x1000, 0, true, 1⟩ ∧
    s.file 0 0 = some 0 ∧ (s.kernel.fs.file 0).ip = some 2 ∧
    (s.kernel.proc 0).ofile 1 = some 1 ∧ (s.kernel.fs.file 1).ip = some 3 := by
  obtain ⟨k0, k, hstart, hrun⟩ := exists_running
  have hmap : ∃ s : Bindings, Lib.Run Bindings.Step ⟨k.running, fun _ _ => none⟩
      [.fd 0 (.open (some 2) 2), .sys (.wmap 0 0x60000000 0x1000 10 0), .fd 0 (.close 1),
        .fd 0 (.open (some 3) 2)] s ∧ (s.kernel.proc 0).live ∧
      (s.kernel.proc 0).wmap.slot 0 = ⟨0x60000000, 0x1000, 0, true, 1⟩ ∧
      s.file 0 0 = some 0 ∧ (s.kernel.fs.file 0).ip = some 2 ∧
      (s.kernel.proc 0).ofile 1 = some 1 ∧ (s.kernel.fs.file 1).ip = some 3 :=
    ⟨_, (((Lib.Run.single (FdCall.bindingsStep ⟨rfl, rfl⟩ rfl)).snoc
      (a := FileAct.sys (.wmap 0 0x60000000 0x1000 10 0))
      (Step.bindingsStep ⟨⟨⟨rfl, rfl⟩, by decide, by decide, by decide⟩, rfl⟩ trivial)).snoc
      (FdCall.bindingsStep ⟨rfl, rfl⟩ rfl)).snoc (FdCall.bindingsStep ⟨rfl, rfl⟩ rfl),
      (by rintro ⟨⟩), rfl, rfl, rfl, rfl, rfl⟩
  obtain ⟨s, hmap, hfacts⟩ := hmap
  exact ⟨k0, s, hstart, (Lib.Run.single hrun).trans hmap, hfacts⟩

end Xv6
