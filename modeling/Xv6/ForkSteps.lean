import Xv6.ForkSpec
import Xv6.System
import Xv6.Lib.Run

/-!
`fork` in steps. Between `allocproc`, `copyuvm`, the store that makes the child runnable,
each turn of the loop of `copyWmap` and the two halves of the failure path, the lock of
the process table is not held, and other CPUs run. Taken without interruption the steps
are the call.
-/

namespace Xv6

open Lib Kernel

/-- What comes next in a call of `fork` that has taken slot `np`. -/
inductive ForkPc where
  | copy (np : Fin NPROC)
  | publish (np : Fin NPROC)
  /-- the loop of `copyWmap` with the slots to go -/
  | slots (np : Fin NPROC) (is : List (Fin MAX_WMMAP_INFO))
  /-- `kfree(np->kstack)` on a failure path -/
  | free (np : Fin NPROC)
  /-- `np->kstack = 0; np->state = UNUSED` -/
  | giveUp (np : Fin NPROC)
deriving DecidableEq

def ForkPc.child : ForkPc → Fin NPROC
  | copy np | publish np | slots np _ | free np | giveUp np => np

/-- `fork` from `copyuvm` to the store of the name: false when `copyuvm` returned 0. -/
def forkCopy (k : Kernel) (p np : Fin NPROC) : Except Halt (Bool × Kernel) := do
  let x := k.proc p
  let (child, pgdir, m) ← copyuvm k.mach x.pgdir x.sz
  let x := { x with pgdir := pgdir }
  let k := { k with mach := m }.setProc p x
  match child with
  | none => pure (false, k)
  | some d => do
      let m := (k.mach.lcr3 x.pgdir.frame).lcr3 d.frame
      let y := k.proc np
      let y := { y with pgdir := d, wmap := { y.wmap with isChild := true }, sz := x.sz,
                        parent := some p, tf := { x.tf with eax := 0 } }
      let k ← dupAll p np (List.finRange NOFILE) ({ k with mach := m }.setProc np y)
      let fs ← idup k.fs (k.proc p).cwd
      pure (true, { k with fs := fs }.setProc np
        { k.proc np with cwd := (k.proc p).cwd, name := (k.proc p).name })

/-- `np->state = RUNNABLE` -/
def publish (k : Kernel) (np : Fin NPROC) : Kernel :=
  k.setProc np { k.proc np with state := .runnable }

/-- `kfree(np->kstack)` -/
def freeStack (k : Kernel) (np : Fin NPROC) : Except Halt Kernel :=
  match (k.proc np).kstack with
  | none => throw (.panic "kfree")
  | some s => do
      let m ← kfree k.mach s
      pure { k with mach := m }

/-- `np->kstack = 0; np->state = UNUSED` -/
def giveUp (k : Kernel) (np : Fin NPROC) : Kernel :=
  k.setProc np { k.proc np with kstack := none, state := .unused }

/-- The next step of a call of `fork` by process `p`, and where the call is then; none is
outside of the call. -/
def forkStep (k : Kernel) (p : Fin NPROC) : Option ForkPc → Except Halt (Option ForkPc × Kernel)
  | none =>
    match allocproc k with
    | (none, k) => pure (none, k)
    | (some np, k) => pure (some (.copy np), k)
  | some (.copy np) => do
      let (ok, k) ← forkCopy k p np
      pure (some (if ok then .publish np else .free np), k)
  | some (.publish np) => pure (some (.slots np (List.finRange MAX_WMMAP_INFO)), publish k np)
  | some (.slots _ []) => pure (none, k)
  | some (.slots np (i :: is)) => do
      let (ok, k) ← copySlots p np [i] k
      pure (some (if ok then .slots np is else .free np), k)
  | some (.free np) => do
      let k ← freeStack k np
      pure (some (.giveUp np), k)
  | some (.giveUp np) => pure (none, giveUp k np)

abbrev ForkAlone (p : Fin NPROC) (s : Option ForkPc × Kernel) (_ : Unit)
    (s' : Option ForkPc × Kernel) : Prop := forkStep s.2 p s.1 = .ok s'

section
variable {k k1 k' : Kernel} {p np : Fin NPROC}

theorem copySlots_cons (parent child : Fin NPROC) (i : Fin MAX_WMMAP_INFO)
    (is : List (Fin MAX_WMMAP_INFO)) (k : Kernel) :
    copySlots parent child (i :: is) k = (do
      let (ok, k) ← copySlots parent child [i] k
      if ok then copySlots parent child is k else pure (false, k)) := by
  simp only [copySlots]
  split
  · rfl
  · simp only [bind_assoc]
    refine bind_congr fun r => ?_
    split
    · rfl
    · rfl

theorem fork_eq (k : Kernel) (p : Fin NPROC) : fork k p =
    (match allocproc k with
    | (none, k) => pure (none, k)
    | (some np, k) => do
        let (ok, k) ← forkCopy k p np
        if ok then do
          let (ok, k) ← copyWmap (publish k np) p np
          if ok then pure (some (k.proc np).pid, k)
          else do
            let k ← dropSlot k np
            pure (none, k)
        else do
          let k ← dropSlot k np
          pure (none, k)) := by
  rw [fork]
  rcases allocproc k with ⟨_ | np, k1⟩
  · rfl
  dsimp only
  rw [forkCopy, bind_assoc]
  refine bind_congr fun r => ?_
  obtain ⟨child, pgdir, m⟩ := r
  cases child with
  | none => rfl
  | some d =>
    dsimp only
    rw [bind_assoc]
    refine bind_congr fun k2 => ?_
    rw [bind_assoc]
    refine bind_congr fun fs => ?_
    rw [pure_bind]
    simp only [publish, Kernel.setProc, Function.update_self, Function.update_idem, if_true]

theorem dropSlot_eq (k : Kernel) (np : Fin NPROC) :
    dropSlot k np = (do
      let k ← freeStack k np
      pure (giveUp k np)) := by
  unfold dropSlot freeStack
  dsimp only
  cases (k.proc np).kstack with
  | none => rfl
  | some s =>
    dsimp only
    rw [bind_assoc]
    rfl

theorem forkAlone_drop (h : dropSlot k np = .ok k') :
    ∃ ls, Lib.Run (ForkAlone p) (some (.free np), k) ls (none, k') := by
  rw [dropSlot_eq] at h
  obtain ⟨k1, hf, h⟩ := bind_eq_ok.mp h
  cases h
  have h1 : ForkAlone p (some (.free np), k) () (some (.giveUp np), k1) := by
    rw [ForkAlone, forkStep, bind_eq_ok]
    exact ⟨k1, hf, rfl⟩
  exact ⟨_, (Lib.Run.single h1).snoc (a := ()) rfl⟩

theorem forkAlone_slots {is : List (Fin MAX_WMMAP_INFO)} {b : Bool}
    (h : copySlots p np is k = .ok (b, k')) :
    ∃ ls, Lib.Run (ForkAlone p) (some (.slots np is), k) ls
      (if b then none else some (.free np), k') := by
  induction is generalizing k with
  | nil =>
    cases h
    exact ⟨_, Lib.Run.single (a := ()) rfl⟩
  | cons i is ih =>
    rw [copySlots_cons] at h
    obtain ⟨⟨ok, k1⟩, hc, h⟩ := bind_eq_ok.mp h
    have h1 : ForkAlone p (some (.slots np (i :: is)), k) ()
        (some (if ok then .slots np is else .free np), k1) := by
      rw [ForkAlone, forkStep, bind_eq_ok]
      exact ⟨(ok, k1), hc, rfl⟩
    cases ok with
    | true =>
      obtain ⟨ls, hls⟩ := ih h
      exact ⟨_, (Lib.Run.single h1).trans hls⟩
    | false =>
      cases h
      exact ⟨_, Lib.Run.single h1⟩

structure ForkCopy (k : Kernel) (p np : Fin NPROC) (b : Bool) (k' : Kernel) : Prop where
  others : ∀ q, q ≠ p → q ≠ np → k'.proc q = k.proc q
  parent : k'.proc p = { k.proc p with pgdir := (k'.proc p).pgdir }
  present : ∀ v, ((k'.proc p).pgdir.entry v).p = ((k.proc p).pgdir.entry v).p
  ppn : ∀ v, ((k'.proc p).pgdir.entry v).ppn = ((k.proc p).pgdir.entry v).ppn
  free : k'.mach.kmem.free ≤ k.mach.kmem.free
  failed : b = false → k'.proc np = k.proc np
  child : b = true → ∃ d parent tf ofile cwd name, k'.proc np = { k.proc np with
    pgdir := d, wmap := { (k.proc np).wmap with isChild := true }, sz := (k.proc p).sz,
    parent := parent, tf := tf, ofile := ofile, cwd := cwd, name := name }

theorem forkCopy_spec {b : Bool} (hne : p ≠ np) (hsz : (k.proc p).sz ≤ 0x80000000)
    (h : forkCopy k p np = .ok (b, k')) : ForkCopy k p np b k' := by
  obtain ⟨⟨child, pgdir, m⟩, hc, h⟩ := bind_eq_ok.mp h
  have hshare : ∀ n, (∀ v, v < n → ((k.proc p).pgdir.entry v).p = true) →
      (∀ v, pgdir.entry v = if v < n then ((k.proc p).pgdir.entry v).share
        else (k.proc p).pgdir.entry v) →
      ∀ v, (pgdir.entry v).p = ((k.proc p).pgdir.entry v).p ∧
        (pgdir.entry v).ppn = ((k.proc p).pgdir.entry v).ppn := by
    intro n hpres hn v
    rw [hn v]
    split
    · rename_i hlt
      exact ⟨(Pte.share_p _ (hpres v hlt)).trans (hpres v hlt).symm, Pte.share_ppn _⟩
    · exact ⟨rfl, rfl⟩
  rcases copyuvm_spec hsz hc with ⟨d, rfl, hcopy⟩ | ⟨rfl, j, t, hcopy⟩
  · obtain ⟨k2, hdup, h⟩ := bind_eq_ok.mp h
    obtain ⟨fs, hfs, h⟩ := bind_eq_ok.mp h
    cases h
    have hp := hshare _ hcopy.present hcopy.parent
    have hk2 := dupAll_spec hdup
    have hself : k2.proc p = { k.proc p with pgdir := pgdir } := by
      rw [hk2]
      simp [Kernel.setProc, hne]
    refine ⟨fun q hqp hqn => ?_, ?_, fun v => ?_, fun v => ?_, ?_, by simp, fun _ => ?_⟩
    · rw [proc_setProc_ne hqn, hk2]
      simp [Kernel.setProc, hqp, hqn]
    · rw [proc_setProc_ne hne]
      dsimp only
      rw [hself]
    · rw [proc_setProc_ne hne]
      dsimp only
      rw [hself]
      exact (hp v).1
    · rw [proc_setProc_ne hne]
      dsimp only
      rw [hself]
      exact (hp v).2
    · have hkmem : k2.mach.kmem = m.kmem := by
        rw [hk2]
        rfl
      rw [mach_setProc, hkmem]
      exact hcopy.free ▸ Multiset.le_add_right _ _
    · have hchild : k2.proc np = { k.proc np with
          pgdir := d, wmap := { (k.proc np).wmap with isChild := true }, sz := (k.proc p).sz,
          parent := some p, tf := { (k.proc p).tf with eax := 0 },
          ofile := (k2.proc np).ofile } := by
        conv_lhs => rw [hk2]
        simp [Kernel.setProc, hne.symm]
      refine ⟨d, some p, { (k.proc p).tf with eax := 0 }, (k2.proc np).ofile, (k2.proc p).cwd,
        (k2.proc p).name, ?_⟩
      rw [proc_setProc_self]
      conv_lhs => rw [hchild]
  · cases h
    have hp := hshare _ hcopy.present hcopy.parent
    refine ⟨fun q hqp hqn => ?_, ?_, fun v => ?_, fun v => ?_, ?_, fun _ => ?_, by simp⟩
    · rw [proc_setProc_ne hqp]
    · rw [proc_setProc_self]
    · rw [proc_setProc_self]
      exact (hp v).1
    · rw [proc_setProc_self]
      exact (hp v).2
    · obtain ⟨kept, hfree, -⟩ := hcopy.free
      exact hfree ▸ Multiset.le_add_right _ _
    · rw [proc_setProc_ne hne.symm]

end

end Xv6
