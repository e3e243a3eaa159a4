import Xv6.Sane
import Xv6.FaultProgress

/-!
The steps of the system, taken apart: each is a change to the process table or one run of
kernel code on the CPU of the process. What every state that can be reached has in common is
kept by each of them.
-/

namespace Xv6

open Lib Kernel

def Kernel.cowDone (k : Kernel) (p : Fin NPROC) (b : Bool) (d : PgDir) (m : Machine) : Kernel :=
  let k := { k with mach := m }.setProc p { k.proc p with pgdir := d, cowFault := none }
  if b then k else setKilled k p

def Kernel.dispatched (k : Kernel) (p : Fin NPROC) : Kernel :=
  { k.setProc p { k.proc p with state := .running } with
    loaded := Function.update k.loaded p (k.proc p).pgdir.frame }

theorem Kernel.proc_dispatched_self (k : Kernel) (p : Fin NPROC) :
    (k.dispatched p).proc p = { k.proc p with state := .running } :=
  proc_setProc_self k p { k.proc p with state := .running }

theorem Kernel.proc_dispatched_ne (k : Kernel) {p q : Fin NPROC} (h : q ≠ p) :
    (k.dispatched p).proc q = k.proc q :=
  proc_setProc_ne h

/-- What a step does, with the calls it is made of. -/
inductive Performed (k : Kernel) : Act → Kernel → Prop where
  | dispatch {p : Fin NPROC} : Performed k (.dispatch p) (k.dispatched p)
  | yield {p : Fin NPROC} : Performed k (.yield p)
      (k.setProc p { k.proc p with state := .runnable })
  | fork {p : Fin NPROC} {r : Option Nat} {k1 : Kernel} : fork (k.enter p) p = .ok (r, k1) →
      Performed k (.fork p) (k1.leave p)
  | exec {p : Fin NPROC} {ip : Option Nat} {path : List UInt8} {argv : List (List UInt8)}
      {slept : Nat → Bool} {b : Bool} {k1 : Kernel} :
      exec (k.enter p) p ip path argv slept = .ok (b, k1) →
      Performed k (.exec p ip path argv slept) (k1.leave p)
  | exit {p : Fin NPROC} {k1 : Kernel} : exit (k.enter p) p = .ok k1 →
      Performed k (.exit p) (k1.leave p)
  | wait {p : Fin NPROC} {r : Option Nat} {k1 : Kernel} : wait (k.enter p) p = .ok (r, k1) →
      Performed k (.wait p) (k1.leave p)
  | sbrk {p : Fin NPROC} {n : Int} {b : Bool} {k1 : Kernel} :
      growproc (k.enter p) p n = .ok (b, k1) → Performed k (.sbrk p n) (k1.leave p)
  | wmap {p : Fin NPROC} {addr : Nat} {length : Int} {flags : Nat} {fd : Int} {r : Option Nat}
      {k1 : Kernel} : sysWmap (k.enter p) p addr length flags fd = .ok (r, k1) →
      Performed k (.wmap p addr length flags fd) (k1.leave p)
  | wunmap {p : Fin NPROC} {addr : Nat} {b : Bool} {k1 : Kernel} :
      sysWunmap (k.enter p) p addr = .ok (b, k1) → Performed k (.wunmap p addr) (k1.leave p)
  | fault {p : Fin NPROC} {va : Nat} {write user back : Bool} {k1 k2 : Kernel} :
      pageFault (k.enter p) p va = .ok k1 → leaveTrap k1 p user = .ok (back, k2) →
      Performed k (.fault p va write user) (k2.leave p)
  | cowRead {p : Fin NPROC} {va : Nat} {pa : Frame} {refCount : Nat} :
      cowRead k.mach (k.proc p) va = some (pa, refCount) →
      Performed k (.cowRead p va) (k.setProc p { k.proc p with cowFault := some (va, pa, refCount) })
  | cowResolve {p : Fin NPROC} {user : Bool} {va : Nat} {pa : Frame} {refCount : Nat} {b : Bool}
      {d : PgDir} {m : Machine} {back : Bool} {k1 : Kernel} :
      (k.proc p).cowFault = some (va, pa, refCount) →
      cowResolve (k.enter p).mach (k.proc p).pgdir va pa refCount = .ok (b, d, m) →
      leaveTrap ((k.enter p).cowDone p b d m) p user = .ok (back, k1) →
      Performed k (.cowResolve p user) (k1.leave p)
  | store {p : Fin NPROC} {va : Nat} {b : UInt8} {x : Frame} : k.frameAt p va true = some x →
      Performed k (.store p va b) { k with mach := k.mach.write x (va % 4096) [b] }
  | files {p : Fin NPROC} {ofile : Fin NOFILE → Option Nat} {fs : Files} :
      Performed k (.files p ofile fs) ({ k with fs := fs }.setProc p { k.proc p with ofile := ofile })

section
variable {k k1 k' : Kernel} {p : Fin NPROC}

theorem onCpu_call {α : Type} {f : Kernel → Except Halt (α × Kernel)}
    (h : (k.onCpu p fun k => do pure (← f k).2) = .ok k') :
    ∃ r k1, f (k.enter p) = .ok (r, k1) ∧ k' = k1.leave p := by
  obtain ⟨k1, h1, h⟩ := bind_eq_ok.mp h
  obtain ⟨⟨r, k2⟩, hf, h2⟩ := bind_eq_ok.mp h1
  cases h2
  cases h
  exact ⟨r, _, hf, rfl⟩

theorem perform_ok {a : Act} (h : a.perform k = .ok k') : Performed k a k' := by
  cases a <;> simp only [Act.perform] at h
  case dispatch =>
      rw [proc_setProc_self] at h
      cases h
      exact .dispatch
  case yield => cases h; exact .yield
  case fork => obtain ⟨r, k1, hf, rfl⟩ := onCpu_call h; exact .fork hf
  case exec => obtain ⟨r, k1, hf, rfl⟩ := onCpu_call h; exact .exec hf
  case exit =>
      obtain ⟨k1, hf, h⟩ := bind_eq_ok.mp h
      cases h
      exact .exit hf
  case wait => obtain ⟨r, k1, hf, rfl⟩ := onCpu_call h; exact .wait hf
  case sbrk => obtain ⟨r, k1, hf, rfl⟩ := onCpu_call h; exact .sbrk hf
  case wmap => obtain ⟨r, k1, hf, rfl⟩ := onCpu_call h; exact .wmap hf
  case wunmap => obtain ⟨r, k1, hf, rfl⟩ := onCpu_call h; exact .wunmap hf
  case fault =>
      obtain ⟨r, k1, hf, rfl⟩ := onCpu_call h
      obtain ⟨k2, hp, hl⟩ := bind_eq_ok.mp hf
      exact .fault hp hl
  case cowRead p va =>
      split at h
      · cases h
      · rename_i pa refCount hr
        cases h
        exact .cowRead hr
  case cowResolve p user =>
      split at h
      · cases h
      rename_i va pa refCount hf
      obtain ⟨k1, h1, h⟩ := bind_eq_ok.mp h
      cases h
      obtain ⟨⟨b, d, m⟩, hres, h1⟩ := bind_eq_ok.mp h1
      obtain ⟨⟨back, k2⟩, hl, h2⟩ := bind_eq_ok.mp h1
      cases h2
      exact .cowResolve hf hres hl
  case store p va b =>
      split at h
      · cases h
      · rename_i k1 hs
        cases h
        obtain ⟨x, hx, rfl⟩ := Option.map_eq_some_iff.mp hs
        exact .store hx
  case files => cases h; exact .files

theorem step_dispatch (h : (k.proc p).state = .runnable) : Step k (.dispatch p) (k.dispatched p) :=
  ⟨h, by simp [Act.perform, Kernel.dispatched]; rfl⟩

theorem step_exec {ip : Option Nat} {path : List UInt8} {argv : List (List UInt8)}
    {slept : Nat → Bool} {b : Bool} {k1 : Kernel} (hr : k.ready p)
    (h : exec (k.enter p) p ip path argv slept = .ok (b, k1)) :
    Step k (.exec p ip path argv slept) (k1.leave p) :=
  ⟨hr, by simp only [Act.perform, Kernel.onCpu, h]; rfl⟩

theorem step_fork {r : Option Nat} {k1 : Kernel} (hr : k.ready p)
    (h : fork (k.enter p) p = .ok (r, k1)) : Step k (.fork p) (k1.leave p) :=
  ⟨hr, by simp only [Act.perform, Kernel.onCpu, h]; rfl⟩

theorem Kernel.ready.live (h : k.ready p) : (k.proc p).live := by
  unfold Proc.live
  rw [h.1]
  decide

theorem Kernel.Sane.resolve {va : Nat} {pa : Frame} {refCount : Nat} (hs : k.Sane)
    (hf : (k.proc p).cowFault = some (va, pa, refCount)) (m : Machine) :
    (k.proc p).live ∧ va / 4096 < 0x80000 ∧
      ∃ b d m', cowResolve m (k.proc p).pgdir va pa refCount = .ok (b, d, m') ∧
        CowResolved m (k.proc p).pgdir (va / 4096) pa refCount b d m' := by
  have hfault := (hs p).pending va pa refCount hf
  have hlive : (k.proc p).live := by
    unfold Proc.live
    rw [hfault.running]
    decide
  obtain ⟨pte, hw, -⟩ := hfault.walk
  have hlt := hfault.size
  have hsz := (hs p).size hlive
  exact ⟨hlive, by omega, cowResolve_spec m pa refCount (by omega) hw⟩

theorem sane_leaveTrap {user back : Bool} (hs : k.Sane) (hlive : (k.proc p).live)
    (hcow : (k.proc p).cowFault = none) (h : leaveTrap k p user = .ok (back, k')) : k'.Sane := by
  rcases leaveTrap_cases h with ⟨-, -, -, he⟩ | ⟨-, -, rfl⟩
  · exact sane_exit hs hlive hcow he
  · exact hs

theorem proc_cowDone (b : Bool) (d : PgDir) (m : Machine) :
    (k.cowDone p b d m).proc p =
      { k.proc p with pgdir := d, cowFault := none, killed := !b || (k.proc p).killed } := by
  cases b <;> simp [Kernel.cowDone, setKilled]

theorem cowDone_ne {q : Fin NPROC} (hq : q ≠ p) (b : Bool) (d : PgDir) (m : Machine) :
    (k.cowDone p b d m).proc q = k.proc q := by
  cases b <;> simp [Kernel.cowDone, setKilled, proc_setProc_ne hq]

theorem CowResolved.sane_cowDone {v : Nat} {pa : Frame} {refCount : Nat} {b : Bool} {d : PgDir}
    {m : Machine} (h : CowResolved k.mach (k.proc p).pgdir v pa refCount b d m) (hs : k.Sane)
    (hlive : (k.proc p).live) (hv : v < 0x80000) : (k.cowDone p b d m).Sane := by
  have hdone := h.sane hs hlive hv
  unfold Kernel.cowDone
  dsimp only
  split
  · exact hdone
  · exact sane_setKilled hdone

theorem Kernel.Sane.enter (hs : k.Sane) (p : Fin NPROC) : (k.enter p).Sane := hs

theorem Kernel.Sane.leave (hs : k.Sane) (p : Fin NPROC) : (k.leave p).Sane := hs

theorem Kernel.Sane.setProc {x : Proc} (hs : k.Sane) (hx : x.Sane (p = k.initproc)) :
    (k.setProc p x).Sane := by
  refine sane_of_proc (p := p) rfl (fun q hq => ?_) ?_
  · rw [proc_setProc_ne hq]
    exact hs q
  · rwa [proc_setProc_self]

theorem Proc.Sane.setState {x : Proc} {init : Prop} (h : x.Sane init) (hlive : x.live)
    (hcow : x.cowFault = none) (st : ProcState) : ({ x with state := st } : Proc).Sane init :=
  h.change hlive (h.size hlive) (h.wmap hlive) rfl rfl hcow

theorem step_sane {a : Act} (hs : k.Sane) (h : Step k a k') : k'.Sane := by
  obtain ⟨hen, h⟩ := h
  cases perform_ok h with
  | @dispatch p =>
    have hrun : (k.proc p).state = .runnable := hen
    have hlive : (k.proc p).live := by
      unfold Proc.live
      rw [hrun]
      decide
    have hcow : (k.proc p).cowFault = none := by
      cases hf : (k.proc p).cowFault with
      | none => rfl
      | some r =>
        have := ((hs p).pending r.1 r.2.1 r.2.2 hf).running
        rw [hrun] at this
        cases this
    exact hs.setProc ((hs p).setState hlive hcow .running)
  | @yield p =>
    have hready : k.ready p := hen
    exact hs.setProc ((hs p).setState hready.live hready.2 .runnable)
  | @fork p _ _ hf =>
    have hready : k.ready p := hen
    exact (sane_fork (hs.enter p) hready.live hready.2 hf).leave p
  | @exec p _ _ _ _ _ _ hf =>
    have hready : k.ready p := hen
    exact (sane_exec (hs.enter p) hready.live hready.2 hf).leave p
  | @exit p _ hf =>
    have hready : k.ready p := hen
    exact (sane_exit (hs.enter p) hready.live hready.2 hf).leave p
  | @wait p _ _ hf => exact (sane_wait (hs.enter p) hf).leave p
  | @sbrk p _ _ _ hf =>
    obtain ⟨hready, hlo, hhi⟩ := hen
    exact (sane_growproc (hs.enter p) hready.live hready.2 hlo hhi hf).leave p
  | @wmap p _ _ _ _ _ _ hf =>
    obtain ⟨hready, haddr, -, hlen⟩ := hen
    exact (sane_sysWmap (hs.enter p) hready.live hready.2 haddr hlen hf).leave p
  | @wunmap p addr _ _ hf =>
    obtain ⟨hready, -⟩ := hen
    unfold sysWunmap at hf
    split at hf
    · cases hf
      exact hs
    · exact (sane_wunmap (hs.enter p) hready.live hready.2 hf).leave p
  | @fault p va write user _ k1 _ hf hl =>
    obtain ⟨hready, hva, -⟩ := hen
    have hs1 := sane_pageFault (hs.enter p) hready.live hready.2 hva hf
    obtain ⟨hst, hcow, -⟩ := pageFault_resolves write user hva
      ((hs.enter p p).base hready.live) hf
    have hlive : (k1.proc p).live := by
      unfold Proc.live
      rw [hst]
      exact hready.live
    exact (sane_leaveTrap hs1 hlive (hcow.trans hready.2) hl).leave p
  | @cowRead p va pa refCount hr =>
    obtain ⟨hready, hw⟩ := hen
    obtain ⟨hlt, hrc, hpos, pte, hwalk, hp, hu, hcow, hpa⟩ := cowRead_some hr
    refine hs.setProc ⟨(hs p).size, (hs p).wmap, (hs p).base, (hs p).child, ?_⟩
    rintro _ _ _ ⟨⟩
    exact ⟨hready.1, hlt, hpos, hw, pte, hwalk, hp, hu, hcow, hpa⟩
  | @cowResolve p _ va pa refCount b d m back k1 hf hres hl =>
    obtain ⟨hlive, hva, b', d', m', hres', hspec⟩ := hs.resolve hf (k.enter p).mach
    rw [hres] at hres'
    cases hres'
    refine (sane_leaveTrap (hspec.sane_cowDone (hs.enter p) hlive hva) ?_ ?_ hl).leave p
    · rw [proc_cowDone]
      exact hlive
    · rw [proc_cowDone]
  | store _ => exact hs
  | @files p ofile fs => exact hs.setProc ((hs p).same rfl rfl rfl rfl rfl)

end

end Xv6
