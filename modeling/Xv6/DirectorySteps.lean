import Xv6.FrameSafety

/-!
What the calls do to page directories and to CR3. Most of them leave every directory where
it is and CR3 alone, or load the directory of the process.
-/

namespace Xv6

open Function Kernel

variable {b : Bool} {k k' : Kernel} {m m' : Machine} {d d' : PgDir} {gone : Fin NPROC → Prop}
  {addr refCount v : Nat} {pa : Frame}

def Kernel.OwnLoaded (k : Kernel) (p : Fin NPROC) : Prop := k.loaded p = (k.proc p).pgdir.frame

theorem Kernel.ownLoaded_dispatched (k : Kernel) (p : Fin NPROC) : (k.dispatched p).OwnLoaded p := by
  unfold Kernel.OwnLoaded
  rw [proc_dispatched_self]
  exact update_self p (k.proc p).pgdir.frame k.loaded

/-- Every CPU that runs a process has the directory of some process loaded. -/
def Kernel.DirsLive (k : Kernel) : Prop :=
  ∀ p, (k.proc p).state = .running → ∃ q, (k.proc q).live ∧ k.loaded p = (k.proc q).pgdir.frame

/-- A step in which the directories of the processes in `gone` go away. Every CPU that runs a
process afterwards has the directory of this process loaded, or the one it had loaded
before. -/
structure DirStep (k k' : Kernel) (gone : Fin NPROC → Prop) : Prop where
  kept : ∀ q, (k.proc q).live → ¬ gone q →
    (k'.proc q).live ∧ (k'.proc q).pgdir.frame = (k.proc q).pgdir.frame
  loaded : ∀ q, (k'.proc q).state = .running → k'.OwnLoaded q ∨
    (k.proc q).state = .running ∧ ¬ gone q ∧ k'.loaded q = k.loaded q

theorem live_of_running {x : Proc} (h : x.state = .running) : x.live := by
  simp [Proc.live, h]

theorem DirStep.ownLoaded (h : DirStep k k' gone) {q : Fin NPROC}
    (hq : (k'.proc q).state = .running) (hown : (k.proc q).state = .running → k.OwnLoaded q) :
    k'.OwnLoaded q := by
  rcases h.loaded q hq with he | ⟨hrun, hgone, he⟩
  · exact he
  · exact (he.trans (hown hrun)).trans (h.kept q (live_of_running hrun) hgone).2.symm

theorem DirStep.dirsLive (h : DirStep k k' gone)
    (hgone : ∀ r, gone r → ∀ q, (k.proc q).state = .running → ¬ gone q →
      k.loaded q ≠ (k.proc r).pgdir.frame) (hk : k.DirsLive) : k'.DirsLive := by
  intro q hq
  rcases h.loaded q hq with he | ⟨hrun, hnot, he⟩
  · exact ⟨q, live_of_running hq, he⟩
  · obtain ⟨r, hr, hloaded⟩ := hk q hrun
    obtain ⟨h1, h2⟩ := h.kept r hr fun hg => hgone r hg q hrun hnot hloaded
    exact ⟨r, h1, (he.trans hloaded).trans h2.symm⟩

theorem DirStep.of_proc {p : Fin NPROC} (hl : k'.loaded = k.loaded)
    (hother : ∀ q, q ≠ p → k'.proc q = k.proc q) (hlive : (k'.proc p).live)
    (hframe : (k'.proc p).pgdir.frame = (k.proc p).pgdir.frame)
    (hrun : (k'.proc p).state = .running → (k.proc p).state = .running) :
    DirStep k k' fun _ => False := by
  refine ⟨fun q hq _ => ?_, fun q hq => Or.inr ⟨?_, not_false, congrFun hl q⟩⟩
  · by_cases hqp : q = p
    · subst hqp
      exact ⟨hlive, hframe⟩
    · rw [hother q hqp]
      exact ⟨hq, rfl⟩
  · by_cases hqp : q = p
    · subst hqp
      exact hrun hq
    · rwa [hother q hqp] at hq

/-- A call of process `p` that leaves every directory where it is. CR3 is the one before or
the directory of `p`. -/
structure SameDirs (k : Kernel) (p : Fin NPROC) (k' : Kernel) : Prop where
  loaded : k'.loaded = k.loaded
  kept : ∀ q, (k.proc q).live →
    (k'.proc q).live ∧ (k'.proc q).pgdir.frame = (k.proc q).pgdir.frame
  running : ∀ q, (k'.proc q).state = .running → (k.proc q).state = .running
  cr3 : (k'.proc p).state = .running →
    k'.mach.cr3 = k.mach.cr3 ∨ k'.mach.cr3 = (k.proc p).pgdir.frame

section
variable {k k1 k' : Kernel} {p : Fin NPROC}

theorem SameDirs.refl (k : Kernel) (p : Fin NPROC) : SameDirs k p k :=
  ⟨rfl, fun _ hq => ⟨hq, rfl⟩, fun _ hq => hq, fun _ => Or.inl rfl⟩

theorem SameDirs.of_proc (hl : k'.loaded = k.loaded) (hother : ∀ q, q ≠ p → k'.proc q = k.proc q)
    (hstate : (k'.proc p).state = (k.proc p).state)
    (hframe : (k'.proc p).pgdir.frame = (k.proc p).pgdir.frame)
    (hcr3 : k'.mach.cr3 = k.mach.cr3 ∨ k'.mach.cr3 = (k.proc p).pgdir.frame) : SameDirs k p k' := by
  refine ⟨hl, fun q hq => ?_, fun q hq => ?_, fun _ => hcr3⟩
  · by_cases hqp : q = p
    · subst hqp
      exact ⟨by unfold Proc.live at hq ⊢; rwa [hstate], hframe⟩
    · rw [hother q hqp]
      exact ⟨hq, rfl⟩
  · by_cases hqp : q = p
    · subst hqp
      exact hstate ▸ hq
    · exact hother q hqp ▸ hq

theorem SameDirs.trans (hp : (k.proc p).live) (h : SameDirs k p k1) (h' : SameDirs k1 p k') :
    SameDirs k p k' := by
  refine ⟨h'.loaded.trans h.loaded, fun q hq => ?_, fun q hq => h.running q (h'.running q hq),
    fun hr => ?_⟩
  · obtain ⟨h1, h2⟩ := h.kept q hq
    obtain ⟨h3, h4⟩ := h'.kept q h1
    exact ⟨h3, h4.trans h2⟩
  · rcases h'.cr3 hr with he | he
    · rw [he]
      exact h.cr3 (h'.running p hr)
    · rw [he]
      exact Or.inr (h.kept p hp).2

theorem SameDirs.dirStep (h : SameDirs (k.enter p) p k1) (hp : (k.proc p).live) :
    DirStep k (k1.leave p) fun _ => False := by
  refine ⟨fun q hq _ => h.kept q hq, fun q hq => ?_⟩
  have hrun : (k.proc q).state = .running := h.running q hq
  by_cases hqp : q = p
  · subst hqp
    have hl : (k1.leave q).loaded q = k1.mach.cr3 := update_self ..
    rcases h.cr3 hq with he | he
    · exact Or.inr ⟨hrun, not_false, hl.trans he⟩
    · exact Or.inl ((hl.trans he).trans (h.kept q hp).2.symm)
  · exact Or.inr ⟨hrun, not_false, (update_of_ne hqp ..).trans (congrFun h.loaded q)⟩

theorem setKilled_dirs (k : Kernel) (p : Fin NPROC) : SameDirs k p (setKilled k p) := by
  refine .of_proc rfl (fun q hq => proc_setProc_ne hq) ?_ ?_ (Or.inl rfl)
  · rw [setKilled, proc_setProc_self]
  · rw [setKilled, proc_setProc_self]

theorem Unmapped.dirs {done : List Nat} (h : Unmapped k p done k') : SameDirs k p k' := by
  refine .of_proc ((congrArg Kernel.loaded h.eq).trans rfl) (fun q hq => h.proc_ne hq) ?_
    h.cleared.frame (Or.inl h.freed.cr3)
  rw [h.proc_self]

theorem Resized.cr3 {sz newsz sz' : Nat} (h : Resized m d sz newsz m' d' sz') :
    m'.cr3 = m.cr3 ∧ d'.frame = d.frame := by
  cases h with
  | same => exact ⟨rfl, rfl⟩
  | grown _ _ _ hg => exact ⟨hg.cr3, hg.frame⟩
  | abandoned _ _ _ ha => exact ⟨ha.cr3.trans ha.grown.cr3, ha.cleared.frame.trans ha.grown.frame⟩
  | shrunk _ hf hc _ => exact ⟨hf.cr3, hc.frame⟩

theorem growproc_dirs {n : Int} (hsz : (k.proc p).sz < 0x80000000) (hlo : -0x80000000 ≤ n)
    (hhi : n < 0x80000000) (h : growproc k p n = .ok (b, k')) : SameDirs k p k' := by
  obtain ⟨m, d, sz, hr, rfl⟩ := growproc_spec hsz hlo hhi h
  obtain ⟨hcr3, hframe⟩ := hr.cr3
  refine .of_proc rfl (fun q hq => proc_setProc_ne hq) ?_ ?_ ?_
  · rw [proc_setProc_self]
  · rw [proc_setProc_self]
    exact hframe
  · cases b with
    | true => exact Or.inr hframe
    | false => exact Or.inl hcr3

theorem sysWmap_dirs {length : Int} {flags : Nat} {fd : Int} {r : Option Nat}
    (h : sysWmap k p addr length flags fd = .ok (r, k')) : SameDirs k p k' := by
  rcases sysWmap_cases h with ⟨-, rfl⟩ | ⟨-, -, -, -, -, -, h⟩
  · exact .refl k' p
  obtain ⟨hk, -⟩ := wmap_spec h
  have hself : k'.proc p =
      { k.proc p with ofile := (k'.proc p).ofile, wmap := (k'.proc p).wmap } := by
    conv_lhs => rw [hk]
    exact proc_setProc_self ..
  refine .of_proc ((congrArg Kernel.loaded hk).trans rfl) (fun q hq => ?_) ?_ ?_ ?_
  · rw [hk, proc_setProc_ne hq]
  · rw [hself]
  · rw [hself]
  · exact Or.inl ((congrArg (fun k => k.mach.cr3) hk).trans rfl)

theorem sysWunmap_dirs (hok : (k.proc p).wmap.Ok) (h : sysWunmap k p addr = .ok (b, k')) :
    SameDirs k p k' := by
  unfold sysWunmap at h
  split at h
  · cases h
    exact .refl k p
  · obtain ⟨done, hu, -⟩ := wunmap_spec hok h
    exact hu.dirs

theorem CowResolved.cr3 (h : CowResolved m d v pa refCount b d' m') :
    d'.frame = d.frame ∧ (m'.cr3 = m.cr3 ∨ m'.cr3 = d.frame) := by
  cases h with
  | upgraded _ hr => exact ⟨hr.frame, Or.inr rfl⟩
  | starved _ _ => exact ⟨rfl, Or.inl rfl⟩
  | copied _ _ hr => exact ⟨hr.frame, Or.inr rfl⟩

theorem exit_dirs (hok : (k.proc p).wmap.Ok) (h : exit k p = .ok k') : SameDirs k p k' := by
  obtain ⟨done, k1, he⟩ := exit_spec hok h
  have hd := he.unmapped.dirs
  have hself : k'.proc p = { k1.proc p with
      ofile := (k'.proc p).ofile, cwd := none, parent := (k'.proc p).parent, state := .zombie } :=
    he.self
  have hzombie : (k'.proc p).state = .zombie := by rw [hself]
  refine ⟨he.loaded, fun q hq => ?_, fun q hq => ?_, fun hr => ?_⟩
  · by_cases hqp : q = p
    · subst hqp
      refine ⟨by simp [Proc.live, hzombie], ?_⟩
      rw [hself]
      exact (hd.kept q hq).2
    · rw [he.others q hqp]
      exact ⟨hq, rfl⟩
  · by_cases hqp : q = p
    · subst hqp
      rw [hzombie] at hq
      cases hq
    · rw [he.others q hqp] at hq
      exact hq
  · rw [hzombie] at hr
    cases hr

theorem leaveTrap_dirs {user back : Bool} (hok : (k.proc p).wmap.Ok)
    (h : leaveTrap k p user = .ok (back, k')) : SameDirs k p k' := by
  rcases leaveTrap_cases h with ⟨-, -, -, he⟩ | ⟨-, -, rfl⟩
  · exact exit_dirs hok he
  · exact .refl k' p

theorem pageFault_dirs {va : Nat} (hlive : (k.proc p).live) (hva : va < 0x100000000)
    (hbase : (k.proc p).pgdir.KernelBase) (h : pageFault k p va = .ok k') : SameDirs k p k' := by
  have killed : ∀ (b : Bool) (k1 : Kernel), SameDirs k p k1 →
      SameDirs k p (if b then k1 else setKilled k1 p) := by
    intro b k1 h1
    split
    · exact h1
    · exact h1.trans hlive (setKilled_dirs k1 p)
  rcases pageFault_cases h with
    ⟨hw, b, k1, hc, rfl⟩ | ⟨-, -, -, rfl⟩ | ⟨hlo, hhi, i, b, k1, -, ha, rfl⟩
  · refine killed b k1 ?_
    rcases handleCowFault_spec k p hva with ⟨hr, -⟩ | ⟨pa, rc, b', d, m, -, hres, hr⟩
    · rw [hr] at hc
      cases hc
      exact .refl k p
    rw [hr] at hc
    cases hc
    obtain ⟨hframe, hcr3⟩ := hres.cr3
    refine .of_proc rfl (fun q hq => proc_setProc_ne hq) ?_ ?_ hcr3
    · rw [proc_setProc_self]
    · rw [proc_setProc_self]
      exact hframe
  · exact .refl _ p
  · refine killed b k1 ?_
    rcases allocateAndMap_spec hlo hhi hbase ha with
      ⟨-, -, rfl⟩ | ⟨-, -, k2, done, hr⟩ | ⟨-, -, x, km, hu⟩ | ⟨-, -, x, km, hl⟩
    · exact .refl _ p
    · have hs : SameDirs k p k2 := by
        refine .of_proc ((congrArg Kernel.loaded hr.starved.eq).trans rfl) (fun q _ => ?_) ?_ ?_
          (Or.inl hr.starved.cr3)
        all_goals rw [hr.starved.proc]
      exact hs.trans hlive hr.unmapped.dirs
    · refine .of_proc ((congrArg Kernel.loaded hu.eq).trans rfl) (fun q _ => ?_) ?_ ?_
        (Or.inl ((congrArg (fun k => k.mach.cr3) hu.eq).trans rfl))
      all_goals rw [hu.proc]
    · refine .of_proc ((congrArg Kernel.loaded hl.eq).trans rfl) (fun q hq => hl.proc_ne hq) ?_
        hl.extend.frame (Or.inl ((congrArg (fun k => k.mach.cr3) hl.eq).trans rfl))
      rw [hl.proc_self]

theorem CowResolved.dirs (hlive : (k.proc p).live)
    (h : CowResolved k.mach (k.proc p).pgdir v pa refCount b d m) :
    SameDirs k p (k.cowDone p b d m) := by
  obtain ⟨hframe, hcr3⟩ := h.cr3
  have hdone : SameDirs k p
      ({ k with mach := m }.setProc p { k.proc p with pgdir := d, cowFault := none }) := by
    refine .of_proc rfl (fun q hq => proc_setProc_ne hq) ?_ ?_ hcr3
    · rw [proc_setProc_self]
    · rw [proc_setProc_self]
      exact hframe
  unfold Kernel.cowDone
  dsimp only
  split
  · exact hdone
  · exact hdone.trans hlive (setKilled_dirs _ p)

end

end Xv6
