import Xv6.IcacheSteps
import Xv6.MkfsNames

/-!
Block ownership over runs. From a well-formed file system and an empty inode cache, whatever
processes do with `iget`, `ilock`, `readi`, `writei`, `itrunc` and `iput` on any inodes, the
file system is well formed, and the panic of `bfree` is not reached. The image that `mkfs`
writes is well formed unless the root directory has a hole.
-/

namespace Xv6

open Lib Option

namespace Fs

def AllocPanic (h : Halt) : Prop :=
  h = .panic "balloc: out of blocks" ∨ h = .panic "bmap: out of range"

section
variable {fs : Fs} {ip : Dinode} {x : Halt}

theorem balloc_error (h : fs.balloc = .error x) : AllocPanic x := by
  unfold balloc at h
  split at h
  · cases h
    exact Or.inl rfl
  · cases h

theorem indirect_error (h : fs.indirect ip = .error x) : AllocPanic x := by
  unfold indirect at h
  split at h
  · rcases bind_eq_error.mp h with h | ⟨⟨b, fs'⟩, -, h⟩
    · exact balloc_error h
    · cases h
  · cases h

theorem bmap_error {bn : Nat} (h : fs.bmap ip bn = .error x) : AllocPanic x := by
  unfold bmap at h
  split at h
  · split at h
    · rcases bind_eq_error.mp h with h | ⟨⟨b, fs'⟩, -, h⟩
      · exact balloc_error h
      · cases h
    · cases h
  split at h
  · rcases bind_eq_error.mp h with h | ⟨⟨fs', ip'⟩, -, h⟩
    · exact indirect_error h
    dsimp only at h
    split at h
    · rcases bind_eq_error.mp h with h | ⟨⟨b, fs''⟩, -, h⟩
      · exact balloc_error h
      · cases h
    · cases h
  · cases h
    exact Or.inr rfl

theorem writeLoop_error {k off : Nat} {src : List UInt8} (h : writeLoop k fs ip src off = .error x) :
    AllocPanic x := by
  induction k generalizing fs ip src off with
  | zero => cases h
  | succ k ih =>
    unfold writeLoop at h
    split at h
    · cases h
    · rcases bind_eq_error.mp h with h | ⟨⟨b, fs', ip'⟩, -, h⟩
      · exact bmap_error h
      · exact ih h

theorem writei_error {i off : Nat} {src : List UInt8} {dev : Option Nat}
    (h : fs.writei i ip src off dev = .error x) : AllocPanic x := by
  unfold writei at h
  split at h
  · cases h
  split at h
  · cases h
  split at h
  · cases h
  rcases bind_eq_error.mp h with h | ⟨⟨off', fs', ip'⟩, -, h⟩
  · exact writeLoop_error h
  · dsimp only at h
    split at h
    · cases h
    · cases h

end

end Fs

namespace Icache

/-- No process has a reference or is inside a call. -/
structure Idle {P : Type} (s : Icache P) : Prop where
  entry : ∀ e, (s.entry e).ref = 0 ∧ (s.entry e).holder = none
  held : ∀ p e, s.held p e = 0
  pc : ∀ p, s.pc p = .idle

section
variable {P : Type} [Fintype P] {s t : Icache P} {a : IAct P}

theorem Idle.ok (h : s.Idle) (hown : s.fs.Own) : s.Ok := by
  have hnone : ∀ e, ¬ 0 < (s.entry e).ref := fun e => by simp [(h.entry e).1]
  refine ⟨hown, fun e => ?_, fun e _ he => (hnone e he).elim, fun e he => (hnone e he).elim,
    fun e he => (hnone e he).elim, fun e p hp => ?_, fun p => ?_⟩
  · simp [(h.entry e).1, h.held]
  · rw [(h.entry e).2] at hp
    cases hp
  · rw [h.pc p]
    trivial

variable [DecidableEq P]

inductive Acted (s : Icache P) : IAct P → Icache P → Prop where
  | iget {p : P} {i : Nat} {t : Icache P} : i < s.fs.sb.ninodes → s.iget p i = .ok t →
      Acted s (.iget p i) t
  | idup {p q : P} {e : Fin NINODE} : s.pc p = .idle → 0 < s.held p e →
      Acted s (.idup p q e) (s.addRef q e)
  | pass {p q : P} {e : Fin NINODE} : s.pc p = .idle → p ≠ q →
      (if (s.entry e).holder = some p then 1 else 0) < s.held p e →
      Acted s (.pass p q e) ((s.setHeld p e (s.held p e - 1)).setHeld q e (s.held q e + 1))
  | ilock {p : P} {e : Fin NINODE} {t : Icache P} : s.pc p = .idle → 0 < s.held p e →
      (s.entry e).holder = none → s.ilock p e = .ok t → Acted s (.ilock p e) t
  | iunlock {p : P} {e : Fin NINODE} : s.pc p = .idle → (s.entry e).holder = some p →
      Acted s (.iunlock p e) (s.setEntry e { s.entry e with holder := none })
  | edit {a : IAct P} {p : P} {e : Fin NINODE} {fs : Fs} {ip : Dinode} : s.pc p = .idle →
      (s.entry e).holder = some p → s.Edits e fs ip → Acted s a (s.setInode e fs ip)
  | itrunc {p : P} {e : Fin NINODE} {fs : Fs} {ip : Dinode} : s.pc p = .idle →
      (s.entry e).holder = some p →
      s.fs.itrunc (s.entry e).inum (s.entry e).copy = .ok (fs, ip) →
      Acted s (.itrunc p e) (s.setInode e fs ip)
  | ialloc {p : P} {type : Nat} {t : Icache P} : s.pc p = .idle → 0 < type → type < 65536 →
      s.ialloc p type = .ok t → Acted s (.ialloc p type) t
  | allocGet {p : P} {i : Nat} {t : Icache P} : s.pc p = .alloced i → s.iget p i = .ok t →
      Acted s (.allocGet p) (t.setPc p .idle)
  | putLock {p : P} {e : Fin NINODE} : s.pc p = .idle → 0 < s.held p e →
      (s.entry e).holder = none → Acted s (.putLock p e)
        ((s.setEntry e { s.entry e with holder := some p }).setPc p (.locked e))
  | putTest {p : P} {e : Fin NINODE} : s.pc p = .locked e →
      (s.entry e).valid = true ∧ (s.entry e).copy.nlink = 0 →
      Acted s (.putTest p) (s.setPc p (.tested e ((s.entry e).ref == 1)))
  | putPass {p : P} {e : Fin NINODE} : s.pc p = .locked e →
      Acted s (.putTest p) (s.setPc p (.unlocking e))
  | putFree {p : P} {e : Fin NINODE} {t : Icache P} : s.pc p = .tested e true → s.free e = .ok t →
      Acted s (.putFree p) (t.setPc p (.unlocking e))
  | putKeep {p : P} {e : Fin NINODE} : s.pc p = .tested e false →
      Acted s (.putFree p) (s.setPc p (.unlocking e))
  | putUnlock {p : P} {e : Fin NINODE} : s.pc p = .unlocking e → Acted s (.putUnlock p)
      ((s.setEntry e { s.entry e with holder := none }).setPc p (.dropping e))
  | putDrop {p : P} {e : Fin NINODE} : s.pc p = .dropping e → Acted s (.putDrop p)
      (((s.setEntry e { s.entry e with ref := (s.entry e).ref - 1 }).setHeld p e
        (s.held p e - 1)).setPc p .idle)

omit [Fintype P] in
theorem iget_error {p : P} {i : Nat} {x : Halt} (h : s.iget p i = .error x) :
    x = .panic "iget: no inodes" := by
  unfold Icache.iget at h
  split at h
  · cases h
  · split at h
    · cases h
      rfl
    · cases h

/-- What a step comes to; it can stop, but not in `bfree`. -/
def Acts (s : Icache P) (a : IAct P) : Except Halt (Icache P) → Prop
  | .ok t => s.Acted a t
  | .error x => x ≠ .panic "freeing free block"

theorem Ok.acts {r : Except Halt (Icache P)} (h : s.Ok) (hact : s.act a = some r) : s.Acts a r := by
  unfold act at hact
  cases a with
  | iget p i =>
    obtain ⟨hguard, rfl⟩ := ite_some_none_eq_some.mp hact
    cases hget : s.iget p i with
    | ok t => exact .iget hguard.2 hget
    | error x =>
      rw [iget_error hget]
      simp [Acts]
  | idup p q e =>
    obtain ⟨hguard, rfl⟩ := ite_some_none_eq_some.mp hact
    exact .idup hguard.1 hguard.2
  | pass p q e =>
    obtain ⟨hguard, rfl⟩ := ite_some_none_eq_some.mp hact
    exact .pass hguard.1 hguard.2.1 hguard.2.2
  | ilock p e =>
    obtain ⟨hguard, rfl⟩ := ite_some_none_eq_some.mp hact
    cases hlock : s.ilock p e with
    | ok t => exact .ilock hguard.1 hguard.2.1 hguard.2.2 hlock
    | error x =>
      unfold Icache.ilock Fs.load at hlock
      split at hlock
      · cases hlock
      · split at hlock
        · cases hlock
          simp [Acts]
        · cases hlock
  | iunlock p e =>
    obtain ⟨hguard, rfl⟩ := ite_some_none_eq_some.mp hact
    exact .iunlock hguard.1 hguard.2
  | readi p e off n dev =>
    obtain ⟨hguard, rfl⟩ := ite_some_none_eq_some.mp hact
    obtain ⟨hi, hcopy, ht⟩ := h.current hguard.1 hguard.2
    obtain ⟨r, hread⟩ := Fs.readi_stays (h.own.whole _ hi ht) off n dev
    rw [← hcopy] at hread
    rw [bind_of_ok hread]
    exact .edit hguard.1 hguard.2 (h.edits_readi hguard.1 hguard.2 hread)
  | writei p e src off dev =>
    obtain ⟨hguard, rfl⟩ := ite_some_none_eq_some.mp hact
    cases hwrite : s.fs.writei (s.entry e).inum (s.entry e).copy src off dev with
    | ok out => exact .edit hguard.1 hguard.2 (h.edits_writei hguard.1 hguard.2 hwrite)
    | error x =>
      rintro rfl
      have := Fs.writei_error hwrite
      simp [Fs.AllocPanic] at this
  | update p e major minor nlink =>
    obtain ⟨hguard, rfl⟩ := ite_some_none_eq_some.mp hact
    obtain ⟨fs, ip, hupdate, hedit⟩ := h.edits_update hguard.1 hguard.2 major minor nlink
    rw [hupdate]
    exact .edit hguard.1 hguard.2 hedit
  | itrunc p e =>
    obtain ⟨hguard, rfl⟩ := ite_some_none_eq_some.mp hact
    obtain ⟨hi, hcopy, ht⟩ := h.current hguard.1 hguard.2
    obtain ⟨fs, ip, hret, -⟩ := h.own.itrunc hi ht
    rw [← hcopy] at hret
    rw [bind_of_ok hret]
    exact .itrunc hguard.1 hguard.2 hret
  | ialloc p type =>
    obtain ⟨hguard, rfl⟩ := ite_some_none_eq_some.mp hact
    cases halloc : s.ialloc p type with
    | ok t => exact .ialloc hguard.1 hguard.2.1 hguard.2.2 halloc
    | error x =>
      unfold Icache.ialloc at halloc
      split at halloc
      · cases halloc
        simp [Acts]
      · cases halloc
  | allocGet p =>
    dsimp only at hact
    split at hact
    · rename_i i hpc
      cases hact
      cases hget : s.iget p i with
      | ok t => exact .allocGet hpc hget
      | error x =>
        rw [iget_error hget]
        simp [Except.map, Acts]
    · cases hact
  | putLock p e =>
    obtain ⟨hguard, rfl⟩ := ite_some_none_eq_some.mp hact
    exact .putLock hguard.1 hguard.2.1 hguard.2.2
  | putTest p =>
    dsimp only at hact
    split at hact
    · rename_i e hpc
      split at hact
      · rename_i hand
        cases hact
        exact .putTest hpc hand
      · cases hact
        exact .putPass hpc
    · cases hact
  | putFree p =>
    dsimp only at hact
    split at hact
    · rename_i e hpc
      obtain ⟨u, ip, hfree, -⟩ := h.free hpc
      cases hact
      rw [hfree]
      exact .putFree hpc hfree
    · rename_i e hpc
      cases hact
      exact .putKeep hpc
    · cases hact
  | putUnlock p =>
    dsimp only at hact
    split at hact
    · rename_i e hpc
      cases hact
      exact .putUnlock hpc
    · cases hact
  | putDrop p =>
    dsimp only at hact
    split at hact
    · rename_i e hpc
      cases hact
      exact .putDrop hpc
    · cases hact

theorem Ok.acted (h : s.Ok) (hstep : s.Step a t) : s.Acted a t := h.acts hstep

theorem Ok.step (h : s.Ok) (hstep : s.Step a t) : t.Ok := by
  cases h.acted hstep with
  | iget hi hget => exact h.iget hi hget
  | idup hpc hheld =>
    have hpos := h.ref_pos hheld
    exact h.addRef _ _ (h.range _ hpos) (fun e' he' heq => h.unique e' _ he' hpos heq)
      (h.coherent _ hpos)
  | pass hpc hne hheld => exact h.pass hne hpc hheld
  | ilock hpc hheld hfree hlock => exact h.ilock hpc hheld hfree hlock
  | iunlock hpc hp => exact h.iunlock hpc hp
  | edit hpc hp hedit => exact h.edited hpc hp hedit
  | itrunc hpc hp htrunc => exact h.itrunc hpc hp htrunc
  | ialloc hpc hpos hlt halloc => exact h.ialloc hpc hpos hlt halloc
  | @allocGet p i u hpc hget =>
    have hi := h.atPc p
    rw [hpc] at hi
    exact (h.iget hi hget).setIdle ⟨i, by rw [(iget_spec hget).2.1, hpc]⟩
  | putLock hpc hheld hfree => exact h.putLock hpc hheld hfree
  | putTest hpc hand => exact (h.putTest hpc _).1 hand
  | putPass hpc => exact (h.putTest hpc true).2
  | putFree hpc hfree =>
    obtain ⟨u, ip, hret, hu, -⟩ := h.free hpc
    rw [hfree] at hret
    cases hret
    exact hu
  | @putKeep p e hpc =>
    have hp := h.atPc p
    rw [hpc] at hp
    exact h.advance hp.1 (Or.inl hp.2.1) (by simp [hpc]) hp.1
  | putUnlock hpc => exact h.putUnlock hpc
  | putDrop hpc => exact h.putDrop hpc

theorem Ok.no_double_free (h : s.Ok) (a : IAct P) :
    s.act a ≠ some (.error (.panic "freeing free block")) := fun hact => h.acts hact rfl

theorem Ok.run {as : List (IAct P)} (h : s.Ok) (hrun : Lib.Run Step s as t) : t.Ok :=
  hrun.invariant Ok h fun _ _ _ h hstep => h.step hstep

/-- In every run the blocks in use are those that inodes name, each from one place, every
inode is whole, and no block is freed that is free. -/
theorem block_ownership {as : List (IAct P)} (hidle : s.Idle) (hown : s.fs.Own)
    (hrun : Lib.Run Step s as t) :
    t.fs.Own ∧ ∀ a, t.act a ≠ some (.error (.panic "freeing free block")) := by
  have hok := (hidle.ok hown).run hrun
  exact ⟨hok.own, hok.no_double_free⟩

end

end Icache

namespace Mkfs

theorem sb_nmeta : sb.nmeta = 59 := rfl

theorem sb_sound : sb.Sound := by
  have hstart : sb.bmapstart = 58 := rfl
  refine ⟨by decide, fun i hi => ?_, fun b hb => ?_⟩
  · have hlt : i < 200 := hi
    have hinodes : sb.inodestart = 32 := rfl
    unfold Superblock.iblock
    omega
  · have hlt : b < 1000 := hb
    rw [sb_nmeta]
    unfold Superblock.bblock
    omega

theorem Built.own {img : Blocks} {files : List Input} {fb : Nat} {din : Nat → Dinode}
    {c : Nat → List UInt8} (h : Built img files fb din c) (hn : files.length + 2 ≤ 200)
    (hroot : (files.length + 2) % 32 ≠ 0) : (Fs.mount img).Own := by
  have hbound := h.bound
  have hbase := h.laid.base
  have hsb : (Fs.mount img).sb = sb := congrArg Fs.sb h.mount
  have hlive : (Fs.mount img).live = din := by
    funext i
    unfold Fs.live
    rw [hsb]
    by_cases hi : i < 200
    · rw [h.dinode (by omega)]
      by_cases ht : (din i).type = 0
      · rw [if_neg fun hand => hand.2 ht]
        have hnone : i ≠ 1 ∧ (i < 2 ∨ files.length + 2 ≤ i) := by
          by_contra hused
          have hcases : i = 1 ∨ 2 ≤ i ∧ i < files.length + 2 := by omega
          rcases hcases with rfl | hcases
          · rw [h.rootType] at ht
            cases ht
          · have := (h.file (i - 2) (by omega)).2
            rw [show 2 + (i - 2) = i by omega, ht] at this
            cases this
        exact (h.none i hnone.1 hnone.2).2.symm
      · exact if_pos ⟨hi, ht⟩
    · rw [if_neg fun hand => hi hand.1]
      exact (h.none i (by omega) (Or.inr (by omega))).2.symm
  have hmarked : ∀ n < 1000, (Fs.mount img).marked n = decide (n < fb) := fun n hn =>
    h.marks (by omega)
  refine ⟨hsb ▸ sb_sound, ⟨?_, fun b hb => ?_⟩, fun i hi ht => ?_⟩
  · have hfills : Lib.Fills (Xv6.refMap (Fs.mount img).block din) fun n => 59 ≤ n ∧ n < fb := h.laid.fills
    rw [hlive]
    refine hfills.congr fun n _ => ?_
    unfold Fs.InUse
    rw [hsb, sb_nmeta, show sb.size = 1000 from rfl]
    constructor
    · rintro ⟨h1, h2, h3⟩
      rw [hmarked n h2, decide_eq_true_eq] at h3
      exact ⟨h1, h3⟩
    · rintro ⟨h1, h2⟩
      have hlt : n < 1000 := by omega
      exact ⟨h1, hlt, (hmarked n hlt).trans (decide_eq_true h2)⟩
  · rw [hsb, sb_nmeta] at hb
    exact (hmarked b (by omega)).trans (decide_eq_true (by omega))
  · rw [hsb] at hi
    have hlt : i < 200 := hi
    rw [h.dinode (by omega)]
    refine ⟨?_, fun x hx => (h.whole i (k := x / 512) (by omega) fun _ => hroot).2⟩
    by_contra hlarge
    exact absurd (h.whole i (k := 140) (by omega) fun _ => hroot).1 (by omega)

end Mkfs

namespace Icache

section
variable {P : Type} [DecidableEq P] {s t : Icache P} {a : IAct P}

/-- A step as a function that fails where the step cannot be taken. -/
def perform (s : Icache P) (a : IAct P) : Except Halt (Icache P) := (s.act a).getD (throw .sleeps)

theorem perform_ok (h : s.perform a = .ok t) : s.Step a t := by
  unfold perform at h
  unfold Step
  cases hact : s.act a with
  | none =>
    rw [hact] at h
    cases h
  | some r =>
    rw [hact] at h
    exact congrArg some h

end

/-- A run on the image of `mkfs` that can be evaluated. -/
theorem exists_run_mkfs {files : List Mkfs.Input} {n : Nat} (hfits : Mkfs.Fits files)
    (hroot : (files.length + 2) % 32 ≠ 0) (as : List (IAct (Fin n))) (Q : Icache (Fin n) → Prop)
    [DecidablePred Q] (h : (Mkfs.mkfs files).any (fun img =>
      (as.foldlM perform { fs := Fs.mount img }).toOption.any fun t => decide (Q t)) = true) :
    ∃ img, Mkfs.mkfs files = some img ∧ (Fs.mount img).Own ∧ Idle (P := Fin n) { fs := Fs.mount img } ∧
      ∃ t, Lib.Run Step { fs := Fs.mount img } as t ∧ Q t := by
  obtain ⟨img, fb, din, c, himg, hbuilt⟩ := Mkfs.mkfs_built hfits
  rw [himg, Option.any_some] at h
  obtain ⟨t, hfold, hq⟩ := Lib.exists_ok Q h
  exact ⟨img, himg, hbuilt.own hfits.inodes hroot, ⟨fun _ => ⟨rfl, rfl⟩, fun _ _ => rfl, fun _ => rfl⟩,
    t, (Lib.Run.of_foldlM hfold).mono fun _ _ _ => perform_ok, hq⟩

/-- A process gets the file of an image, locks it and truncates it. -/
theorem block_ownership_truncated : ∃ img, Mkfs.mkfs [Mkfs.plainFile] = some img ∧
    (Fs.mount img).Own ∧ ∃ t : Icache (Fin 1),
      Lib.Run Step { fs := Fs.mount img } [.iget 0 2, .ilock 0 0, .itrunc 0 0] t ∧ t.fs.Own := by
  obtain ⟨img, himg, hown, hidle, t, hrun, -⟩ := exists_run_mkfs (n := 1) Mkfs.plainFile_fits (by decide)
    [.iget 0 2, .ilock 0 0, .itrunc 0 0] (fun _ => True) (by decide +kernel)
  exact ⟨img, himg, hown, t, hrun, (block_ownership hidle hown hrun).1⟩

end Icache
end Xv6
