import Xv6.IcacheCoherence

/-!
The two sides of the test in `iput`. In every run the cache is coherent, and while lookups
find inodes with links, blocks go with the last reference. On a new file system a directory is
made and removed up to that test; a process that then gets its number, from the entry `..` of a
directory removed earlier, has a reference when the blocks are freed.
-/

namespace Xv6

open Function

namespace Icache

section
variable {P : Type} [DecidableEq P] [Fintype P] {s t : Icache P} {p : P} {i b : Nat}

omit [DecidableEq P] in
theorem Ok.coherent_copies (h : s.Ok) : s.Coherent :=
  ⟨h.unique, fun e he hv _ => (h.coherent e he hv).1⟩

/-- In every run the cache is coherent, and as long as lookups find inodes with links, blocks
are freed with the last reference to an inode without links only. -/
theorem icache_coherent (hidle : s.Idle) (hown : s.fs.Own) :
    (∀ as t, Lib.Run KStep s as t → t.Coherent) ∧
      ∀ as t, Lib.Run (Lib.When Linked KStep) s as t → ∀ a u, t.Linked a → t.KStep a u →
        FreedByLast t a u := by
  have hok := hidle.ok hown
  refine ⟨fun as t hrun => ?_, fun as t hrun a u _ hstep => ?_⟩
  · exact (hrun.invariant Ok hok fun _ _ _ h hstep => h.step hstep.2).coherent_copies
  · have hboth : t.Ok ∧ t.Settled := hrun.invariant (fun s => s.Ok ∧ s.Settled) ⟨hok, hidle.settled⟩
      fun _ _ _ h hstep => ⟨h.1.step hstep.2.2, h.2.step h.1 hstep.1 hstep.2⟩
    exact hboth.2.freedByLast hboth.1 hstep

/-- The calls of a process that makes a directory, unlinks it and drops its reference. -/
def makeAndRemove (p : P) : List (IAct P) :=
  [.ialloc p 1, .allocGet p, .ilock p 0, .update p 0 0 0 1, .writei p 0 (List.replicate 32 0) 0 none,
    .update p 0 0 0 0, .iunlock p 0, .putLock p 0, .putTest p]

end

/-- The last reference to a removed directory: its block is freed. -/
theorem icache_coherent_freed : ∃ img, Mkfs.mkfs (Mkfs.emptyFiles 0) = some img ∧ (Fs.mount img).Own ∧
    ∃ t u : Icache (Fin 2), Lib.Run (Lib.When Linked KStep) { fs := Fs.mount img } (makeAndRemove 0) t ∧
      t.Coherent ∧ t.KStep (.putFree 0) u ∧
      (∃ n < t.fs.sb.size, t.fs.marked n = true ∧ u.fs.marked n ≠ true) ∧ FreedByLast t (.putFree 0) u := by
  obtain ⟨img, himg, hown, hidle, t, hrun, hfree⟩ := exists_run_mkfs (Mkfs.emptyFiles_fits (n := 0) (by decide))
    (by decide) (makeAndRemove 0) (fun t => (t.perform (.putFree 0)).toOption.any (fun u : Icache (Fin 2) =>
      decide (60 < t.fs.sb.size ∧ t.fs.marked 60 = true ∧ u.fs.marked 60 ≠ true)) = true) (by decide +kernel)
  obtain ⟨u, hu, hfreed⟩ := Lib.exists_ok _ hfree
  have hplain : ∀ a ∈ makeAndRemove (0 : Fin 2), ∀ s t, s.Step a t → Lib.When Linked KStep s a t := by
    simp [makeAndRemove, Lib.When, Linked, KStep]
  have hstep : t.KStep (.putFree 0) u := ⟨by simp, perform_ok hu⟩
  have hlinked := hrun.mono_mem fun s a t ha => hplain a ha s t
  obtain ⟨hcoherent, hlast⟩ := icache_coherent hidle hown
  exact ⟨img, himg, hown, t, u, hlinked, hcoherent _ _ (hlinked.mono fun _ _ _ h => h.2), hstep, ⟨60, hfreed⟩,
    hlast _ _ hlinked _ _ trivial hstep⟩

/-- Another process gets the number of the removed directory between the test and the
truncation, and has a reference to it when the block is freed. -/
theorem freed_while_referenced : ∃ img, Mkfs.mkfs (Mkfs.emptyFiles 0) = some img ∧ (Fs.mount img).Own ∧
    ∃ t u : Icache (Fin 2),
      Lib.Run KStep { fs := Fs.mount img } (makeAndRemove 0 ++ [.iget 1 2]) t ∧
      t.KStep (.putFree 0) u ∧ (t.entry 0).inum = 2 ∧ (t.entry 0).ref = 2 ∧ 0 < t.held 1 0 ∧
      (∃ n < t.fs.sb.size, t.fs.marked n = true ∧ u.fs.marked n ≠ true) ∧
      ¬ FreedByLast t (.putFree 0) u := by
  obtain ⟨img, himg, hown, -, t, hrun, hinum, href, hheld, hpc, hfree⟩ :=
    exists_run_mkfs (Mkfs.emptyFiles_fits (n := 0) (by decide)) (by decide) (makeAndRemove 0 ++ [.iget 1 2])
      (fun t => (t.entry 0).inum = 2 ∧ (t.entry 0).ref = 2 ∧ 0 < t.held 1 0 ∧ t.pc 0 = .tested 0 true ∧
        (t.perform (.putFree 0)).toOption.any (fun u : Icache (Fin 2) =>
          decide (60 < t.fs.sb.size ∧ t.fs.marked 60 = true ∧ u.fs.marked 60 ≠ true)) = true) (by decide +kernel)
  obtain ⟨u, hu, hn, hm, hm'⟩ := Lib.exists_ok _ hfree
  have hplain : ∀ a ∈ makeAndRemove (0 : Fin 2) ++ [.iget 1 2], ∀ p e, a ≠ .itrunc p e := by
    simp [makeAndRemove]
  refine ⟨img, himg, hown, t, u, hrun.mono_mem fun s a t ha h => ⟨hplain a ha, h⟩, ⟨by simp, perform_ok hu⟩,
    hinum, href, hheld, ⟨60, hn, hm, hm'⟩, fun hlast => ?_⟩
  obtain ⟨p, e, ha, hp, hone, -⟩ := hlast 60 hn hm hm'
  cases ha
  rw [hpc] at hp
  cases hp
  rw [href] at hone
  cases hone

end Icache
end Xv6
