import Xv6.FileSteps
import Xv6.RegionSet

/-!
Descriptors held by mappings. `wmap` takes a descriptor before it looks at the region
table and keeps it when the table refuses the range; `wunmap` gives none back. The number
of open descriptors follows the number of regions that hold one exactly as long as no
range is refused after the descriptor was taken and no region that holds one is removed.
-/

namespace Xv6

open Finset Wmap

def Proc.openFds (x : Proc) : Nat := (Finset.univ.filter fun i => (x.ofile i).isSome).card

def Wmap.duplicates (w : Wmap) : Nat := (w.active.filter fun i => 0 ≤ (w.slot i).fd).card

structure Wmap.Accepts (w : Wmap) (addr : Nat) (length : Int) : Prop where
  total : w.total ≠ MAX_WMMAP_INFO
  apart : ∀ i ∈ w.active, vasIntersect addr length (w.slot i).addr (w.slot i).length = false
  free : ∃ i, i ∉ w.active

/-- The tests of `sys_wmap`. -/
structure WmapArgs (addr : Nat) (length : Int) (flags : Nat) : Prop where
  low : 0x60000000 ≤ addr
  high : addInt addr length ≤ 0x80000000
  fixed : flags &&& 8 ≠ 0
  shared : flags &&& 2 ≠ 0
  aligned : addr % 4096 = 0
  positive : 0 < length

/-- A mapping whose descriptor can be duplicated finds room in the table, and a region that
is removed holds no descriptor. -/
def RegionCall.Balanced (k : Kernel) (p : Fin NPROC) : RegionCall → Prop
  | wmap addr length flags fd => WmapArgs addr length flags → (k.proc p).CanDup fd →
      (k.proc p).wmap.Accepts addr length
  | wunmap addr => (k.proc p).wmap.total ≠ 0 → ∀ i, (k.proc p).wmap.startsAt addr = some i →
      ((k.proc p).wmap.slot i).fd < 0

/-- A mapping call of process `p` with any outcome, a successful `wunmap`, or anything else
that leaves its descriptors and its regions alone. -/
def BalanceStep (p : Fin NPROC) (k : Kernel) : Option RegionCall → Kernel → Prop
  | some (.wmap addr length flags fd), k' => ∃ b,
      (RegionCall.wmap addr length flags fd).system k p = .ok (b, k')
  | some (.wunmap addr), k' => (RegionCall.wunmap addr).system k p = .ok (true, k')
  | none, k' => (k'.proc p).ofile = (k.proc p).ofile ∧
      (k'.proc p).wmap.unloaded = (k.proc p).wmap.unloaded

theorem Wmap.add_isSome_iff {w : Wmap} {addr : Nat} {length : Int} (fb : Bool) (fd : Int) :
    (w.add addr length fb fd).isSome = true ↔ w.Accepts addr length := by
  constructor
  · intro h
    obtain ⟨w', hw⟩ := Option.isSome_iff_exists.mp h
    obtain ⟨htotal, hapart, i, hi, -⟩ := add_some hw
    exact ⟨htotal, hapart, i, hi⟩
  rintro ⟨htotal, hapart, i, hi⟩
  have hmeets : ¬ ∃ i ∈ List.finRange MAX_WMMAP_INFO, i ∈ w.active ∧
      vasIntersect addr length (w.slot i).addr (w.slot i).length = true := by
    rintro ⟨j, -, hj, hv⟩
    rw [hapart j hj] at hv
    cases hv
  obtain ⟨j, hj⟩ : ∃ j, (List.finRange MAX_WMMAP_INFO).find? (fun i => (w.slot i).isEmpty) =
      some j := by
    rw [← Option.isSome_iff_exists, List.find?_isSome]
    exact ⟨i, List.mem_finRange i, notMem_active.mp hi⟩
  rw [add, if_neg htotal, findSpot_eq, if_neg hmeets, hj]
  rfl

section
variable {w w' : Wmap} {i : Fin MAX_WMMAP_INFO}

theorem Wmap.duplicates_unloaded (w : Wmap) : w.unloaded.duplicates = w.duplicates := rfl

theorem Wmap.duplicates_region {r : Region} {t : Int} (hi : i ∉ w.active)
    (hr : r.isEmpty = false) :
    (w.update i r t).duplicates = w.duplicates + if 0 ≤ r.fd then 1 else 0 := by
  have hsame : (w.active.filter fun j => 0 ≤ ((w.update i r t).slot j).fd) =
      w.active.filter fun j => 0 ≤ (w.slot j).fd := by
    refine filter_congr fun j hj => ?_
    have hne : j ≠ i := fun he => hi (he ▸ hj)
    rw [slot_update_ne hne]
  rw [duplicates, active_update_region hr, filter_insert, slot_update_self, hsame, duplicates]
  split
  · rw [card_insert_of_notMem fun hm => hi (mem_of_mem_filter i hm)]
  · rfl

theorem Wmap.duplicates_empty {t : Int} (hi : i ∈ w.active) :
    ((w.update i Region.empty t).duplicates + if 0 ≤ (w.slot i).fd then 1 else 0) =
      w.duplicates := by
  have hsame : ((w.active.erase i).filter fun j => 0 ≤ ((w.update i Region.empty t).slot j).fd) =
      (w.active.filter fun j => 0 ≤ (w.slot j).fd).erase i := by
    rw [← filter_erase]
    refine filter_congr fun j hj => ?_
    rw [slot_update_ne (ne_of_mem_erase hj)]
  rw [duplicates, active_update_empty, hsame, duplicates]
  split
  · rename_i hfd
    exact card_erase_add_one (mem_filter.mpr ⟨hi, hfd⟩)
  · rename_i hfd
    have hnot : i ∉ w.active.filter fun j => 0 ≤ (w.slot j).fd := fun hm =>
      hfd (mem_filter.mp hm).2
    rw [erase_eq_of_notMem hnot, Nat.add_zero]

end

theorem openFds_taken {x x' : Proc} {i : Fin NOFILE} {f : Nat} (hfree : x.ofile i = none)
    (h : x'.ofile = Function.update x.ofile i (some f)) : x'.openFds = x.openFds + 1 := by
  have hset : (Finset.univ.filter fun j => (x'.ofile j).isSome) =
      insert i (Finset.univ.filter fun j => (x.ofile j).isSome) := by
    ext j
    by_cases hj : j = i
    · subst hj
      simp [h]
    · simp [h, hj]
  rw [Proc.openFds, hset, card_insert_of_notMem (by simp [hfree]), Proc.openFds]

section
variable {k k' : Kernel} {p : Fin NPROC}

theorem openFds_congr (h : (k'.proc p).ofile = (k.proc p).ofile) :
    (k'.proc p).openFds = (k.proc p).openFds := by
  rw [Proc.openFds, h, Proc.openFds]

/-- `wmap` either takes no descriptor, or takes one and counts it when there is room. -/
theorem wmap_tally {addr : Nat} {length : Int} {flags : Nat} {fd : Int} {r : Option Nat}
    (hlen : 0 < length) (h : wmap k p addr length flags fd = .ok (r, k')) :
    (¬ (k.proc p).CanDup fd ∧ (k'.proc p).ofile = (k.proc p).ofile ∧
      (k'.proc p).wmap.duplicates = (k.proc p).wmap.duplicates) ∨
    ((k.proc p).CanDup fd ∧ (k'.proc p).openFds = (k.proc p).openFds + 1 ∧
      (((k.proc p).wmap.Accepts addr length ∧
          (k'.proc p).wmap.duplicates = (k.proc p).wmap.duplicates + 1) ∨
        (¬ (k.proc p).wmap.Accepts addr length ∧
          (k'.proc p).wmap.duplicates = (k.proc p).wmap.duplicates))) := by
  obtain ⟨n, k1, hn, hcase⟩ := wmap_stored h
  have hw : (k1.proc p).wmap = (k.proc p).wmap := by
    rw [storedFd_spec hn]
    simp [Kernel.setProc]
  -- the region table after the call, counted with the descriptor `n` that is stored
  have hdup : ((k.proc p).wmap.Accepts addr length ∧ (k'.proc p).wmap.duplicates =
      (k.proc p).wmap.duplicates + if 0 ≤ n then 1 else 0) ∨
      (¬ (k.proc p).wmap.Accepts addr length ∧
        (k'.proc p).wmap.duplicates = (k.proc p).wmap.duplicates) := by
    rcases hcase with ⟨-, rfl, hadd⟩ | ⟨w, -, hadd, rfl⟩
    · refine Or.inr ⟨fun ha => ?_, by rw [hw]⟩
      have := (add_isSome_iff (flags &&& 4 = 0) n).mpr ha
      rw [hadd] at this
      cases this
    · refine Or.inl ⟨(add_isSome_iff (flags &&& 4 = 0) n).mp (by rw [hadd]; rfl), ?_⟩
      obtain ⟨-, -, i, hi, rfl⟩ := add_some hadd
      rw [Kernel.proc_setProc_self]
      refine duplicates_region hi ?_
      simp only [Region.isEmpty, Bool.and_eq_false_iff, decide_eq_false_iff_not]
      omega
  have hofile : (k'.proc p).ofile = (k1.proc p).ofile := by
    rcases hcase with ⟨-, rfl, -⟩ | ⟨w, -, -, rfl⟩
    · rfl
    · rw [Kernel.proc_setProc_self]
  rcases storedFd_cases hn with ⟨hcan, rfl, rfl⟩ | ⟨i, f, rfl, hd⟩
  · refine Or.inl ⟨hcan, hofile, ?_⟩
    rcases hdup with ⟨-, hdup⟩ | ⟨-, hdup⟩
    · simpa using hdup
    · exact hdup
  · refine Or.inr ⟨hd.canDup, openFds_taken hd.free (hofile.trans hd.ofile), ?_⟩
    rwa [if_pos (Int.natCast_nonneg _)] at hdup

/-- What one call does to the two numbers, and that they stay in step exactly when the call
is balanced. -/
theorem balanceStep_cases {c : RegionCall} (h : BalanceStep p k (some c) k') :
    (c.Balanced k p ∧ (k'.proc p).ofile = (k.proc p).ofile ∧
      (k'.proc p).wmap.duplicates = (k.proc p).wmap.duplicates) ∨
    (c.Balanced k p ∧ (k'.proc p).openFds = (k.proc p).openFds + 1 ∧
      (k'.proc p).wmap.duplicates = (k.proc p).wmap.duplicates + 1) ∨
    (¬ c.Balanced k p ∧
      (k'.proc p).openFds + (k.proc p).wmap.duplicates ≠
        (k.proc p).openFds + (k'.proc p).wmap.duplicates) := by
  cases c with
  | wmap addr length flags fd =>
    obtain ⟨b, h⟩ := h
    obtain ⟨⟨r, k1⟩, h, hk⟩ := Lib.bind_eq_ok.mp h
    cases hk
    by_cases hargs : WmapArgs addr length flags
    · rcases sysWmap_cases h with ⟨-, rfl⟩ | ⟨-, -, -, -, -, -, h⟩
      · have htests : sysWmap k' p addr length flags fd = wmap k' p addr length flags fd := by
          obtain ⟨h1, h2, h3, h4, h5, h6⟩ := hargs
          rw [sysWmap, if_neg (by omega), if_neg h3, if_neg h4, if_neg (by omega),
            if_neg (by omega)]
        rw [htests] at h
        rcases wmap_tally hargs.positive h with ⟨hcan, hsame⟩ | ⟨-, hopen, -⟩
        · exact Or.inl ⟨fun _ hc => (hcan hc).elim, hsame⟩
        · omega
      · rcases wmap_tally hargs.positive h with ⟨hcan, hsame⟩ | ⟨hcan, hopen, ⟨ha, hdup⟩ | ⟨ha, hdup⟩⟩
        · exact Or.inl ⟨fun _ hc => (hcan hc).elim, hsame⟩
        · exact Or.inr (Or.inl ⟨fun _ _ => ha, hopen, hdup⟩)
        · exact Or.inr (Or.inr ⟨fun hb => ha (hb hargs hcan), by omega⟩)
    · rcases sysWmap_cases h with ⟨-, rfl⟩ | ⟨h1, h2, h3, h4, h5, h6, -⟩
      · exact Or.inl ⟨fun ha => (hargs ha).elim, rfl, rfl⟩
      · exact (hargs ⟨h1, h2, h3, h4, h5, h6⟩).elim
  | wunmap addr =>
    replace h : sysWunmap k p addr = .ok (true, k') := h
    have hofile := (sysWunmap_sameFiles h).ofile p
    unfold sysWunmap at h
    split at h
    · cases h
    rcases wunmap_cases h with ⟨ht, -, rfl⟩ | ⟨-, -, hb, -⟩ | ⟨ht, i, k1, hs, hu, rfl⟩
    · exact Or.inl ⟨fun hne => (hne ht).elim, rfl, rfl⟩
    · cases hb
    obtain ⟨hi, -⟩ := startsAt_some hs
    rw [if_pos rfl] at hofile ⊢
    have hw : ((k1.dropRegion p i).proc p).wmap =
        (k.proc p).wmap.update i Region.empty ((k.proc p).wmap.total - 1) := by
      simp only [Kernel.dropRegion, Kernel.proc_setProc_self, (wmap_unmapPages hu).1]
    have hdup := duplicates_empty (t := (k.proc p).wmap.total - 1) hi
    rw [← hw] at hdup
    by_cases hfd : 0 ≤ ((k.proc p).wmap.slot i).fd
    · rw [if_pos hfd] at hdup
      refine Or.inr (Or.inr ⟨fun hb => ?_, ?_⟩)
      · have := hb ht i hs
        omega
      · rw [openFds_congr hofile]
        omega
    · rw [if_neg hfd, Nat.add_zero] at hdup
      refine Or.inl ⟨fun _ j hj => ?_, hofile, hdup⟩
      rw [hs] at hj
      cases hj
      omega

/-- What balanced calls keep, from the process `x` on: both numbers grow alike, and the
descriptors change only when a region holds one more. -/
structure Proc.Follows (x y : Proc) : Prop where
  balance : y.openFds + x.wmap.duplicates = x.openFds + y.wmap.duplicates
  grows : x.wmap.duplicates ≤ y.wmap.duplicates
  same : y.wmap.duplicates = x.wmap.duplicates → y.ofile = x.ofile

theorem follows_balanceStep {x : Proc} {o : Option RegionCall} (hx : x.Follows (k.proc p))
    (hc : ∀ c, o = some c → c.Balanced k p) (h : BalanceStep p k o k') : x.Follows (k'.proc p) := by
  obtain ⟨hbal, hgrow, hsame⟩ := hx
  cases o with
  | none =>
    obtain ⟨hofile, hw⟩ := h
    have hdup : (k'.proc p).wmap.duplicates = (k.proc p).wmap.duplicates := by
      rw [← duplicates_unloaded, hw, duplicates_unloaded]
    have hopen := openFds_congr hofile
    exact ⟨by omega, by omega, fun he => hofile.trans (hsame (by omega))⟩
  | some c =>
    rcases balanceStep_cases h with ⟨-, hofile, hdup⟩ | ⟨-, hopen, hdup⟩ | ⟨hnot, -⟩
    · have hopen := openFds_congr hofile
      exact ⟨by omega, by omega, fun he => hofile.trans (hsame (by omega))⟩
    · exact ⟨by omega, by omega, fun he => by omega⟩
    · exact (hnot (hc c rfl)).elim

/-- Over every sequence of balanced calls, the number of open descriptors is the number at
the start plus the number of regions that hold one since, and the descriptors are those of
the start when no region does. In every state a call keeps this exactly when it is
balanced. -/
theorem descriptors_balanced {calls : List (Option RegionCall)}
    (h : Lib.Run (Lib.When (fun k o => ∀ c, o = some c → c.Balanced k p) (BalanceStep p)) k calls k') :
    (k.proc p).Follows (k'.proc p) ∧
    ∀ c k'', BalanceStep p k' (some c) k'' →
      ((k''.proc p).openFds + (k'.proc p).wmap.duplicates =
        (k'.proc p).openFds + (k''.proc p).wmap.duplicates ↔ c.Balanced k' p) := by
  refine ⟨?_, ?_⟩
  · exact h.invariant (fun s => (k.proc p).Follows (s.proc p)) ⟨rfl, le_rfl, fun _ => rfl⟩
      fun s c t hs hstep => follows_balanceStep hs hstep.1 hstep.2
  intro c k'' hstep
  rcases balanceStep_cases hstep with ⟨hb, hofile, hdup⟩ | ⟨hb, hopen, hdup⟩ | ⟨hb, hne⟩
  · rw [hdup, openFds_congr hofile]
    exact iff_of_true rfl hb
  · rw [hdup, hopen]
    exact iff_of_true (by omega) hb
  · exact iff_of_false hne hb

end

/-- A kernel in which every process has the file 0 open as descriptor 0. -/
def Kernel.oneFile : Kernel :=
  { Kernel.fresh with
    fs := Kernel.fresh.fs.setFile 0 { ref := 64, type := .inode }
    proc := fun _ => { Proc.zero with
      wmap := Wmap.init, ofile := Function.update (fun _ => none) 0 (some 0) } }

theorem descriptors_balanced_one_file : ∃ k' : Kernel,
    (k'.proc 0).wmap.duplicates = 1 ∧ (k'.proc 0).openFds = 2 ∧
    (Kernel.oneFile.proc 0).Follows (k'.proc 0) := by
  obtain ⟨hfollows, -⟩ := @descriptors_balanced Kernel.oneFile _ 0
    [some (.wmap 0x60000000 0x1000 10 0)]
    (Lib.Run.single ⟨by rintro c ⟨⟩ - -; exact ⟨by decide, by decide, 0, by decide⟩, true, rfl⟩)
  exact ⟨_, by decide, by decide, hfollows⟩

/-- `wmap(0x60000000, 4096, MAP_FIXED | MAP_SHARED, 0)` takes descriptor 1. The `wunmap` of
the region leaves it open, and a second `wmap` of the same range, which fails, takes
descriptor 2. -/
theorem descriptors_leaked : (Kernel.oneFile.proc 0).openFds = 1 ∧
    (∃ k', Lib.Run (BalanceStep 0) Kernel.oneFile
        [some (.wmap 0x60000000 0x1000 10 0), some (.wunmap 0x60000000)] k' ∧
      (k'.proc 0).wmap.duplicates = 0 ∧ (k'.proc 0).openFds = 2) ∧
    ∃ k', Lib.Run (BalanceStep 0) Kernel.oneFile
        [some (.wmap 0x60000000 0x1000 10 0), some (.wmap 0x60000000 0x1000 10 0)] k' ∧
      (k'.proc 0).wmap.duplicates = 1 ∧ (k'.proc 0).openFds = 3 := by
  refine ⟨by decide, ?_, ?_⟩
  · exact ⟨_, (Lib.Run.single ⟨true, rfl⟩).snoc (show RegionCall.system _ 0 _ = _ from rfl),
      by decide, by decide⟩
  · exact ⟨_, (Lib.Run.single ⟨true, rfl⟩).snoc ⟨false, rfl⟩, by decide, by decide⟩

end Xv6
