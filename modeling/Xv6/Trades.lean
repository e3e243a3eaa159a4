import Xv6.Ownership
import Xv6.ExecSpec

/-!
The exchange each operation makes between the pool and the user entries: which entries can
have their frames freed, which can disappear, and when frames can be lost.
-/

namespace Xv6

open Multiset PgDir

variable {xs : List Frame} {d d' : PgDir} {m m' : Machine} {x : Proc} {lo v : Nat}

/-- The step from `k` to `k'` is an exchange in which the frames `added` come into use and
only frames of entries in `Frees` are freed. Unless `Lossy` holds, no frame is lost, only
entries in `Drops` disappear, and of these the ones in `Frees` are freed. -/
def Trades (k k' : Kernel) (added : Multiset Frame) (Frees Drops : Fin NPROC → Nat → Prop)
    (Lossy : Prop) : Prop :=
  ∃ freed dropped lost, Lib.Exchange k.holding k'.holding freed dropped added lost ∧
    (∀ e ∈ freed, Frees e.1.1 e.1.2) ∧
    (¬ Lossy → lost = 0 ∧ ∀ q v, (q, v) ∈ dropped → Drops q v ∧
      ∀ x, k.Maps q v x → Frees q v → x ∈ freed.map Prod.snd)

section
variable {k k' : Kernel} {p : Fin NPROC} {Frees Drops : Fin NPROC → Nat → Prop} {Lossy : Prop}

theorem Trades.of_eq (h : k'.holding = k.holding) : Trades k k' 0 Frees Drops Lossy := by
  refine ⟨[], ∅, 0, ?_, by simp, fun _ => ⟨rfl, by simp⟩⟩
  rw [h]
  exact Lib.Exchange.refl _

theorem Trades.same (hother : ∀ q, Proc.SameSpace (k'.proc q) (k.proc q))
    (hk : k'.kpgdir = k.kpgdir) (hfree : k'.mach.kmem.free = k.mach.kmem.free) :
    Trades k k' 0 Frees Drops Lossy :=
  .of_eq (holding_same hother hk hfree)

theorem Trades.of_refs (lost : Multiset Frame) (hbalance : k'.total + lost = k.total)
    (horigin : ∀ q v x, k'.Maps q v x → ∃ r w, k.Maps r w x)
    (hkept : ∀ q v x, k.Maps q v x → k'.Maps q v x) (hlossy : ¬ Lossy → lost = 0) :
    Trades k k' 0 Frees Drops Lossy := by
  refine ⟨[], ∅, lost, Lib.Exchange.of_refs hbalance ?_ ?_, by simp,
    fun h => ⟨hlossy h, by simp⟩⟩
  · rintro ⟨q, v⟩ x hm
    obtain ⟨r, w, h⟩ := horigin q v x hm
    exact ⟨(r, w), h⟩
  · rintro ⟨q, v⟩ x hm -
    exact hkept q v x hm

theorem Trades.proc (fs : List Nat) (D : Set Nat) (added lost : Multiset Frame)
    (hother : ∀ q, q ≠ p → Proc.SameSpace (k'.proc q) (k.proc q))
    (hk : k'.kpgdir = k.kpgdir) (hlive : (k.proc p).live)
    (hbalance : k'.mach.kmem.free + (k'.proc p).owned + (added + lost) =
      k.mach.kmem.free + (k.proc p).owned + (k.proc p).pgdir.ppns fs)
    (hnodup : fs.Nodup)
    (hvalid : ∀ v ∈ fs, v < 0x80000 ∧ ((k.proc p).pgdir.entry v).p = true)
    (horigin : ∀ v x, k'.Maps p v x → x ∈ added ∨ k.Maps p v x ∧ v ∉ fs)
    (hlanded : ∀ x ∈ added, ∃ v, k'.Maps p v x)
    (hkept : ∀ v x, k.Maps p v x → v ∉ D → k'.Maps p v x)
    (hfrees : ∀ v ∈ fs, Frees p v)
    (hlossy : ¬ Lossy → lost = 0 ∧ ∀ v ∈ D, Drops p v ∧
      (((k.proc p).pgdir.entry v).p = true → v < 0x80000 → Frees p v → v ∈ fs)) :
    Trades k k' added Frees Drops Lossy := by
  refine ⟨_, _, lost, exchange_proc hother hk hlive hbalance hnodup hvalid horigin hlanded
    hkept, ?_, fun h => ⟨(hlossy h).1, ?_⟩⟩
  · intro e he
    obtain ⟨v, hv, rfl⟩ := List.mem_map.mp he
    exact hfrees v hv
  · rintro q v ⟨rfl, hv⟩
    obtain ⟨hd, hall⟩ := (hlossy h).2 v hv
    refine ⟨hd, fun x hm hf => ?_⟩
    rw [List.map_map]
    exact List.mem_map.mpr ⟨v, hall hm.present hm.user hf, hm.ppn⟩

end

theorem Proc.owned_of_live (h : x.live) :
    x.owned = (x.kstack.toList : Multiset Frame) + x.pgdir.frames := by
  rw [owned, if_pos h]

theorem Proc.owned_of_unused (h : ¬ x.live) : x.owned = 0 := by
  rw [owned, if_neg h]

section
variable {k k' : Kernel} {p : Fin NPROC} {Frees Drops : Fin NPROC → Nat → Prop} {Lossy : Prop}

theorem Trades.cleared (fs vs : List Nat)
    (hother : ∀ q, q ≠ p → Proc.SameSpace (k'.proc q) (k.proc q))
    (hk : k'.kpgdir = k.kpgdir) (hlive : (k.proc p).live) (hlive' : (k'.proc p).live)
    (hstack : (k'.proc p).kstack = (k.proc p).kstack)
    (hc : Cleared (k.proc p).pgdir (· ∈ vs) (k'.proc p).pgdir)
    (hfree : k'.mach.kmem.free = k.mach.kmem.free + (k.proc p).pgdir.ppns fs)
    (hnodup : fs.Nodup) (hsub : ∀ v ∈ fs, v ∈ vs)
    (hvalid : ∀ v ∈ fs, v < 0x80000 ∧ ((k.proc p).pgdir.entry v).p = true)
    (hfrees : ∀ v ∈ fs, Frees p v)
    (hdrops : ∀ v ∈ vs, Drops p v ∧
      (((k.proc p).pgdir.entry v).p = true → v < 0x80000 → Frees p v → v ∈ fs)) :
    Trades k k' 0 Frees Drops Lossy := by
  refine .proc fs {v | v ∈ vs} 0 0 hother hk hlive ?_ hnodup hvalid ?_ (by simp) ?_ hfrees
    fun _ => ⟨rfl, hdrops⟩
  · rw [hfree, Proc.owned_of_live hlive, Proc.owned_of_live hlive', hstack, PgDir.frames, hc.frame,
      hc.tables, ← PgDir.frames]
    abel
  · rintro v x ⟨-, hu, hpr, hx⟩
    have hnot : v ∉ vs := by
      intro hv
      rw [hc.cleared v hv] at hpr
      cases hpr
    rw [hc.kept v hnot] at hpr hx
    exact Or.inr ⟨⟨hlive, hu, hpr, hx⟩, fun hv => hnot (hsub v hv)⟩
  · rintro v x ⟨-, hu, hpr, hx⟩ hv
    refine ⟨hlive', hu, ?_, ?_⟩
    · rw [hc.kept v hv]
      exact hpr
    · rw [hc.kept v hv]
      exact hx

end

/-- The pages that `growproc` adds or gives up between two sizes. -/
def pagesBetween (sz newsz : Nat) : List Nat := deallocRange sz newsz ++ deallocRange newsz sz

/-- A user page whose frame `deallocuvm` would free. -/
def Kernel.Uncounted (k : Kernel) (p : Fin NPROC) (v : Nat) : Prop :=
  ((k.proc p).pgdir.entry v).p = true ∧ k.mach.counts ((k.proc p).pgdir.entry v).ppn = 0

def PgDir.freeable (d : PgDir) (counts : Frame → Nat) (vs : List Nat) : List Nat :=
  vs.filter fun v => (d.entry v).p && counts (d.entry v).ppn == 0

theorem PgDir.released_eq (d : PgDir) (counts : Frame → Nat) (vs : List Nat) :
    d.released counts vs = d.ppns (d.freeable counts vs) := rfl

theorem PgDir.mem_freeable {counts : Frame → Nat} {vs : List Nat} : v ∈ d.freeable counts vs ↔
      v ∈ vs ∧ (d.entry v).p = true ∧ counts (d.entry v).ppn = 0 := by
  simp [freeable]

theorem Grown.entry_of_present (h : Grown m d lo xs m' d') (hp : (d.entry v).p = true) :
    d'.entry v = d.entry v := by
  refine h.kept v ?_
  by_contra hin
  have := h.absent (v - lo) (by omega)
  rw [show lo + (v - lo) = v by omega, hp] at this
  cases this

theorem Grown.entry_cases (h : Grown m d lo xs m' d') (v : Nat) :
    d'.entry v = d.entry v ∨ (lo ≤ v ∧ v < lo + xs.length ∧ (d'.entry v).ppn ∈ xs) := by
  by_cases hv : v < lo ∨ lo + xs.length ≤ v
  · exact Or.inl (h.kept v hv)
  have hi : v - lo < xs.length := by omega
  have hmap := h.mapped _ hi
  rw [show lo + (v - lo) = v by omega] at hmap
  refine Or.inr ⟨by omega, by omega, ?_⟩
  rw [hmap]
  exact List.get_mem _ _

section
variable {k k' : Kernel} {p : Fin NPROC} {m : Machine} {d : PgDir} {newsz : Nat}

/-- What `growproc` can do to the entries of `p`. -/
abbrev Kernel.ResizeFrees (k : Kernel) (p : Fin NPROC) (newsz : Nat) (q : Fin NPROC) (v : Nat) :
    Prop :=
  q = p ∧ v ∈ pagesBetween (k.proc p).sz newsz ∧ k.Uncounted p v

abbrev Kernel.ResizeDrops (k : Kernel) (p : Fin NPROC) (newsz : Nat) (q : Fin NPROC) (v : Nat) :
    Prop :=
  q = p ∧ v ∈ deallocRange (k.proc p).sz newsz

abbrev Kernel.ResizeLossy (k : Kernel) (p : Fin NPROC) (newsz : Nat) : Prop :=
  k.mach.kmem.free.card ≤ allocPages (k.proc p).sz newsz + 1024

section
variable (hlive : (k.proc p).live) (hlive' : (k'.proc p).live)
  (hother : ∀ q, q ≠ p → Proc.SameSpace (k'.proc q) (k.proc q)) (hk : k'.kpgdir = k.kpgdir)
  (hstack : (k'.proc p).kstack = (k.proc p).kstack) (hfree : k'.mach.kmem.free = m.kmem.free)
  (hpg : (k'.proc p).pgdir = d)
include hlive hlive' hother hk hstack hfree hpg

theorem grown_trades (hfit : sizePages (k.proc p).sz + xs.length ≤ 0x80000)
    (hg : Grown k.mach (k.proc p).pgdir (sizePages (k.proc p).sz) xs m d) :
    Trades k k' xs (k.ResizeFrees p newsz) (k.ResizeDrops p newsz) (k.ResizeLossy p newsz) := by
  refine .proc [] ∅ xs 0 hother hk hlive ?_ (by simp) (by simp) ?_ ?_ ?_ (by simp)
    (fun _ => ⟨rfl, by simp⟩)
  · rw [hfree, Proc.owned_of_live hlive', Proc.owned_of_live hlive, hpg, hstack]
    simp only [PgDir.ppns, List.map_nil, coe_nil, add_zero]
    calc _ = m.kmem.free + d.frames + xs + (k.proc p).kstack.toList := by abel
      _ = _ := by rw [← hg.balance]; abel
  · rintro v x ⟨-, hu, hpr, hx⟩
    rw [hpg] at hpr hx
    rcases hg.entry_cases v with he | ⟨-, -, hmem⟩
    · rw [he] at hpr hx
      exact Or.inr ⟨⟨hlive, hu, hpr, hx⟩, by simp⟩
    · rw [hx] at hmem
      exact Or.inl hmem
  · intro x hx
    obtain ⟨i, hi⟩ := List.get_of_mem (mem_coe.mp hx)
    refine ⟨sizePages (k.proc p).sz + i, hlive', by omega, ?_, ?_⟩
    · rw [hpg, hg.mapped i i.isLt]
      rfl
    · rw [hpg, hg.mapped i i.isLt]
      exact hi
  · rintro v x ⟨-, hu, hpr, hx⟩ -
    have he := hg.entry_of_present hpr
    exact ⟨hlive', hu, by rw [hpg, he]; exact hpr, by rw [hpg, he]; exact hx⟩

/-- An `allocuvm` that ran out of memory frees old pages without a count in its range; its own
frames carry a count and are lost. -/
theorem abandoned_trades {m1 : Machine} {d1 : PgDir}
    (hsz : (k.proc p).sz ≤ newsz) (hlt : newsz < 0x80000000)
    (hxs : xs.length < allocPages (k.proc p).sz newsz)
    (ha : Abandoned k.mach (k.proc p).pgdir (sizePages (k.proc p).sz)
      (deallocRange newsz (k.proc p).sz) m d xs m1 d1) :
    Trades k k' 0 (k.ResizeFrees p newsz) (k.ResizeDrops p newsz) (k.ResizeLossy p newsz) := by
  have hold : ∀ v, m1.counts (d1.entry v).ppn = 0 → d1.entry v = (k.proc p).pgdir.entry v ∧
      k.mach.counts (d1.entry v).ppn = 0 := by
    intro v hc
    rw [ha.grown.counts] at hc
    split at hc
    · cases hc
    · rename_i hnot
      rcases ha.grown.entry_cases v with he | ⟨-, -, hmem⟩
      · exact ⟨he, hc⟩
      · exact (hnot hmem).elim
  have hfs : ∀ v ∈ d1.freeable m1.counts (deallocRange newsz (k.proc p).sz),
      v ∈ deallocRange newsz (k.proc p).sz ∧ k.Uncounted p v := by
    intro v hv
    obtain ⟨hr, hpr, hc⟩ := mem_freeable.mp hv
    obtain ⟨he, hcount⟩ := hold v hc
    rw [he] at hpr hcount
    exact ⟨hr, hpr, hcount⟩
  have hppns : d1.ppns (d1.freeable m1.counts (deallocRange newsz (k.proc p).sz)) =
      (k.proc p).pgdir.ppns (d1.freeable m1.counts (deallocRange newsz (k.proc p).sz)) := by
    apply List.map_congr_left
    intro v hv
    rw [(hold v (mem_freeable.mp hv).2.2).1]
  refine .proc (d1.freeable m1.counts (deallocRange newsz (k.proc p).sz))
    {v | v ∈ deallocRange newsz (k.proc p).sz} 0 xs hother hk hlive ?_ ?_ ?_ ?_ (by simp) ?_ ?_
    (fun hshort => (hshort ?_).elim)
  · rw [hfree, Proc.owned_of_live hlive', Proc.owned_of_live hlive, hpg, hstack, ha.free,
      released_eq, hppns, PgDir.frames, ha.cleared.frame, ha.cleared.tables, ← PgDir.frames,
      zero_add]
    calc _ = m1.kmem.free + d1.frames + xs + (k.proc p).kstack.toList +
          (k.proc p).pgdir.ppns (d1.freeable m1.counts (deallocRange newsz (k.proc p).sz)) := by
            abel
      _ = _ := by rw [← ha.grown.balance]; abel
  · exact (deallocRange_nodup _ _).filter _
  · intro v hv
    exact ⟨deallocRange_lt (by omega) (hfs v hv).1, (hfs v hv).2.1⟩
  · rintro v x ⟨-, hu, hpr, hx⟩
    rw [hpg] at hpr hx
    have hnot : v ∉ deallocRange newsz (k.proc p).sz := by
      intro hv
      rw [ha.cleared.cleared v hv] at hpr
      cases hpr
    rw [ha.cleared.kept v hnot] at hpr hx
    have hkept : d1.entry v = (k.proc p).pgdir.entry v := by
      refine ha.grown.kept v ?_
      rw [mem_deallocRange] at hnot
      unfold allocPages sizePages pagesTo pgroundup at *
      omega
    rw [hkept] at hpr hx
    exact Or.inr ⟨⟨hlive, hu, hpr, hx⟩, fun hv => hnot (hfs v hv).1⟩
  · rintro v x ⟨-, hu, hpr, hx⟩ hv
    have he := (ha.cleared.kept v hv).trans (ha.grown.entry_of_present hpr)
    exact ⟨hlive', hu, by rw [hpg, he]; exact hpr, by rw [hpg, he]; exact hx⟩
  · intro v hv
    exact ⟨rfl, List.mem_append_right _ (hfs v hv).1, (hfs v hv).2⟩
  · have hcard := congrArg Multiset.card ha.grown.balance
    simp only [card_add, coe_card] at hcard
    have h1 := ha.short
    have h2 := d1.card_frames_le
    have h3 : 1 ≤ (k.proc p).pgdir.frames.card := by
      rw [PgDir.frames, card_cons]
      omega
    omega

end

theorem resized_trades {sz : Nat} (hlive : (k.proc p).live) (hsz : (k.proc p).sz < 0x80000000)
    (hr : Resized k.mach (k.proc p).pgdir (k.proc p).sz newsz m d sz) (hm : m'.kmem = m.kmem)
    (hk : k' = { k with mach := m' }.setProc p { k.proc p with pgdir := d, sz := sz }) :
    ∃ added, Trades k k' added (k.ResizeFrees p newsz) (k.ResizeDrops p newsz)
      (k.ResizeLossy p newsz) := by
  have hp : k'.proc p = { k.proc p with pgdir := d, sz := sz } := by rw [hk]; simp
  have hother : ∀ q, q ≠ p → Proc.SameSpace (k'.proc q) (k.proc q) := by
    intro q hq
    rw [hk, Kernel.proc_setProc_ne hq]
    exact Proc.SameSpace.refl _
  have hkp : k'.kpgdir = k.kpgdir := by rw [hk]; rfl
  have hfree : k'.mach.kmem.free = m.kmem.free := by rw [hk]; exact congrArg Kmem.free hm
  have hlive' : (k'.proc p).live := by rw [hp]; exact hlive
  have hstack : (k'.proc p).kstack = (k.proc p).kstack := by rw [hp]
  have hpg : (k'.proc p).pgdir = d := by rw [hp]
  cases hr with
  | same =>
    refine ⟨0, .same (fun q => ?_) hkp hfree⟩
    by_cases hq : q = p
    · subst hq
      rw [hp]
      exact .of_eq Iff.rfl rfl rfl
    · exact hother q hq
  | grown hle hlt hxs hg =>
    refine ⟨_, grown_trades hlive hlive' hother hkp hstack hfree hpg ?_ hg⟩
    rw [hxs]
    unfold allocPages sizePages pagesTo pgroundup
    omega
  | abandoned hle hlt hxs ha =>
    exact ⟨0, abandoned_trades hlive hlive' hother hkp hstack hfree hpg hle hlt hxs ha⟩
  | shrunk hlt hf hc hsz' =>
    rw [← hpg] at hc
    refine ⟨0, .cleared
      ((k.proc p).pgdir.freeable k.mach.counts (deallocRange (k.proc p).sz newsz))
      (deallocRange (k.proc p).sz newsz) hother hkp hlive hlive' hstack hc ?_ ?_ ?_ ?_ ?_ ?_⟩
    · rw [hfree, hf.free, released_eq]
    · exact (deallocRange_nodup _ _).filter _
    · exact fun v hv => (mem_freeable.mp hv).1
    · intro v hv
      obtain ⟨hr, hpr, -⟩ := mem_freeable.mp hv
      exact ⟨deallocRange_lt (by omega) hr, hpr⟩
    · intro v hv
      obtain ⟨hr, hpr, hcount⟩ := mem_freeable.mp hv
      exact ⟨rfl, List.mem_append_left _ hr, hpr, hcount⟩
    · intro v hv
      exact ⟨⟨rfl, hv⟩, fun hpr _ hfr => mem_freeable.mpr ⟨hv, hpr, hfr.2.2.2⟩⟩

end

end Xv6
