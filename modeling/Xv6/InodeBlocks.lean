import Xv6.BlockMap
import Xv6.Lib.Outcome

/-!
What `bmap` does to the places that name blocks. It fills an empty place with a new block, for
the indirect block first where that is missing, and takes as many blocks from the bitmap as it
fills places.
-/

namespace Xv6

open Function Finset
namespace Fs

def Names (fs : Fs) (din : Nat → Dinode) : Prop := fs.Marks (refMap fs.block din)

def Grows (fs fs' : Fs) : Prop := ∀ n < fs.sb.size, fs.marked n = true → fs'.marked n = true

def freeBlocks (fs : Fs) : Finset Nat := (Finset.range fs.sb.size).filter fun b => fs.marked b = false

def bmapPlaces (bn : Nat) : Finset BPos := if bn < 12 then {dataPos bn} else {dataPos bn, .inl 12}

def lacking (fs : Fs) (ip : Dinode) (ps : Finset BPos) : Finset BPos :=
  ps.filter fun p => ip.ref fs.block p = 0

/-- Inode `i` has become `ip'`, in memory; the inodes on disk and the blocks that other inodes
name are as they were. -/
structure Moves (fs : Fs) (din : Nat → Dinode) (i : Nat) (fs' : Fs) (ip' : Dinode) : Prop where
  names : fs'.Names (update din i ip')
  kept : fs.Kept fs'
  apart : ∀ j, j ≠ i → (din j).ref fs'.block = (din j).ref fs.block

section
variable {fs fs' fs'' : Fs} {din : Nat → Dinode} {ip ip' ip'' : Dinode} {i b bn n x : Nat}

theorem Moves.refl (h : fs.Names din) (hip : din i = ip) : fs.Moves din i fs ip := by
  subst hip
  refine ⟨?_, .refl fs, fun _ _ => rfl⟩
  rw [update_eq_self]
  exact h

theorem Moves.trans (h : fs.Moves din i fs' ip') (h' : fs'.Moves (update din i ip') i fs'' ip'') :
    fs.Moves din i fs'' ip'' := by
  refine ⟨?_, h.kept.trans h'.kept, fun j hj => ?_⟩
  · have := h'.names
    rw [update_idem] at this
    exact this
  · have := h'.apart j hj
    rw [update_of_ne hj] at this
    exact this.trans (h.apart j hj)

theorem Names.root_data (h : fs.Names din) (h0 : (din i).addrs 12 ≠ 0) :
    fs.InUse ((din i).addrs 12) := h.fills.inUse (i := (i, (.inl 12 : BPos))) h0

theorem Names.root_ne (h : fs.Names din) {j : Nat} (h0 : (din i).addrs 12 ≠ 0) (hij : j ≠ i) :
    (din j).addrs 12 ≠ (din i).addrs 12 :=
  h.fills.ne (i := (i, (.inl 12 : BPos))) (j := (j, (.inl 12 : BPos))) h0 (by simpa using Ne.symm hij)

theorem Took.inUse (ht : fs.Took b fs') (hn : fs.InUse n) : fs'.block n = fs.block n := by
  obtain ⟨hdata, -, hmarked⟩ := hn
  refine ht.others n hdata ?_
  rintro rfl
  rw [ht.free] at hmarked
  cases hmarked

theorem Took.inUse_mono (ht : fs.Took b fs') (hn : fs.InUse n) : fs'.InUse n := by
  obtain ⟨hdata, hlt, hmarked⟩ := hn
  unfold InUse
  rw [ht.kept.sb]
  exact ⟨hdata, hlt, by rw [ht.marks n hlt, hmarked, Bool.true_or]⟩

theorem Took.ref (h : fs.Names din) (ht : fs.Took b fs') (i : Nat) :
    (din i).ref fs'.block = (din i).ref fs.block :=
  ref_congr fun h0 => ht.inUse (h.root_data h0)

theorem Took.refMap (h : fs.Names din) (ht : fs.Took b fs') :
    Xv6.refMap fs'.block din = Xv6.refMap fs.block din := by
  funext ⟨k, q⟩
  exact congrFun (ht.ref h k) q

theorem Took.grows (ht : fs.Took b fs') : fs.Grows fs' := fun n hn hm => by
  rw [ht.marks n hn, hm, Bool.true_or]

theorem Took.freeBlocks (ht : fs.Took b fs') : fs'.freeBlocks.card + 1 = fs.freeBlocks.card := by
  have hmem : b ∈ fs.freeBlocks := mem_filter.mpr ⟨mem_range.mpr ht.range, ht.free⟩
  have herase : fs'.freeBlocks = fs.freeBlocks.erase b := by
    ext n
    rw [mem_erase, Fs.freeBlocks, Fs.freeBlocks, ht.kept.sb, mem_filter, mem_filter,
      mem_range]
    constructor
    · rintro ⟨hn, hm⟩
      rw [ht.marks n hn, Bool.or_eq_false_iff, decide_eq_false_iff_not] at hm
      exact ⟨hm.2, hn, hm.1⟩
    · rintro ⟨hne, hn, hm⟩
      exact ⟨hn, by rw [ht.marks n hn, hm, decide_eq_false hne]; rfl⟩
  rw [herase, card_erase_add_one hmem]

theorem freeBlocks_setBlock (hs : fs.sb.Sound) (hb : fs.sb.nmeta ≤ b) (y : Nat → UInt8) :
    (fs.setBlock b y).freeBlocks = fs.freeBlocks :=
  filter_congr fun n hn => by
    rw [marked_setBlock fs hs hb (mem_range.mp hn)]

theorem InUse.setBlock (hs : fs.sb.Sound) (hb : fs.sb.nmeta ≤ b) (y : Nat → UInt8) (hn : fs.InUse n) :
    (fs.setBlock b y).InUse n :=
  ⟨hn.1, hn.2.1, (marked_setBlock fs hs hb hn.2.1 y).trans hn.2.2⟩

theorem mem_bmapPlaces {p : BPos} : p ∈ bmapPlaces bn ↔ p = dataPos bn ∨ ¬ bn < 12 ∧ p = .inl 12 := by
  unfold bmapPlaces
  split_ifs with hlt
  · simp [hlt]
  · simp [hlt]

theorem root_of_blockAt (hge : ¬ bn < 12) (h : ip.blockAt fs.block bn ≠ 0) : ip.addrs 12 ≠ 0 := by
  intro h0
  rw [Dinode.blockAt, dif_neg hge, if_pos h0] at h
  exact h rfl

theorem Grows.trans (hk : fs.Kept fs') (h : fs.Grows fs') (h' : fs'.Grows fs'') : fs.Grows fs'' :=
  fun n hn hm => h' n (by rw [hk.sb]; exact hn) (h n hn hm)

theorem Took.ne_zero (hs : fs.sb.Sound) (ht : fs.Took b fs') : b ≠ 0 := by
  have h1 := hs.bitmap b ht.range
  have h2 := ht.data
  omega

theorem Names.take (hs : fs.sb.Sound) (h : fs.Names din) (ht : fs.Took b fs') (p : BPos)
    (h0 : (din i).ref fs.block p = 0)
    (href : ip'.ref fs'.block = update ((din i).ref fs'.block) p b) :
    fs.Moves din i fs' ip' ∧ ip'.ref fs'.block = update ((din i).ref fs.block) p b := by
  refine ⟨⟨?_, ht.kept, fun j _ => ht.ref h j⟩, by rw [href, ht.ref h]⟩
  unfold Names
  rw [refMap_setInode din _ href, ht.refMap h]
  exact h.assign hs ht h0

theorem Names.entry (hs : fs.sb.Sound) (h : fs.Names din) (ht : fs.Took b fs')
    (h0 : (din i).addrs 12 ≠ 0) (j : Fin 128) (hj : wordAt (fs.block ((din i).addrs 12)) j.val = 0) :
    let fs'' := fs'.setBlock ((din i).addrs 12) (putWord (fs'.block ((din i).addrs 12)) j.val b)
    fs.Moves din i fs'' (din i) ∧ fs.Grows fs'' ∧
      (din i).ref fs''.block = update ((din i).ref fs.block) (.inr j) b := by
  have hsb := ht.kept.sb
  obtain ⟨hdata, hlt, -⟩ := h.root_data h0
  have hb : b < 0x100000000 := ht.range.trans hs.size
  have hmap := refMap_putWord fs'.block (v := b) h0 j hb fun k hk => h.root_ne h0 hk
  have hassign : fs'.Marks (update (Xv6.refMap fs.block din) (i, .inr j) b) :=
    h.assign hs ht (by rw [Xv6.refMap, Dinode.ref, if_neg h0, hj])
  rw [← hsb] at hdata hlt hs
  refine ⟨⟨?_, ht.kept.trans (kept_setBlock fs' hs hdata hlt _), fun k hk => ?_⟩, fun n hn hm => ?_, ?_⟩
  · rw [update_eq_self]
    unfold Names
    change Marks _ (Xv6.refMap (update fs'.block _ _) din)
    rw [hmap, ht.refMap h]
    exact hassign.setBlock hs hdata hlt _
  · refine (ref_congr fun hk0 => update_of_ne ?_ ..).trans (ht.ref h k)
    exact h.root_ne h0 hk
  · rw [marked_setBlock fs' hs hdata (by rw [hsb]; exact hn)]
    exact ht.grows n hn hm
  · rw [← ht.ref h]
    exact ref_putWord fs'.block h0 j hb

/-- The empty ones of some places of an inode have been filled with new blocks. -/
structure Filled (fs : Fs) (ip : Dinode) (ps : Finset BPos) (fs' : Fs) (ip' : Dinode) : Prop where
  stays : ∀ p, ip.ref fs.block p ≠ 0 → ip'.ref fs'.block p = ip.ref fs.block p
  outside : ∀ p, p ∉ ps → ip'.ref fs'.block p = ip.ref fs.block p
  inside : ∀ p ∈ ps, ip'.ref fs'.block p ≠ 0
  fresh : ∀ p, fs.InUse (ip'.ref fs'.block p) → ip'.ref fs'.block p = ip.ref fs.block p
  free : fs'.freeBlocks.card + (fs.lacking ip ps).card = fs.freeBlocks.card
  inUse : ∀ c, fs.InUse c → fs'.InUse c
  data : ∀ c, fs.InUse c → c ≠ ip.addrs 12 → fs'.block c = fs.block c

theorem Filled.refl {ps : Finset BPos} (h : ∀ p ∈ ps, ip.ref fs.block p ≠ 0) : fs.Filled ip ps fs ip := by
  refine ⟨fun _ _ => rfl, fun _ _ => rfl, h, fun _ _ => rfl, ?_, fun _ => id, fun _ _ _ => rfl⟩
  rw [lacking, filter_false_of_mem h]
  rfl

theorem Filled.trans {fs1 : Fs} {ip1 : Dinode} {ps qs : Finset BPos} (h : fs.Filled ip ps fs1 ip1)
    (h' : fs1.Filled ip1 qs fs' ip') (hdisj : Disjoint ps qs) : fs.Filled ip (ps ∪ qs) fs' ip' := by
  have hlack : fs1.lacking ip1 qs = fs.lacking ip qs := filter_congr fun p hp => by
    rw [h.outside p fun hp' => disjoint_left.mp hdisj hp' hp]
  refine ⟨fun p hp => ?_, fun p hp => ?_, fun p hp => ?_, fun p hp => ?_, ?_,
    fun c hc => h'.inUse c (h.inUse c hc), fun c hc hne => ?_⟩
  · have hstay := h.stays p hp
    exact (h'.stays p (by rw [hstay]; exact hp)).trans hstay
  · rw [notMem_union] at hp
    exact (h'.outside p hp.2).trans (h.outside p hp.1)
  · rcases mem_union.mp hp with hp | hp
    · rw [h'.stays p (h.inside p hp)]
      exact h.inside p hp
    · exact h'.inside p hp
  · have hsame := h'.fresh p (h.inUse _ hp)
    rw [hsame] at hp ⊢
    exact h.fresh p hp
  · have h1 := h.free
    have h2 := h'.free
    rw [hlack] at h2
    rw [lacking, filter_union, card_union_of_disjoint (disjoint_filter_filter hdisj)]
    unfold lacking at h1 h2
    omega
  · refine (h'.data c (h.inUse c hc) ?_).trans (h.data c hc hne)
    rintro rfl
    exact hne (h.fresh (.inl 12) hc)

/-- One place is filled. Besides the new block only the indirect block of the inode may have
changed. -/
theorem Took.filled {fs1 : Fs} {p : BPos} (hs : fs.sb.Sound) (ht : fs.Took b fs1)
    (h0 : ip.ref fs.block p = 0)
    (href : ip'.ref fs'.block = update (ip.ref fs.block) p b)
    (hfree : fs'.freeBlocks = fs1.freeBlocks) (hinUse : ∀ c, fs1.InUse c → fs'.InUse c)
    (hdata : ∀ c, fs.InUse c → c ≠ ip.addrs 12 → fs'.block c = fs1.block c) :
    fs.Filled ip {p} fs' ip' := by
  refine ⟨fun q hq => ?_, fun q hq => ?_, fun q hq => ?_, fun q hq => ?_, ?_,
    fun c hc => hinUse c (ht.inUse_mono hc), fun c hc hne => (hdata c hc hne).trans (ht.inUse hc)⟩
  · rw [href, update_of_ne]
    rintro rfl
    exact hq h0
  · rw [href, update_of_ne (by simpa using hq)]
  · rw [mem_singleton.mp hq, href, update_self]
    exact ht.ne_zero hs
  · rw [href] at hq ⊢
    by_cases hqp : q = p
    · rw [hqp, update_self] at hq
      have := hq.2.2
      rw [ht.free] at this
      cases this
    · rw [update_of_ne hqp]
  · rw [lacking, filter_true_of_mem (by simpa using h0), hfree]
    exact ht.freeBlocks

theorem Names.indirect (hs : fs.sb.Sound) (h : fs.Names din) (hip : din i = ip)
    (hb : fs.indirect ip = .ok (fs', ip')) :
    fs.Moves din i fs' ip' ∧ ip'.addrs 12 ≠ 0 ∧ ip' = { ip with addrs := ip'.addrs } ∧
      fs.Grows fs' ∧ fs.Filled ip {.inl 12} fs' ip' := by
  unfold Fs.indirect at hb
  split at hb
  · rename_i h0
    obtain ⟨⟨b, fs1⟩, hballoc, hb⟩ := Lib.bind_eq_ok.mp hb
    cases hb
    subst hip
    have ht := Marks.balloc hs h hballoc
    obtain ⟨hmoves, href⟩ := h.take hs ht (.inl 12) h0
      (ref_setRoot fs'.block (d := din i) h0 fun j => by rw [ht.zero, wordAt_zero])
    refine ⟨hmoves, ?_, rfl, ht.grows, ht.filled hs h0 href rfl (fun _ => id) fun _ _ _ => rfl⟩
    dsimp only
    rw [update_self]
    exact ht.ne_zero hs
  · rename_i h0
    cases hb
    exact ⟨.refl h hip, h0, rfl, fun _ _ => id, .refl fun p hp => mem_singleton.mp hp ▸ h0⟩

theorem Names.fill (hs : fs.sb.Sound) (h : fs.Names din) (hip : din i = ip) (hbn : bn < 140)
    (hb : fs.bmap ip bn = .ok (x, fs', ip')) :
    fs.Moves din i fs' ip' ∧ fs.Filled ip (bmapPlaces bn) fs' ip' ∧ ip'.blockAt fs'.block bn = x ∧
      ip' = { ip with addrs := ip'.addrs } ∧ fs.Grows fs' ∧
      (ip.blockAt fs.block bn ≠ 0 → fs' = fs ∧ ip' = ip) := by
  by_cases hold : ip.blockAt fs.block bn ≠ 0
  · rw [bmap_found hbn hold] at hb
    cases hb
    refine ⟨.refl h hip, .refl fun p hp => ?_, rfl, rfl, fun _ _ => id, fun _ => ⟨rfl, rfl⟩⟩
    rcases mem_bmapPlaces.mp hp with rfl | ⟨hge, rfl⟩
    · rw [ref_dataPos hbn]
      exact hold
    · exact root_of_blockAt hge hold
  unfold Fs.bmap at hb
  split at hb
  · rename_i hlt
    have hat : ip.blockAt fs.block bn = ip.addrs ⟨bn, by omega⟩ := by rw [Dinode.blockAt, dif_pos hlt]
    have h0 : ip.addrs ⟨bn, by omega⟩ = 0 := hat.symm.trans (not_not.mp hold)
    have hpos : dataPos bn = .inl ⟨bn, by omega⟩ := by rw [dataPos, dif_pos hlt]
    have hne : (⟨bn, by omega⟩ : Fin 13) ≠ 12 := by
      intro he
      have := congrArg Fin.val he
      dsimp only at this
      omega
    rw [if_pos h0] at hb
    obtain ⟨⟨b, fs1⟩, hballoc, hb⟩ := Lib.bind_eq_ok.mp hb
    cases hb
    subst hip
    have ht := Marks.balloc hs h hballoc
    obtain ⟨hmoves, href⟩ := h.take hs ht (.inl _) h0 (ref_setAddr fs'.block (d := din i) hne x)
    refine ⟨hmoves, ?_, ?_, rfl, ht.grows, fun hn => (hold hn).elim⟩
    · rw [bmapPlaces, if_pos hlt, hpos]
      exact ht.filled hs h0 href rfl (fun _ => id) fun _ _ _ => rfl
    · rw [← ref_dataPos hbn, href, hpos, update_self]
  · rename_i hge
    have hj : (Fin.ofNat 128 (bn - 12)).val = bn - 12 := Nat.mod_eq_of_lt (by omega)
    have hpos : dataPos bn = .inr (Fin.ofNat 128 (bn - 12)) := by rw [dataPos, dif_neg hge]
    rw [if_pos (by omega)] at hb
    obtain ⟨⟨fs1, ip1⟩, hroot, hb⟩ := Lib.bind_eq_ok.mp hb
    obtain ⟨hmoves1, h0, hkeeps, hgrows1, hfilled1⟩ := h.indirect hs hip hroot
    have hs1 : fs1.sb.Sound := by
      rw [hmoves1.kept.sb]
      exact hs
    -- the entry is empty as the block had no number
    have hempty : ip1.ref fs1.block (dataPos bn) = 0 := by
      rw [hfilled1.outside _ (by simpa using dataPos_ne_root bn), ref_dataPos hbn]
      exact not_not.mp hold
    have hword : wordAt (fs1.block (ip1.addrs 12)) (bn - 12) = 0 := by
      rw [wordAt_eq_blockAt h0 hge, ← ref_dataPos hbn]
      exact hempty
    dsimp only at hb
    rw [if_pos hword] at hb
    obtain ⟨⟨b, fs2⟩, hballoc, hb⟩ := Lib.bind_eq_ok.mp hb
    cases hb
    have ht := Marks.balloc hs1 hmoves1.names hballoc
    have hself : update din i ip' i = ip' := update_self ..
    have hrootUse : fs1.InUse (ip'.addrs 12) := by
      have := hmoves1.names.root_data (i := i) (by rw [hself]; exact h0)
      rwa [hself] at this
    obtain ⟨hmoves, hgrows, href⟩ := hmoves1.names.entry (i := i) hs1 ht (by rw [hself]; exact h0)
      (Fin.ofNat 128 (bn - 12)) (by rw [hself, hj]; exact hword)
    rw [hself, hj] at hmoves hgrows href
    refine ⟨hmoves1.trans hmoves, ?_, ?_, hkeeps, hgrows1.trans hmoves1.kept hgrows,
      fun hn => (hold hn).elim⟩
    · rw [bmapPlaces, if_neg hge, pair_comm, insert_eq]
      have hs2 : fs2.sb.Sound := by
        rw [ht.kept.sb]
        exact hs1
      have hrootUse2 := ht.inUse_mono hrootUse
      refine hfilled1.trans (ht.filled hs1 hempty (by rw [hpos]; exact href)
        (freeBlocks_setBlock hs2 hrootUse2.1 _) (fun c hc => hc.setBlock hs2 hrootUse2.1 _)
        fun c _ hc => update_of_ne hc ..) ?_
      rw [disjoint_singleton]
      exact (dataPos_ne_root bn).symm
    · rw [← ref_dataPos hbn, href, hpos, update_self]

end

end Fs
end Xv6
