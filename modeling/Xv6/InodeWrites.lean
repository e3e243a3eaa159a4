import Xv6.InodeBlocks

/-!
The loop of `writei`. A turn maps a block and overwrites a part of it. Over all turns the bytes
of the inode are the old ones with the source copied over them, the blocks that other inodes
name are as they were, and the loop takes a block from the bitmap for every place that it finds
empty.
-/

namespace Xv6

open Function Lib Finset
namespace Fs

structure Wrote (fs : Fs) (din : Nat → Dinode) (i : Nat) (ip : Dinode) (src : List UInt8) (off : Nat)
    (fs' : Fs) (ip' : Dinode) : Prop where
  bound : off + src.length ≤ 71680
  moves : fs.Moves din i fs' ip'
  keeps : ip' = { ip with addrs := ip'.addrs }
  grows : fs.Grows fs'
  stays : ∀ p, ip.ref fs.block p ≠ 0 → ip'.ref fs'.block p = ip.ref fs.block p
  filled : ∀ x, off ≤ x → x < off + src.length → ip'.blockAt fs'.block (x / 512) ≠ 0
  same : (∀ x, off ≤ x → x < off + src.length → ip.blockAt fs.block (x / 512) ≠ 0) → ip' = ip
  bytes : ∀ x < 71680, ip.blockAt fs.block (x / 512) ≠ 0 ∨ off ≤ x ∧ x < off + src.length →
    fs'.byteAt ip' x = splice (fs.byteAt ip) off src x
  others : ∀ k, k ≠ i → ∀ q, (din k).ref fs.block q ≠ 0 →
    fs'.block ((din k).ref fs.block q) = fs.block ((din k).ref fs.block q)

section
variable {fs fs' fs1 : Fs} {din : Nat → Dinode} {ip ip' ip1 : Dinode} {i bn off y : Nat}
  {src src' : List UInt8}

theorem Names.write (hs : fs.sb.Sound) (h : fs.Names din) (hip : din i = ip) (hbn : bn < 140)
    (h0 : ip.blockAt fs.block bn ≠ 0) (y : Nat → UInt8) :
    fs.Moves din i (fs.setBlock (ip.blockAt fs.block bn) y) ip ∧
      fs.Grows (fs.setBlock (ip.blockAt fs.block bn) y) ∧
      ip.ref (fs.setBlock (ip.blockAt fs.block bn) y).block = ip.ref fs.block := by
  subst hip
  have hx : Xv6.refMap fs.block din (i, dataPos bn) = (din i).blockAt fs.block bn := ref_dataPos hbn
  obtain ⟨hdata, hlt, -⟩ := h.fills.inUse (i := (i, dataPos bn)) (by rw [hx]; exact h0)
  rw [hx] at hdata hlt
  have hroot : ∀ k, (din k).addrs 12 ≠ 0 → (din k).addrs 12 ≠ (din i).blockAt fs.block bn := by
    intro k _ he
    have := h.fills.apart (i, dataPos bn) (k, .inl 12) (by rw [hx]; exact h0) (hx.trans he.symm)
    exact dataPos_ne_root bn (Prod.ext_iff.mp this).2
  have hmap := refMap_setBlock fs.block y hroot
  refine ⟨⟨?_, kept_setBlock fs hs hdata hlt _, fun j _ => ?_⟩,
    fun n hn hm => (marked_setBlock fs hs hdata hn y).trans hm, ?_⟩
  · rw [update_eq_self]
    unfold Names
    change Marks _ (Xv6.refMap (update fs.block _ _) din)
    rw [hmap]
    exact Marks.setBlock hs h hdata hlt y
  · funext q
    exact congrFun hmap (j, q)
  · funext q
    exact congrFun hmap (i, q)

theorem Wrote.blockAt (h : fs.Wrote din i ip src off fs' ip') (hbn : bn < 140)
    (h0 : ip.blockAt fs.block bn ≠ 0) : ip'.blockAt fs'.block bn = ip.blockAt fs.block bn := by
  rw [← ref_dataPos hbn] at h0 ⊢
  rw [← ref_dataPos hbn]
  exact h.stays _ h0

theorem Wrote.nil (h : fs.Names din) (hip : din i = ip) (hoff : off ≤ 71680) :
    fs.Wrote din i ip [] off fs ip := by
  refine ⟨hoff, .refl h hip, rfl, fun _ _ => id, fun _ _ => rfl, fun x h1 h2 => ?_, fun _ => rfl,
    fun x _ _ => ?_, fun _ _ _ _ => rfl⟩
  · rw [List.length_nil] at h2
    omega
  · rw [splice_nil]

theorem Wrote.trans (h : fs.Wrote din i ip src off fs1 ip1)
    (h' : fs1.Wrote (update din i ip1) i ip1 src' (off + src.length) fs' ip') :
    fs.Wrote din i ip (src ++ src') off fs' ip' := by
  have hbound := h'.bound
  have hlen : (src ++ src').length = src.length + src'.length := List.length_append
  refine ⟨by omega, h.moves.trans h'.moves, ?_, h.grows.trans h.moves.kept h'.grows, fun p hp => ?_,
    fun x h1 h2 => ?_, fun hall => ?_, fun x hx hor => ?_, fun k hk q hq => ?_⟩
  · rw [h'.keeps, h.keeps]
  · have hstay := h.stays p hp
    exact (h'.stays p (by rw [hstay]; exact hp)).trans hstay
  · by_cases hfirst : x < off + src.length
    · have hblock := h.filled x h1 hfirst
      rw [h'.blockAt (by omega) hblock]
      exact hblock
    · exact h'.filled x (by omega) (by omega)
  · have hfirst := h.same fun x h1 h2 => hall x h1 (by omega)
    refine (h'.same fun x h1 h2 => ?_).trans hfirst
    have hblock := hall x (by omega) (by omega)
    rw [h.blockAt (by omega) hblock]
    exact hblock
  · rw [splice_append]
    have hmapped : ip1.blockAt fs1.block (x / 512) ≠ 0 ∨
        off + src.length ≤ x ∧ x < off + src.length + src'.length := by
      rcases hor with h0 | hr
      · exact Or.inl (by rw [h.blockAt (by omega) h0]; exact h0)
      · by_cases hfirst : x < off + src.length
        · exact Or.inl (h.filled x hr.1 hfirst)
        · exact Or.inr (by omega)
    rw [h'.bytes x hx hmapped]
    exact splice_congr fun hn => h.bytes x hx (hor.imp_right fun hr => by omega)
  · have hsame := h.moves.apart k hk
    have hsecond := h'.others k hk q (by rw [update_of_ne hk, hsame]; exact hq)
    rw [update_of_ne hk, hsame] at hsecond
    exact hsecond.trans (h.others k hk q hq)

/-- What a turn leaves: the bytes are written, and the empty places of the block are filled. -/
theorem Names.turn (hs : fs.sb.Sound) (h : fs.Names din) (hip : din i = ip) (hne : src ≠ [])
    (hend : off + src.length ≤ 71680) (hlen : off % 512 + src.length ≤ 512)
    (hb : fs.bmap ip (off / 512) = .ok (y, fs1, ip1)) :
    let fs2 := fs1.setBlock y (splice (fs1.block y) (off % 512) src)
    fs.Wrote din i ip src off fs2 ip1 ∧ fs2.sb = fs.sb ∧ ip1.ref fs2.block = ip1.ref fs1.block ∧
      fs2.freeBlocks = fs1.freeBlocks := by
  have hpos := List.length_pos_iff.mpr hne
  have hbn : off / 512 < 140 := by omega
  obtain ⟨hmoves1, hfill, hat, hkeeps, hgrows, hold⟩ := h.fill hs hip hbn hb
  have hs1 : fs1.sb.Sound := by
    rw [hmoves1.kept.sb]
    exact hs
  have hself : update din i ip1 i = ip1 := update_self ..
  have hy : ip1.ref fs1.block (dataPos (off / 512)) = y := by rw [ref_dataPos hbn, hat]
  have hy0 : y ≠ 0 := by
    rw [← hy]
    exact hfill.inside _ (mem_bmapPlaces.mpr (Or.inl rfl))
  obtain ⟨hmoves2, hgrows2, href⟩ := hmoves1.names.write hs1 hself hbn (by rw [hat]; exact hy0)
    (splice (fs1.block y) (off % 512) src)
  rw [hat] at hmoves2 hgrows2 href
  have hdata : fs1.sb.nmeta ≤ y := by
    have := hmoves1.names.fills.inUse (i := (i, dataPos (off / 512)))
      (by rw [refMap, hself, hy]; exact hy0)
    rw [refMap, hself, hy] at this
    exact this.1
  -- a block that another place names is not touched
  have hkeep : ∀ k q, (din k).ref fs.block q ≠ 0 → (k, q) ≠ (i, .inl 12) → (k, q) ≠ (i, dataPos (off / 512)) →
      (fs1.setBlock y (splice (fs1.block y) (off % 512) src)).block ((din k).ref fs.block q) =
        fs.block ((din k).ref fs.block q) := by
    intro k q hq hroot hplace
    have hstill : refMap fs1.block (update din i ip1) (k, q) = (din k).ref fs.block q := by
      rw [refMap]
      by_cases hk : k = i
      · subst hk
        rw [hself, hip]
        exact hfill.stays q (by rw [← hip]; exact hq)
      · rw [update_of_ne hk, hmoves1.apart k hk]
    have hne1 : (din k).ref fs.block q ≠ y := by
      have := hmoves1.names.fills.ne (i := (k, q)) (j := (i, dataPos (off / 512)))
        (by rw [hstill]; exact hq) hplace
      rw [hstill, refMap, hself, hy] at this
      exact this.symm
    have hne2 : (din k).ref fs.block q ≠ ip.addrs 12 := by
      have := h.fills.ne (i := (k, q)) (j := (i, .inl 12)) hq hroot
      rw [← hip]
      exact this.symm
    exact (update_of_ne hne1 ..).trans (hfill.data _ (h.fills.inUse (i := (k, q)) hq) hne2)
  refine ⟨⟨hend, hmoves1.trans hmoves2, hkeeps, hgrows.trans hmoves1.kept hgrows2, fun p hp => ?_,
    fun x h1 h2 => ?_, fun hall => ?_, fun x hx hor => ?_, fun k hk q hq => ?_⟩, hmoves1.kept.sb, href,
    freeBlocks_setBlock hs1 hdata _⟩
  · rw [href]
    exact hfill.stays p hp
  · rw [← ref_dataPos (by omega), href, show x / 512 = off / 512 by omega, hy]
    exact hy0
  · exact (hold (hall off le_rfl (by omega))).2
  · have hx512 : x / 512 < 140 := by omega
    rw [byteAt, ← ref_dataPos hx512, href]
    by_cases hblock : x / 512 = off / 512
    · rw [hblock, hy, show (fs1.setBlock y _).block y = _ from update_self ..]
      by_cases hin : off ≤ x ∧ x < off + src.length
      · rw [splice, splice, if_pos (by omega), if_pos hin, show x % 512 - off % 512 = x - off by omega]
      · obtain ⟨rfl, rfl⟩ := hold (by rw [← hblock]; exact hor.resolve_right hin)
        rw [splice, splice, if_neg (by omega), if_neg hin, byteAt, hblock, hat]
    · have hin : ¬ (off ≤ x ∧ x < off + src.length) := by omega
      have hold0 : ip.ref fs.block (dataPos (x / 512)) ≠ 0 := by
        rw [ref_dataPos hx512]
        exact hor.resolve_right hin
      have hkept := hkeep i (dataPos (x / 512)) (by rw [hip]; exact hold0)
        (fun he => dataPos_ne_root _ (Prod.ext_iff.mp he).2)
        fun he => hblock (dataPos_inj hx512 hbn (Prod.ext_iff.mp he).2)
      rw [hip] at hkept
      rw [hfill.stays _ hold0, hkept, splice, if_neg hin, byteAt, ref_dataPos hx512]
  · exact hkeep k q hq (fun he => hk (Prod.ext_iff.mp he).1) fun he => hk (Prod.ext_iff.mp he).1

theorem writeLoop_succ {k : Nat} (hne : src ≠ []) : Fs.writeLoop (k + 1) fs ip src off =
    fs.bmap ip (off / 512) >>= fun r => Fs.writeLoop k
      (r.2.1.setBlock r.1 (splice (r.2.1.block r.1) (off % 512)
        (src.take (min src.length (512 - off % 512))))) r.2.2
      (src.drop (min src.length (512 - off % 512))) (off + min src.length (512 - off % 512)) := by
  rw [Fs.writeLoop, if_neg (by simpa using hne)]

theorem Names.wrote {k off' : Nat} (hs : fs.sb.Sound) (h : fs.Names din) (hip : din i = ip)
    (hk : src.length ≤ k) (hend : off + src.length ≤ 71680)
    (hw : Fs.writeLoop k fs ip src off = .ok (off', fs', ip')) :
    off' = off + src.length ∧ fs.Wrote din i ip src off fs' ip' := by
  induction k generalizing fs din ip src off with
  | zero =>
    obtain rfl := List.length_eq_zero_iff.mp (Nat.le_zero.mp hk)
    cases hw
    exact ⟨rfl, .nil h hip hend⟩
  | succ k ih =>
    by_cases hne : src = []
    · subst hne
      cases hw
      exact ⟨rfl, .nil h hip hend⟩
    rw [writeLoop_succ hne] at hw
    obtain ⟨⟨y, fs1, ip1⟩, hb, hw⟩ := bind_eq_ok.mp hw
    dsimp only at hw
    have hpos := List.length_pos_iff.mpr hne
    generalize hm : min src.length (512 - off % 512) = m at hw
    have htake : (src.take m).length = m := by
      rw [List.length_take]
      omega
    have hdrop : (src.drop m).length = src.length - m := List.length_drop
    obtain ⟨hturn, hsb, -, -⟩ := h.turn hs hip
      (show src.take m ≠ [] from List.ne_nil_of_length_pos (by omega))
      (show off + _ ≤ _ by omega) (by omega) hb
    obtain ⟨hoff, hrest⟩ := ih (hsb ▸ hs) hturn.moves.names (update_self ..)
      (by omega) (by omega) hw
    refine ⟨by omega, ?_⟩
    have hall : fs.Wrote din i ip (src.take m ++ src.drop m) off fs' ip' :=
      hturn.trans (by rw [htake]; exact hrest)
    rwa [List.take_append_drop] at hall

theorem Names.writeLoop {k off off' : Nat} {src : List UInt8} (hs : fs.sb.Sound) (h : fs.Names din)
    (hip : din i = ip) (hk : src.length ≤ k) (hend : off + src.length ≤ 71680) (hsize : ip.size ≤ 71680)
    (hwhole : ∀ x < max ip.size off, ip.blockAt fs.block (x / 512) ≠ 0)
    (hw : Fs.writeLoop k fs ip src off = .ok (off', fs', ip')) :
    fs.Moves din i fs' ip' ∧ off' = off + src.length ∧ ip' = { ip with addrs := ip'.addrs } ∧
      fs.Grows fs' ∧ (∀ x < max ip.size off', ip'.blockAt fs'.block (x / 512) ≠ 0) ∧
      (off' ≤ ip.size → ip' = ip) := by
  obtain ⟨hoff, hwrote⟩ := h.wrote hs hip hk hend hw
  refine ⟨hwrote.moves, hoff, hwrote.keeps, hwrote.grows, fun x hx => ?_, fun hle =>
    hwrote.same fun x _ hx => hwhole x (by omega)⟩
  by_cases hold : x < max ip.size off
  · rw [hwrote.blockAt (by omega) (hwhole x hold)]
    exact hwhole x hold
  · exact hwrote.filled x (by omega) (by omega)

/-- The places that a write of `n` bytes from `off` on looks at. -/
def touched (off n : Nat) : Finset BPos := (Finset.range n).biUnion fun j => bmapPlaces ((off + j) / 512)

theorem balloc_of_free (h : 0 < fs.freeBlocks.card) : ∃ r, fs.balloc = .ok r := by
  obtain ⟨b, hb⟩ := card_pos.mp h
  obtain ⟨hlt, hfree⟩ := mem_filter.mp hb
  exact balloc_ok (mem_range.mp hlt) hfree

theorem Names.bmap_total (hs : fs.sb.Sound) (h : fs.Names din) (hbn : bn < 140)
    (hfree : (fs.lacking ip (bmapPlaces bn)).card ≤ fs.freeBlocks.card) : ∃ r, fs.bmap ip bn = .ok r := by
  by_cases hold : ip.blockAt fs.block bn ≠ 0
  · exact ⟨_, bmap_found hbn hold⟩
  have hempty : dataPos bn ∈ fs.lacking ip (bmapPlaces bn) :=
    mem_filter.mpr ⟨mem_bmapPlaces.mpr (Or.inl rfl), by rw [ref_dataPos hbn]; exact not_not.mp hold⟩
  have hpos := card_pos.mpr ⟨_, hempty⟩
  obtain ⟨⟨b, fs1⟩, hballoc⟩ := balloc_of_free (lt_of_lt_of_le hpos hfree)
  unfold Fs.bmap
  split
  · split
    · rw [hballoc]
      exact ⟨_, rfl⟩
    · exact ⟨_, rfl⟩
  rename_i hge
  rw [if_pos (by omega), Fs.indirect]
  by_cases h0 : ip.addrs 12 = 0
  · -- both the indirect block and the entry are missing
    have hroot : (.inl 12 : BPos) ∈ fs.lacking ip (bmapPlaces bn) :=
      mem_filter.mpr ⟨mem_bmapPlaces.mpr (Or.inr ⟨hge, rfl⟩), h0⟩
    have htwo := one_lt_card.mpr ⟨_, hempty, _, hroot, dataPos_ne_root bn⟩
    have hcount := (Marks.balloc hs h hballoc).freeBlocks
    obtain ⟨⟨c, fs2⟩, hballoc2⟩ := balloc_of_free (show 0 < fs1.freeBlocks.card by omega)
    rw [if_pos h0, hballoc]
    dsimp only [bind, Except.bind, pure, Except.pure]
    split_ifs
    · rw [hballoc2]
      exact ⟨_, rfl⟩
    · exact ⟨_, rfl⟩
  · rw [if_neg h0]
    dsimp only [bind, Except.bind, pure, Except.pure]
    split_ifs
    · rw [hballoc]
      exact ⟨_, rfl⟩
    · exact ⟨_, rfl⟩

/-- The places that have been filled are not among those that are empty now. -/
theorem Filled.lacking_le {ps ts us : Finset BPos} (h : fs.Filled ip ps fs1 ip1) (hps : ps ⊆ ts)
    (hus : us ⊆ ts) (hfree : (fs.lacking ip ts).card ≤ fs.freeBlocks.card) :
    (fs1.lacking ip1 us).card ≤ fs1.freeBlocks.card := by
  have hnot : ∀ p ∈ fs1.lacking ip1 us, p ∉ ps := fun p hp hin =>
    h.inside p hin (mem_filter.mp hp).2
  have hdisj : Disjoint (fs1.lacking ip1 us) (fs.lacking ip ps) :=
    disjoint_left.mpr fun p hp hin => hnot p hp (mem_filter.mp hin).1
  have hsub : fs1.lacking ip1 us ∪ fs.lacking ip ps ⊆ fs.lacking ip ts := by
    refine union_subset (fun p hp => ?_) (filter_subset_filter _ hps)
    obtain ⟨hin, h0⟩ := mem_filter.mp hp
    exact mem_filter.mpr ⟨hus hin, by rw [← h.outside p (hnot p hp)]; exact h0⟩
  have hcard := card_le_card hsub
  rw [card_union_of_disjoint hdisj] at hcard
  have := h.free
  omega

/-- The loop returns when there is a free block for each empty place that it comes to. -/
theorem Names.writeLoop_total {k : Nat} (hs : fs.sb.Sound) (h : fs.Names din) (hip : din i = ip)
    (hk : src.length ≤ k) (hend : off + src.length ≤ 71680)
    (hfree : (fs.lacking ip (touched off src.length)).card ≤ fs.freeBlocks.card) :
    ∃ r, Fs.writeLoop k fs ip src off = .ok r := by
  induction k generalizing fs din ip src off with
  | zero => exact ⟨_, rfl⟩
  | succ k ih =>
    by_cases hne : src = []
    · subst hne
      exact ⟨_, rfl⟩
    have hpos := List.length_pos_iff.mpr hne
    have hfirst : bmapPlaces (off / 512) ⊆ touched off src.length :=
      subset_biUnion_of_mem (fun j => bmapPlaces ((off + j) / 512)) (mem_range.mpr hpos)
    have hless : (fs.lacking ip (bmapPlaces (off / 512))).card ≤ fs.freeBlocks.card :=
      (card_le_card (filter_subset_filter _ hfirst)).trans hfree
    obtain ⟨⟨y, fs1, ip1⟩, hb⟩ := h.bmap_total hs (by omega) hless
    rw [writeLoop_succ hne, hb]
    change ∃ r, Fs.writeLoop k (fs1.setBlock y (splice (fs1.block y) (off % 512)
      (src.take (min src.length (512 - off % 512))))) ip1 _ _ = .ok r
    generalize hm : min src.length (512 - off % 512) = m
    have htake : (src.take m).length = m := by
      rw [List.length_take]
      omega
    have hdrop : (src.drop m).length = src.length - m := List.length_drop
    obtain ⟨hturn, hsb, href, hcount⟩ := h.turn hs hip
      (show src.take m ≠ [] from List.ne_nil_of_length_pos (by omega))
      (show off + _ ≤ _ by omega) (by omega) hb
    obtain ⟨-, hfill, -⟩ := h.fill hs hip (by omega) hb
    refine ih (hsb ▸ hs) hturn.moves.names (update_self ..) (by omega) (by omega) ?_
    rw [hcount, hdrop, lacking, href]
    refine hfill.lacking_le hfirst (fun p hp => ?_) hfree
    obtain ⟨j, hj, hp⟩ := mem_biUnion.mp hp
    rw [mem_range] at hj
    refine mem_biUnion.mpr ⟨m + j, mem_range.mpr (by omega), ?_⟩
    rwa [← Nat.add_assoc]

end

end Fs
end Xv6
