import Xv6.Mkfs
import Xv6.BlockRefs
import Xv6.Lib.Outcome

/-!
How `mkfs` lays files out. The blocks from the end of the metadata to the first free one are
named by the inodes, each from one place; a file has a block for each 512 bytes begun, and
its bytes stand there in order. `iappend` keeps this and takes exactly the blocks that the
longer file needs.
-/

namespace Xv6

open Function Lib
namespace Mkfs

/-- Blocks of a file of `n` bytes, with the indirect block. -/
def blocksFor (n : Nat) : Nat := (n + 511) / 512 + if 6144 < n then 1 else 0

structure Stores (img : Blocks) (d : Dinode) (src : List UInt8) : Prop where
  short : src.length ≤ 71680
  block : ∀ k < 140, (d.blockAt img k ≠ 0 ↔ 512 * k < src.length)
  root : d.addrs 12 ≠ 0 ↔ 6144 < src.length
  data : ∀ x (h : x < src.length), img (d.blockAt img (x / 512)) (x % 512) = src[x]

structure Laid (img : Blocks) (fb : Nat) (din : Nat → Dinode) (c : Nat → List UInt8) : Prop where
  base : 59 ≤ fb
  fills : Lib.Fills (refMap img din) fun n => 59 ≤ n ∧ n < fb
  zero : ∀ b, fb ≤ b → img b = fun _ => 0
  stores : ∀ i, Stores img (din i) (c i)

/-- What `blockFor` finds for block `k` of inode `i`. -/
structure Found (img : Blocks) (fb : Nat) (din : Nat → Dinode) (i k x : Nat) (img' : Blocks)
    (fb' : Nat) (d' : Dinode) : Prop where
  fills : Lib.Fills (refMap img' (update din i d')) fun n => 59 ≤ n ∧ n < fb'
  zero : ∀ b, fb' ≤ b → img' b = fun _ => 0
  block : d'.blockAt img' k = x
  pos : x ≠ 0
  same : (din i).blockAt img k ≠ 0 → x = (din i).blockAt img k
  others : ∀ l < 140, l ≠ k → d'.blockAt img' l = (din i).blockAt img l
  root : d'.addrs 12 ≠ 0 ↔ (din i).addrs 12 ≠ 0 ∨ 12 ≤ k
  frame : ∀ b, (d'.addrs 12 ≠ 0 → b ≠ d'.addrs 12) → img' b = img b
  grows : fb' = fb + (if (din i).blockAt img k = 0 then 1 else 0) +
    if 12 ≤ k ∧ (din i).addrs 12 = 0 then 1 else 0
  keeps : d' = { din i with addrs := d'.addrs }

section
variable {img img' : Blocks} {fb fb' : Nat} {din : Nat → Dinode} {c : Nat → List UInt8}
  {d d' : Dinode} {i k x : Nat}

theorem Laid.root_ne (h : Lib.Fills (refMap img din) fun n => 59 ≤ n ∧ n < fb) {j : Nat}
    (hi : (din i).addrs 12 ≠ 0) (hij : j ≠ i) : (din j).addrs 12 ≠ (din i).addrs 12 :=
  h.ne (i := (i, (.inl 12 : BPos))) (j := (j, (.inl 12 : BPos))) hi (by simpa using Ne.symm hij)

theorem assign_next {r : Nat × BPos → Nat} {p : Nat × BPos} (hbase : 59 ≤ fb)
    (h : Lib.Fills r fun n => 59 ≤ n ∧ n < fb) (hp : r p = 0) :
    Lib.Fills (update r p fb) fun n => 59 ≤ n ∧ n < fb + 1 :=
  h.assign hp (by omega) (by omega) fun n _ => by omega

theorem blockFor_found (h : Laid img fb din c) (hk : k < 140) (hfb : fb + 2 ≤ 0x100000000)
    (hb : blockFor img fb (din i) k = (x, img', fb', d')) : Found img fb din i k x img' fb' d' := by
  have hbase := h.base
  have hfills := h.fills
  unfold blockFor at hb
  split at hb
  · rename_i hlt
    have hat : (din i).blockAt img k = (din i).addrs ⟨k, by omega⟩ := by
      rw [Dinode.blockAt, dif_pos hlt]
    have hpos : dataPos k = .inl ⟨k, by omega⟩ := by rw [dataPos, dif_pos hlt]
    have hne : (⟨k, by omega⟩ : Fin 13) ≠ 12 := by
      intro he
      have := congrArg Fin.val he
      dsimp only at this
      omega
    split at hb
    · rename_i h0
      cases hb
      have href := ref_setAddr img (d := din i) hne fb
      rw [← hpos] at href
      obtain ⟨hself, hothers⟩ := blockAt_of_ref img hk href fun l hl _ => ref_dataPos hl
      have hroot : update (din i).addrs ⟨k, by omega⟩ fb 12 = (din i).addrs 12 :=
        update_of_ne (Ne.symm hne) ..
      refine ⟨?_, fun b hb => h.zero b (by omega), hself, by omega, fun hn => (hn (hat.trans h0)).elim,
        hothers, ?_, fun _ _ => rfl, ?_, rfl⟩
      · rw [refMap_setInode din _ href]
        refine assign_next hbase hfills ?_
        rw [refMap, ref_dataPos hk, hat, h0]
      · dsimp only
        rw [hroot]
        exact ⟨Or.inl, fun ho => ho.resolve_right (by omega)⟩
      · rw [hat, if_pos h0, if_neg (by omega)]
    · rename_i h0
      cases hb
      refine ⟨?_, h.zero, hat, h0, fun _ => hat.symm, fun _ _ _ => rfl, ?_, fun _ _ => rfl, ?_, rfl⟩
      · rw [update_eq_self]
        exact hfills
      · exact ⟨Or.inl, fun ho => ho.resolve_right (by omega)⟩
      · rw [hat, if_neg h0, if_neg (by omega), Nat.add_zero]
  · rename_i hge
    have hj : (Fin.ofNat 128 (k - 12)).val = k - 12 := Nat.mod_eq_of_lt (by omega)
    have hpos : dataPos k = .inr (Fin.ofNat 128 (k - 12)) := by rw [dataPos, dif_neg hge]
    by_cases h0 : (din i).addrs 12 = 0
    · -- the indirect block is new as well, and names no block yet
      have hz : ∀ j, wordAt (img fb) j = 0 := fun j => by rw [h.zero fb le_rfl, wordAt_zero]
      simp only [if_pos h0, update_self, hz, if_true] at hb
      cases hb
      have href1 := ref_setRoot img (v := fb) h0 hz
      have hmap1 := refMap_setInode din (i := i) _ href1
      have hfills1 := assign_next (p := (i, .inl 12)) hbase hfills h0
      rw [← hmap1] at hfills1
      have hroot : (update din i
          { din i with addrs := update (din i).addrs 12 fb } i).addrs 12 = fb := by simp
      have hroot0 : (update din i
          { din i with addrs := update (din i).addrs 12 fb } i).addrs 12 ≠ 0 := by
        rw [hroot]
        omega
      have href := ref_putWord img (v := fb + 1) hroot0 (Fin.ofNat 128 (k - 12)) (by omega)
      have hmap := refMap_putWord img (v := fb + 1) hroot0 (Fin.ofNat 128 (k - 12)) (by omega)
        fun l hl => Laid.root_ne hfills1 hroot0 hl
      rw [hroot, hj, ← hpos] at href hmap
      rw [update_self] at href
      obtain ⟨hself, hothers⟩ := blockAt_of_ref img (d := din i) hk href fun l hl _ => by
        rw [href1, update_of_ne (dataPos_ne_root l), ref_dataPos hl]
      have hat : (din i).blockAt img k = 0 := by rw [Dinode.blockAt, dif_neg hge, if_pos h0]
      refine ⟨?_, fun b hb => ?_, hself, by omega, fun hn => (hn hat).elim, hothers, ?_, fun b hb => ?_, ?_,
        rfl⟩
      · rw [hmap]
        refine assign_next (by omega) hfills1 ?_
        rw [hmap1, update_of_ne (by simpa using dataPos_ne_root k), refMap, ref_dataPos hk, hat]
      · rw [update_of_ne (by omega)]
        exact h.zero b (by omega)
      · refine iff_of_true ?_ (Or.inr (by omega))
        dsimp only
        rw [update_self]
        omega
      · dsimp only at hb
        rw [update_self] at hb
        exact update_of_ne (hb (by omega)) ..
      · rw [if_pos hat, if_pos ⟨by omega, h0⟩]
    · simp only [if_neg h0] at hb
      rw [wordAt_eq_blockAt h0 hge] at hb
      split at hb
      · rename_i hw
        cases hb
        have href := ref_putWord img (v := fb) h0 (Fin.ofNat 128 (k - 12)) (by omega)
        rw [hj, ← hpos] at href
        obtain ⟨hself, hothers⟩ := blockAt_of_ref img hk href fun l hl _ => ref_dataPos hl
        refine ⟨?_, fun b hb => ?_, hself, by omega, fun hn => (hn hw).elim, hothers, ?_, fun b hb => ?_,
          ?_, rfl⟩
        · rw [update_eq_self]
          have hmap := refMap_putWord img (v := fb) h0 (Fin.ofNat 128 (k - 12)) (by omega)
            fun l hl => Laid.root_ne hfills h0 hl
          rw [hj, ← hpos] at hmap
          rw [hmap]
          refine assign_next hbase hfills ?_
          rw [refMap, ref_dataPos hk, hw]
        · have hroot := (hfills.inUse (i := (i, (.inl 12 : BPos))) h0).2
          change (din i).addrs 12 < fb at hroot
          rw [update_of_ne (by omega)]
          exact h.zero b (by omega)
        · exact ⟨Or.inl, fun _ => h0⟩
        · exact update_of_ne (hb h0) ..
        · rw [if_pos hw, if_neg (by simp [h0])]
      · rename_i hw
        cases hb
        refine ⟨?_, h.zero, rfl, hw, fun _ => rfl, fun _ _ _ => rfl, ⟨Or.inl, fun _ => h0⟩,
          fun _ _ => rfl, ?_, rfl⟩
        · rw [update_eq_self]
          exact hfills
        · rw [if_neg hw, if_neg (by simp [h0]), Nat.add_zero]

theorem Stores.congr {cs : List UInt8} (h : Stores img d cs) (haddrs : d'.addrs 12 = d.addrs 12)
    (hat : ∀ l < 140, d'.blockAt img' l = d.blockAt img l)
    (hdata : ∀ l < 140, d.blockAt img l ≠ 0 → img' (d.blockAt img l) = img (d.blockAt img l)) :
    Stores img' d' cs := by
  refine ⟨h.short, fun k hk => by rw [hat k hk]; exact h.block k hk, by rw [haddrs]; exact h.root,
    fun x hx => ?_⟩
  have hshort := h.short
  have hk : x / 512 < 140 := by omega
  rw [hat _ hk, hdata _ hk ((h.block _ hk).mpr (by omega))]
  exact h.data x hx

theorem Found.write {q : List UInt8} (h : Laid img fb din c) (hf : Found img fb din i k x img' fb' d')
    (hk : k = (c i).length / 512) (hlt : k < 140) (hq : 0 < q.length)
    (hroom : (c i).length + q.length ≤ (k + 1) * 512) :
    Laid (update img' x (splice (img' x) ((c i).length - k * 512) q)) fb'
      (update din i d') (update c i (c i ++ q)) := by
  have hbase := h.base
  have hgrow := hf.grows
  have hx : refMap img' (update din i d') (i, dataPos k) = x := by
    rw [refMap, update_self, ref_dataPos hlt, hf.block]
  have hrange := hf.fills.inUse (i := (i, dataPos k)) (by rw [hx]; exact hf.pos)
  rw [hx] at hrange
  -- nothing else names the block
  have hnot : ∀ r, r ≠ (i, dataPos k) → refMap img' (update din i d') r ≠ x := by
    intro r hr he
    exact hr (hf.fills.apart (i, dataPos k) r (by rw [hx]; exact hf.pos) (hx.trans he.symm)).symm
  have hroot : ∀ j, (update din i d' j).addrs 12 ≠ 0 →
      (update din i d' j).addrs 12 ≠ x := fun j _ =>
    hnot (j, .inl 12) (by simpa using fun _ => Ne.symm (dataPos_ne_root k))
  have hmap := refMap_setBlock img' (b := x)
    (splice (img' x) ((c i).length - k * 512) q) hroot
  have hat : ∀ j l, l < 140 → (update din i d' j).blockAt
      (update img' x (splice (img' x) ((c i).length - k * 512) q)) l =
      (update din i d' j).blockAt img' l := by
    intro j l hl
    rw [← ref_dataPos hl, ← ref_dataPos hl]
    exact congrFun hmap (j, dataPos l)
  refine ⟨by omega, by rw [hmap]; exact hf.fills, fun b hb => ?_, fun j => ?_⟩
  · rw [update_of_ne (by omega)]
    exact hf.zero b hb
  have hframe : ∀ b, b ≠ x → b ≠ d'.addrs 12 → update img' x
      (splice (img' x) ((c i).length - k * 512) q) b = img b := by
    intro b hbx hbr
    rw [update_of_ne hbx]
    exact hf.frame b fun _ => hbr
  -- the blocks of data that were there are not the indirect block
  have hdata : ∀ l < 140, ∀ {b}, (update din i d' j).blockAt img' l = b → b ≠ 0 →
      b ≠ d'.addrs 12 := by
    intro l hl b hb hb0 he
    rw [← ref_dataPos hl] at hb
    have := hf.fills.apart (j, dataPos l) (i, .inl 12) (by rw [refMap, hb]; exact hb0)
      (by rw [refMap, refMap, hb, update_self]; exact he)
    exact dataPos_ne_root l (Prod.mk.inj this).2
  have hold := h.stores j
  by_cases hj : j = i
  · subst hj
    rw [update_self] at hdata ⊢
    rw [update_self]
    have hat' := hat j
    rw [update_self] at hat'
    refine ⟨by rw [List.length_append]; omega, fun l hl => ?_, ?_, fun y hy => ?_⟩
    · rw [hat' l hl, List.length_append]
      by_cases hlk : l = k
      · rw [hlk, hf.block]
        exact iff_of_true hf.pos (by omega)
      · rw [hf.others l hl hlk, hold.block l hl]
        omega
    · rw [hf.root, hold.root, List.length_append]
      omega
    rw [List.length_append] at hy
    have hl : y / 512 < 140 := by omega
    rw [hat' _ hl]
    by_cases hyk : y / 512 = k
    · rw [hyk, hf.block, update_self, splice]
      by_cases hyc : y < (c j).length
      · rw [if_neg (by omega), List.getElem_append_left hyc]
        have hsame := hf.same ((hold.block k hlt).mpr (by omega))
        rw [hf.frame x fun _ => hdata k hlt hf.block hf.pos, hsame, ← hold.data y hyc, hyk]
      · rw [if_pos ⟨by omega, by omega⟩, List.getElem_append_right (by omega),
          List.getD_eq_getElem?_getD, List.getElem?_eq_getElem (by omega), Option.getD_some]
        congr 1
        omega
    · have hyc : y < (c j).length := by omega
      have hne := (hold.block _ hl).mpr (by omega)
      rw [hf.others _ hl hyk, List.getElem_append_left hyc, hframe, hold.data y hyc]
      · rw [← hf.others _ hl hyk, ← ref_dataPos hl]
        have := hnot (j, dataPos (y / 512)) fun he => hyk (dataPos_inj hl hlt (Prod.mk.inj he).2)
        rwa [refMap, update_self] at this
      · exact hdata _ hl (hf.others _ hl hyk) hne
  · have hd : update din i d' j = din j := update_of_ne hj ..
    have hfar : (din j).addrs 12 ≠ 0 → img' ((din j).addrs 12) = img ((din j).addrs 12) := by
      intro h0
      refine hf.frame _ fun _ he => hj ?_
      have := hf.fills.apart (j, .inl 12) (i, .inl 12) (by rw [refMap, hd]; exact h0)
        (by rw [refMap, refMap, hd, update_self]; exact he)
      exact (Prod.mk.inj this).1
    have hblock : ∀ l < 140, (din j).blockAt img' l = (din j).blockAt img l := by
      intro l hl
      rw [← ref_dataPos hl, ← ref_dataPos hl, ref_congr hfar]
    rw [hd] at hdata ⊢
    rw [update_of_ne hj]
    refine hold.congr rfl (fun l hl => ?_) fun l hl hl0 => ?_
    · have := hat j l hl
      rw [hd] at this
      rw [this, hblock l hl]
    · refine hframe _ ?_ (hdata l hl (hblock l hl) hl0)
      have := hnot (j, dataPos l) (by simp [hj])
      rwa [refMap, hd, ref_dataPos hl, hblock l hl] at this

theorem blocksFor_mono {m n : Nat} (h : m ≤ n) : blocksFor m ≤ blocksFor n := by
  unfold blocksFor
  have := Nat.div_le_div_right (c := 512) (Nat.add_le_add_right h 511)
  split <;> split <;> omega

/-- A turn of the loop takes the blocks that the longer file has and the shorter has not. -/
theorem Found.taken {n : Nat} (h : Laid img fb din c) (hf : Found img fb din i k x img' fb' d')
    (hk : k = (c i).length / 512) (hlt : k < 140) (hn : 0 < n)
    (hroom : (c i).length + n ≤ (k + 1) * 512) :
    fb' + blocksFor (c i).length = fb + blocksFor ((c i).length + n) := by
  have hblock := (h.stores i).block k hlt
  have hroot := (h.stores i).root
  have h1 : (din i).blockAt img k = 0 ↔ (c i).length ≤ 512 * k := by
    rw [← not_iff_not, ← ne_eq, hblock]
    omega
  have h2 : (din i).addrs 12 = 0 ↔ (c i).length ≤ 6144 := by
    rw [← not_iff_not, ← ne_eq, hroot]
    omega
  rw [hf.grows, if_congr h1 rfl rfl, if_congr (and_congr_right fun _ => h2) rfl rfl]
  unfold blocksFor
  split <;> split <;> split <;> split <;> omega

theorem appendLoop_spec {n : Nat} {p : List UInt8} (h : Laid img fb din c) (hp : p.length ≤ n)
    (hlen : (c i).length + p.length ≤ 71680)
    (hfb : fb + blocksFor ((c i).length + p.length) ≤ 0x10000 + blocksFor (c i).length) :
    ∃ img' fb' d', appendLoop n img fb (din i) p (c i).length =
        some (img', fb', d', (c i).length + p.length) ∧
      fb' + blocksFor (c i).length = fb + blocksFor ((c i).length + p.length) ∧
      Laid img' fb' (update din i d') (update c i (c i ++ p)) ∧
      d' = { din i with addrs := d'.addrs } ∧ ∀ b < 59, img' b = img b := by
  induction n generalizing img fb din c p with
  | zero =>
    obtain rfl : p = [] := List.length_eq_zero_iff.mp (by omega)
    refine ⟨img, fb, din i, rfl, rfl, ?_, rfl, fun _ _ => rfl⟩
    rw [List.append_nil, update_eq_self, update_eq_self]
    exact h
  | succ n ih =>
    rw [appendLoop]
    by_cases hnil : p = []
    · subst hnil
      refine ⟨img, fb, din i, rfl, rfl, ?_, rfl, fun _ _ => rfl⟩
      rw [List.append_nil, update_eq_self, update_eq_self]
      exact h
    have hpos : 0 < p.length := List.length_pos_iff.mpr hnil
    have hk : (c i).length / 512 < 140 := by omega
    rw [if_neg (by simpa using hnil)]
    dsimp only
    rw [if_neg (by omega)]
    obtain ⟨⟨x, img1, fb1, d1⟩, hb⟩ :
        ∃ r, blockFor img fb (din i) ((c i).length / 512) = r := ⟨_, rfl⟩
    rw [hb]
    dsimp only
    generalize hn1 : min p.length (((c i).length / 512 + 1) * 512 - (c i).length) = n1
    have hq : (p.take n1).length = n1 := by rw [List.length_take]; omega
    have hmono := blocksFor_mono (show (c i).length ≤ (c i).length + p.length by omega)
    have hf := blockFor_found h hk (by omega) hb
    have hlaid := hf.write (q := p.take n1) h rfl hk (by omega) (by omega)
    have htaken := hf.taken (n := n1) h rfl hk (by omega) (by omega)
    have hlen1 : (update c i (c i ++ p.take n1) i).length = (c i).length + n1 := by
      rw [update_self, List.length_append, hq]
    obtain ⟨img', fb', d', hloop, hcount, hlaid', hkeep, hmeta⟩ := ih (p := p.drop n1) hlaid
      (by rw [List.length_drop]; omega) (by rw [hlen1, List.length_drop]; omega) (by
        rw [hlen1, List.length_drop, show (c i).length + n1 + (p.length - n1) =
          (c i).length + p.length by omega]
        omega)
    rw [hlen1, List.length_drop, show (c i).length + n1 + (p.length - n1) =
      (c i).length + p.length by omega] at hloop hcount
    rw [update_self] at hloop
    refine ⟨img', fb', d', hloop, by omega, ?_, ?_, fun b hb => ?_⟩
    · rw [update_idem, update_idem, update_self, List.append_assoc,
        List.take_append_drop] at hlaid'
      exact hlaid'
    · rw [update_self, hf.keeps] at hkeep
      exact hkeep
    · have hx := hf.fills.inUse (i := (i, dataPos ((c i).length / 512)))
      rw [refMap, update_self, ref_dataPos hk, hf.block] at hx
      have hx := hx hf.pos
      rw [hmeta b hb, update_of_ne (by omega)]
      refine hf.frame b fun h0 => ?_
      have hroot := hf.fills.inUse (i := (i, (.inl 12 : BPos)))
      rw [refMap, update_self] at hroot
      have hroot : 59 ≤ d1.addrs 12 := (hroot h0).1
      omega

end

end Mkfs
end Xv6
