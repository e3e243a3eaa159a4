import Xv6.InodeOwners

/-!
`itrunc` frees every block that the inode names, the entries of the indirect block before the
block itself. As each of them is in use and no other place names it, `bfree` finds its bit set;
so `itrunc` returns, and so does the part of `iput` that frees an inode.
-/

namespace Xv6

open Function
namespace Fs

/-- The places without those in the indirect block of inode `i` that are listed. -/
def cleared (r : Nat × BPos → Nat) (i : Nat) (js : List (Fin 128)) (q : Nat × BPos) : Nat :=
  if ∃ j ∈ js, q = (i, .inr j) then 0 else r q

section
variable {fs : Fs} {din : Nat → Dinode} {ip : Dinode} {i : Nat} {r : Nat × BPos → Nat}

/-- Blocks behind the metadata are as they were, so the indirect blocks name what they named. -/
theorem Names.ref_of_data {fs' : Fs} (h : fs.Names din)
    (hdata : ∀ c, fs.sb.nmeta ≤ c → fs'.block c = fs.block c) (k : Nat) :
    (din k).ref fs'.block = (din k).ref fs.block :=
  ref_congr fun h0 => hdata _ (h.root_data h0).1

theorem Names.freeDirect (hs : fs.sb.Sound) (h : fs.Names din) (hip : din i = ip) {j : Fin 13}
    (hj : j ≠ 12) (h0 : ip.addrs j ≠ 0) :
    ∃ fs', fs.bfree (ip.addrs j) = .ok fs' ∧
      fs.Moves din i fs' { ip with addrs := update ip.addrs j 0 } := by
  subst hip
  obtain ⟨fs', hfree, hkept, hdata, hmarks⟩ := Marks.bfree hs h (p := (i, .inl j)) h0
  have href := h.ref_of_data hdata
  refine ⟨fs', hfree, ?_, hkept, fun k _ => href k⟩
  unfold Names
  rw [refMap_setInode din _ (ref_setAddr fs'.block hj 0)]
  have hmap : refMap fs'.block din = refMap fs.block din := by
    funext ⟨k, q⟩
    exact congrFun (href k) q
  rw [hmap]
  exact hmarks

theorem Names.truncDirect {js : List (Fin 13)} (hs : fs.sb.Sound) (h : fs.Names din)
    (hip : din i = ip) (hjs : ∀ j ∈ js, j ≠ 12) :
    ∃ fs' ip', Fs.truncDirect js fs ip = .ok (fs', ip') ∧ fs.Moves din i fs' ip' ∧
      ip' = { ip with addrs := ip'.addrs } ∧ (∀ j ∈ js, ip'.addrs j = 0) ∧
      ∀ j, ip.addrs j = 0 → ip'.addrs j = 0 := by
  induction js generalizing fs din ip with
  | nil => exact ⟨fs, ip, rfl, .refl h hip, rfl, nofun, fun _ => id⟩
  | cons j js ih =>
    rw [List.forall_mem_cons] at hjs
    unfold Fs.truncDirect
    by_cases h0 : ip.addrs j = 0
    · obtain ⟨fs', ip', hret, hmoves, hkeeps, hclear, hzero⟩ := ih hs h hip hjs.2
      refine ⟨fs', ip', by rw [if_pos h0]; exact hret, hmoves, hkeeps, ?_, hzero⟩
      rw [List.forall_mem_cons]
      exact ⟨hzero j h0, hclear⟩
    obtain ⟨fs1, hfree, hmoves1⟩ := h.freeDirect hs hip hjs.1 h0
    obtain ⟨fs', ip', hret, hmoves, hkeeps, hclear, hzero⟩ := ih (hmoves1.kept.sb ▸ hs)
      hmoves1.names (update_self ..) hjs.2
    refine ⟨fs', ip', ?_, hmoves1.trans hmoves, hkeeps, ?_, fun l hl => hzero l ?_⟩
    · rw [if_neg h0, hfree]
      exact hret
    · rw [List.forall_mem_cons]
      exact ⟨hzero j (update_self ..), hclear⟩
    · dsimp only
      by_cases hlj : l = j
      · rw [hlj, update_self]
      · rw [update_of_ne hlj]
        exact hl

/-- The loop over the entries of an indirect block; the entries stay in the block. -/
theorem Marks.truncEntries {a : Nat → UInt8} (hs : fs.sb.Sound) (h : fs.Marks r)
    (js : List (Fin 128)) (hnd : js.Nodup) (hr : ∀ j ∈ js, r (i, .inr j) = wordAt a j.val) :
    ∃ fs', Fs.truncEntries a js fs = .ok fs' ∧ fs.Kept fs' ∧
      (∀ c, fs.sb.nmeta ≤ c → fs'.block c = fs.block c) ∧
      fs'.Marks (cleared r i js) := by
  induction js generalizing fs r with
  | nil =>
    refine ⟨fs, rfl, .refl fs, fun _ _ => rfl, ?_⟩
    convert h using 1
    funext q
    exact if_neg (by rintro ⟨j, hj, -⟩; cases hj)
  | cons j js ih =>
    rw [List.nodup_cons] at hnd
    rw [List.forall_mem_cons] at hr
    unfold Fs.truncEntries
    by_cases h0 : wordAt a j.val = 0
    · obtain ⟨fs', hret, hkept, hdata, hmarks⟩ := ih hs h hnd.2 hr.2
      refine ⟨fs', by rw [if_pos h0]; exact hret, hkept, hdata, ?_⟩
      convert hmarks using 1
      funext q
      by_cases hq : q = (i, .inr j)
      · simp [cleared, hq, hr.1, h0]
      · simp [cleared, hq]
    · obtain ⟨fs1, hfree, hkept1, hdata1, hmarks1⟩ := h.bfree hs (p := (i, .inr j))
        (by rw [hr.1]; exact h0)
      rw [hr.1] at hfree
      obtain ⟨fs', hret, hkept, hdata, hmarks⟩ := ih (hkept1.sb ▸ hs) hmarks1 hnd.2 fun l hl => by
        rw [update_of_ne (by rintro he; cases he; exact hnd.1 hl), hr.2 l hl]
      refine ⟨fs', ?_, hkept1.trans hkept, fun c hc => ?_, ?_⟩
      · rw [if_neg h0, hfree]
        exact hret
      · exact (hdata c (by rw [hkept1.sb]; exact hc)).trans (hdata1 c hc)
      · convert hmarks using 1
        funext q
        by_cases hq : q = (i, .inr j)
        · simp [cleared, hq]
        · simp [cleared, hq]

theorem Names.truncIndirect (hs : fs.sb.Sound) (h : fs.Names din) (hip : din i = ip) :
    ∃ fs' ip', fs.truncIndirect ip = .ok (fs', ip') ∧ fs.Moves din i fs' ip' ∧
      ip' = { ip with addrs := update ip.addrs 12 0 } := by
  unfold Fs.truncIndirect
  by_cases h0 : ip.addrs 12 = 0
  · refine ⟨fs, ip, if_pos h0, .refl h hip, ?_⟩
    rw [← h0, update_eq_self]
  subst hip
  rw [if_neg h0]
  obtain ⟨fs1, hret1, hkept1, hdata1, hmarks1⟩ := Marks.truncEntries (i := i)
    (a := fs.block ((din i).addrs 12)) hs h (List.finRange 128) (List.nodup_finRange 128)
    fun j _ => if_neg h0
  have hplace : cleared (refMap fs.block din) i (List.finRange 128) (i, .inl 12) =
      (din i).addrs 12 := by
    simp [cleared, refMap, Dinode.ref]
  obtain ⟨fs2, hfree, hkept2, hdata2, hmarks2⟩ := hmarks1.bfree (hkept1.sb ▸ hs) (p := (i, .inl 12))
    (by rw [hplace]; exact h0)
  rw [hplace] at hfree
  have hdata : ∀ c, fs.sb.nmeta ≤ c → fs2.block c = fs.block c := fun c hc =>
    (hdata2 c (by rw [hkept1.sb]; exact hc)).trans (hdata1 c hc)
  have href := h.ref_of_data hdata
  refine ⟨fs2, _, ?_, ⟨?_, hkept1.trans hkept2, fun k _ => href k⟩, rfl⟩
  · rw [hret1]
    change (fs1.bfree _ >>= _) = _
    rw [hfree]
    rfl
  -- with the number of the indirect block cleared none of its entries counts
  unfold Names
  convert hmarks2 using 1
  funext x
  obtain ⟨k, q⟩ := x
  by_cases hk : k = i
  · subst hk
    cases q with
    | inl j =>
      by_cases hj : j = 12
      · simp [refMap, Dinode.ref, hj]
      · simp [cleared, refMap, Dinode.ref, hj]
    | inr j => simp [cleared, refMap, Dinode.ref]
  · have := congrFun (href k) q
    simpa [cleared, refMap, hk] using this

theorem mem_direct {j : Fin 13} : j ∈ direct ↔ j ≠ 12 := by
  revert j
  decide

theorem Own.truncated (h : fs.Own) (hi : i < fs.sb.ninodes) (ht : (fs.dinode i).type ≠ 0) :
    ∃ fs1 ip1, fs.Moves fs.live i fs1 ip1 ∧ (∀ j, ip1.addrs j = 0) ∧
      ip1 = { fs.dinode i with addrs := ip1.addrs } ∧
      fs.itrunc i (fs.dinode i) =
        .ok (fs1.iupdate i { ip1 with size := 0 }, { ip1 with size := 0 }) := by
  obtain ⟨fs1, ip1, hret1, hmoves1, hkeeps1, hclear, -⟩ := h.names.truncDirect h.sound
    (live_of_type hi ht) fun j hj => mem_direct.mp hj
  obtain ⟨fs2, ip2, hret2, hmoves2, rfl⟩ := hmoves1.names.truncIndirect (hmoves1.kept.sb ▸ h.sound)
    (update_self ..)
  refine ⟨fs2, _, hmoves1.trans hmoves2, fun j => ?_, by rw [hkeeps1], ?_⟩
  · dsimp only
    by_cases hj : j = 12
    · rw [hj, update_self]
    · rw [update_of_ne hj]
      exact hclear j (mem_direct.mpr hj)
  · unfold Fs.itrunc
    rw [hret1]
    change (fs1.truncIndirect ip1 >>= _) = _
    rw [hret2]
    rfl

theorem whole_empty {d : Dinode} (hsize : d.size = 0) : fs.Whole d :=
  ⟨by omega, fun x hx => absurd hx (by omega)⟩

theorem Own.freed_named {fs1 : Fs} {ip1 : Dinode} (h : fs.Own) (hm : fs.Moves fs.live i fs1 ip1) {n : Nat}
    (hn : n < fs.sb.size) (hmarked : fs.marked n = true) (hfree : fs1.marked n ≠ true) :
    ∃ p, (fs.live i).ref fs.block p = n := by
  have hdata : fs.sb.nmeta ≤ n := by
    by_contra hlow
    exact hfree (hm.names.metadata n (by rw [hm.kept.sb]; omega))
  have hbb := h.sound.bitmap n hn
  obtain ⟨⟨k, p⟩, hp⟩ := (h.names.fills.iff n (by omega)).mp ⟨hdata, hn, hmarked⟩
  by_cases hk : k = i
  · subst hk
    exact ⟨p, hp⟩
  refine absurd ?_ hfree
  have hstill : refMap fs1.block (update fs.live i ip1) (k, p) = n := by
    rw [refMap, update_of_ne hk, hm.apart k hk]
    exact hp
  have := (hm.names.fills.inUse (i := (k, p)) (by rw [hstill]; omega)).2.2
  rw [hstill] at this
  exact this

theorem Own.freed_all {fs1 : Fs} {ip1 : Dinode} (h : fs.Own) (hm : fs.Moves fs.live i fs1 ip1)
    (hzero : ∀ j, ip1.addrs j = 0) {p : BPos} (h0 : (fs.live i).ref fs.block p ≠ 0) :
    fs1.marked ((fs.live i).ref fs.block p) ≠ true := by
  intro hmarked
  obtain ⟨hdata, hlt, -⟩ := h.names.fills.inUse (i := (i, p)) h0
  change fs.sb.nmeta ≤ (fs.live i).ref fs.block p at hdata
  change (fs.live i).ref fs.block p < fs.sb.size at hlt
  rw [← hm.kept.sb] at hdata hlt
  obtain ⟨⟨k, q⟩, hq⟩ := (hm.names.fills.iff _ h0).mp ⟨hdata, hlt, hmarked⟩
  by_cases hk : k = i
  · subst hk
    rw [refMap, update_self] at hq
    have hnone : ip1.ref fs1.block q = 0 := by
      cases q with
      | inl j => exact hzero j
      | inr j => exact if_pos (hzero 12)
    exact h0 (hq.symm.trans hnone)
  · rw [refMap, update_of_ne hk, hm.apart k hk] at hq
    have := h.names.fills.apart (i, p) (k, q) h0 hq.symm
    exact hk (Prod.ext_iff.mp this).1.symm

theorem Own.itrunc (h : fs.Own) (hi : i < fs.sb.ninodes) (ht : (fs.dinode i).type ≠ 0) :
    ∃ fs' ip', fs.itrunc i (fs.dinode i) = .ok (fs', ip') ∧ fs'.Own ∧ fs.Updates i fs' ip' ∧
      ip'.type = (fs.dinode i).type := by
  obtain ⟨fs1, ip1, hmoves, hzero, hkeeps, hret⟩ := h.truncated hi ht
  have htype : ip1.type = (fs.dinode i).type := (congrArg Dinode.type hkeeps :)
  obtain ⟨hown, hu, -⟩ := h.written hi hmoves { ip1 with size := 0 } rfl (fun _ => whole_empty rfl)
    (fun h0 => absurd (htype.symm.trans h0) ht) (fields_fit 0 ip1 hkeeps (by decide))
  exact ⟨_, _, hret, hown, hu, htype⟩

theorem Own.release (h : fs.Own) (hi : i < fs.sb.ninodes) (ht : (fs.dinode i).type ≠ 0) :
    ∃ fs' ip', fs.itrunc i (fs.dinode i) = .ok (fs', ip') ∧
      (fs'.iupdate i { ip' with type := 0 }).Own ∧
      fs.Updates i (fs'.iupdate i { ip' with type := 0 }) { ip' with type := 0 } ∧
      (∀ n < fs.sb.size, fs.marked n = true → (fs'.iupdate i { ip' with type := 0 }).marked n ≠ true →
        ∃ p, (fs.dinode i).ref fs.block p = n) ∧
      ∀ p, (fs.dinode i).ref fs.block p ≠ 0 →
        (fs'.iupdate i { ip' with type := 0 }).marked ((fs.dinode i).ref fs.block p) ≠ true := by
  obtain ⟨fs1, ip1, hmoves, hzero, hkeeps, hret⟩ := h.truncated hi ht
  have htype : ip1.type = (fs.dinode i).type := (congrArg Dinode.type hkeeps :)
  obtain ⟨hown, hu, hmarked⟩ := h.written hi hmoves { ip1 with size := 0 } rfl
    (fun _ => whole_empty rfl) (fun h0 => absurd (htype.symm.trans h0) ht)
    (fields_fit 0 ip1 hkeeps (by decide))
  have hi' : i < (fs1.iupdate i { ip1 with size := 0 }).sb.ninodes := by
    rw [hu.sb]
    exact hi
  have hlive : (fs1.iupdate i { ip1 with size := 0 }).live i = { ip1 with size := 0 } := by
    rw [live_of_type hi' (by rw [hu.self]; exact htype ▸ ht), hu.self]
  have hfits : Dinode.Fits { ip1 with size := 0 } := by
    rw [← hu.self]
    exact getDinode_fits ..
  obtain ⟨hown', hu', hmarked'⟩ := hown.written hi' (.refl hown.names hlive)
    { ip1 with size := 0, type := 0 } rfl (fun hn => absurd rfl hn) (fun _ => hzero)
    ⟨Nat.zero_lt_succ _, hfits.major, hfits.minor, hfits.nlink, Nat.zero_lt_succ _, fun _ => Nat.zero_lt_succ _⟩
  refine ⟨_, _, hret, hown', ⟨hu'.sb.trans hu.sb, hu'.self, fun j hj hji => ?_⟩, fun n hn hm hf => ?_,
    fun p hp => ?_⟩
  · rw [hu'.others j (by rw [hu.sb]; exact hj) hji, hu.others j hj hji]
  · rw [hmarked' n, hmarked n] at hf
    have := h.freed_named hmoves hn hm hf
    rw [live_of_type hi ht] at this
    exact this
  · rw [hmarked' _, hmarked _]
    rw [← live_of_type hi ht] at hp ⊢
    exact h.freed_all hmoves hzero hp

end

end Fs
end Xv6
