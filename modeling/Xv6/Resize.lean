import Xv6.Load

/-!
`growproc`. The call that shrinks an address space to nothing returns an error and
leaves the size as it was, although every page below it is gone.
-/

namespace Xv6

/-- What `growproc` does to the address space of `p` on the way from size `sz` to size
`newsz`. -/
inductive Resized (m : Machine) (d : PgDir) (sz newsz : Nat) : Machine → PgDir → Nat → Prop where
  | same : Resized m d sz newsz m d sz
  | grown {m' : Machine} {d' : PgDir} {xs : List Frame} : sz ≤ newsz →
      newsz < 0x80000000 → xs.length = allocPages sz newsz →
      Grown m d (sizePages sz) xs m' d' → Resized m d sz newsz m' d' newsz
  | abandoned {m' m1 : Machine} {d' d1 : PgDir} {xs : List Frame} : sz ≤ newsz →
      newsz < 0x80000000 → xs.length < allocPages sz newsz →
      Abandoned m d (sizePages sz) (deallocRange newsz sz) m' d' xs m1 d1 →
      Resized m d sz newsz m' d' sz
  | shrunk {m' : Machine} {d' : PgDir} {sz' : Nat} : newsz < sz →
      Freed m (d.released m.counts (deallocRange sz newsz)) m' →
      Cleared d (· ∈ deallocRange sz newsz) d' →
      (sz' = newsz ∨ newsz = 0 ∧ sz' = sz) → Resized m d sz newsz m' d' sz'

theorem resize_spec {m m' : Machine} {d d' : PgDir} {sz sz' : Nat} {n : Int}
    (hsz : sz < 0x80000000) (hlo : -0x80000000 ≤ n) (hhi : n < 0x80000000)
    (h : resize m d sz n = .ok (sz', d', m')) :
    Resized m d sz (addInt sz n) m' d' (if n ≠ 0 ∧ sz' = 0 then sz else sz') := by
  unfold resize at h
  split at h
  · rename_i hpos
    have hadd : addInt sz n = sz + n.toNat := by
      unfold addInt
      omega
    rw [hadd] at h ⊢
    rcases allocuvm_spec (by omega) h with
      ⟨rfl, rfl, h1 | h1⟩ | ⟨hle, hlt, rfl, xs, hxs, hg⟩ | ⟨hle, hlt, rfl, xs, m1, d1, hxs, ha⟩
    · rw [if_pos ⟨by omega, h1.2⟩]
      exact .same
    · omega
    · rw [if_neg (by omega)]
      rw [sizePages_eq (by omega)] at hg
      exact .grown hle hlt hxs hg
    · rw [if_pos ⟨by omega, rfl⟩]
      rw [sizePages_eq (by omega)] at ha
      exact .abandoned hle hlt hxs ha
  · split at h
    · rename_i hneg
      obtain ⟨hsz', hf, hc⟩ := deallocuvm_spec (by omega) h
      by_cases hle : sz ≤ addInt sz n
      · unfold deallocuvm at h
        rw [if_pos hle] at h
        cases h
        split
        · exact .same
        · exact .same
      · rw [if_neg hle] at hsz'
        refine .shrunk (by omega) hf hc ?_
        rw [hsz']
        split
        · rename_i hz
          exact Or.inr ⟨hz.2, rfl⟩
        · exact Or.inl rfl
    · rename_i h1 h2
      cases h
      rw [if_neg (by omega)]
      exact .same

theorem growproc_spec {k k' : Kernel} {p : Fin NPROC} {n : Int} {b : Bool}
    (hsz : (k.proc p).sz < 0x80000000) (hlo : -0x80000000 ≤ n) (hhi : n < 0x80000000)
    (h : growproc k p n = .ok (b, k')) :
    ∃ m d sz, Resized k.mach (k.proc p).pgdir (k.proc p).sz (addInt (k.proc p).sz n) m d sz ∧
      k' = { k with mach := if b then m.lcr3 d.frame else m }.setProc p
        { k.proc p with pgdir := d, sz := sz } := by
  obtain ⟨⟨sz, d, m⟩, hr, h⟩ := Lib.bind_eq_ok.mp h
  have hres := resize_spec hsz hlo hhi hr
  dsimp only at h
  split at h
  · rename_i hz
    cases h
    rw [if_pos hz] at hres
    exact ⟨m, d, _, hres, rfl⟩
  · rename_i hz
    cases h
    rw [if_neg hz] at hres
    exact ⟨m, d, sz, hres, by simp [switchuvm, Kernel.setProc]⟩

end Xv6
