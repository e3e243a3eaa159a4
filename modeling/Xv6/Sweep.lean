import Xv6.UserVm

/-!
The page loop of `deallocuvm` and `dellocateAndUnmap` visits exactly the present pages
of its range, although it jumps over absent page tables: it is equal to a loop over
every page number of the range.
-/

namespace Xv6

section
variable {σ : Type} (dir : σ → PgDir) (body : σ → Nat → Pte → Except Halt (σ × Bool))

/-- The loop without jumps, over a list of virtual page numbers. -/
def visit : List Nat → σ → Except Halt (σ × Bool)
  | [], s => pure (s, true)
  | v :: vs, s =>
    if ((dir s).entry v).p then do
      let (s, go) ← body s (v * 4096) ((dir s).entry v)
      if go then visit vs s else pure (s, false)
    else visit vs s

theorem visit_absent (vs ws : List Nat) (s : σ) (h : ∀ v ∈ vs, ((dir s).entry v).p = false) :
    visit dir body (vs ++ ws) s = visit dir body ws s := by
  induction vs with
  | nil => rfl
  | cons v vs ih =>
    rw [List.cons_append, visit, h v (by simp)]
    exact ih fun u hu => h u (List.mem_cons_of_mem v hu)

variable {dir body}

theorem sweep_rule {P : σ → Prop} {Q : σ → Bool → Prop} (hend : ∀ s, P s → Q s true)
    (hturn : ∀ s a pte s', P s → body s a pte = .ok (s', true) → P s')
    (hstop : ∀ s a pte s', P s → body s a pte = .ok (s', false) → Q s' false)
    {n a bound : Nat} {s s' : σ} {go : Bool} (hs : P s)
    (h : sweep dir body n s a bound = .ok (s', go)) : Q s' go := by
  induction n generalizing s a with
  | zero =>
    rw [sweep] at h
    split at h <;> cases h
    exact hend _ hs
  | succ n ih =>
    rw [sweep] at h
    split at h
    · split at h
      · exact ih hs h
      split at h
      · obtain ⟨⟨s1, go1⟩, hb, h⟩ := Lib.bind_eq_ok.mp h
        dsimp only at h
        cases go1 with
        | true => exact ih (hturn _ _ _ _ hs hb) h
        | false =>
          cases h
          exact hstop _ _ _ _ hs hb
      · exact ih hs h
    · cases h
      exact hend _ hs

theorem entry_below_nextDir {d : PgDir} {a v : Nat} (ha : a < 0x100000000)
    (h : d.walk a = none) (h1 : a / 4096 ≤ v) (h2 : v < (pdx a + 1) * 1024) :
    d.entry v = Pte.zero := by
  simp only [PgDir.walk, Option.map_eq_none_iff] at h
  have hv : v / 1024 = pdx a := by
    unfold pdx at h2 ⊢
    omega
  simp [PgDir.entry, hv, h]

theorem nextDir_eq {a : Nat} (ha : a < 0xFFC00000) : nextDir a = (pdx a + 1) * 1024 * 4096 := by
  unfold nextDir pdx
  omega

theorem page_mul {a : Nat} (h : a % 4096 = 0) : a / 4096 * 4096 = a := by
  omega

theorem pagesTo_cons {a bound : Nat} (h : a < bound) :
    pagesTo a bound = pagesTo (a + 4096) bound + 1 := by
  unfold pagesTo
  omega

theorem pagesTo_zero {a bound : Nat} (h : bound ≤ a) : pagesTo a bound = 0 := by
  unfold pagesTo
  omega

theorem sweep_total {P : σ → Prop} {bound : Nat} (hbound : bound ≤ 0xFFC00000)
    (hbody : ∀ s a pte, P s → a < bound → (dir s).walk a = some pte → pte.p = true →
      ∃ s' go, body s a pte = .ok (s', go) ∧ P s')
    {n a : Nat} {s : σ}
    (hfuel : pagesTo a bound < n ∨ a % 4096 = 0 ∧ pagesTo a bound ≤ n) (hs : P s) :
    ∃ r, sweep dir body n s a bound = .ok r := by
  induction n generalizing s a with
  | zero =>
    have hle : ¬ a < bound := by
      unfold pagesTo at hfuel
      omega
    rw [sweep, if_neg hle]
    exact ⟨_, rfl⟩
  | succ n ih =>
    rw [sweep]
    by_cases hlt : a < bound
    · have hnext : (a + 4096) % 0x100000000 = a + 4096 := by omega
      have hcount := pagesTo_cons hlt
      have hrest : pagesTo (a + 4096) bound < n ∨
          (a + 4096) % 4096 = 0 ∧ pagesTo (a + 4096) bound ≤ n := by omega
      rw [if_pos hlt, hnext]
      cases hw : (dir s).walk a with
      | none =>
        have hdir := nextDir_eq (a := a) (by omega)
        have hgt : a < nextDir a := by
          rw [hdir]
          unfold pdx
          omega
        refine ih (Or.inr ⟨by omega, ?_⟩) hs
        unfold pagesTo at hfuel ⊢
        omega
      | some pte =>
        dsimp only
        split
        · rename_i hp
          obtain ⟨s', go, hb, hs'⟩ := hbody s a pte hs hlt hw hp
          rw [hb]
          simp only [bind, Except.bind]
          split
          · exact ih hrest hs'
          · exact ⟨_, rfl⟩
        · exact ih hrest hs
    · rw [if_neg hlt]
      exact ⟨_, rfl⟩

theorem pages_split {a b bound : Nat} (ha : a % 4096 = 0) (hb : b % 4096 = 0) (h : a ≤ b) :
    List.range' (a / 4096) (pagesTo a bound) =
      List.range' (a / 4096) (min (pagesTo a bound) (b / 4096 - a / 4096)) ++
        List.range' (b / 4096) (pagesTo b bound) := by
  have hlen : pagesTo a bound =
      min (pagesTo a bound) (b / 4096 - a / 4096) + pagesTo b bound := by
    unfold pagesTo
    omega
  by_cases hz : pagesTo b bound = 0
  · rw [hz, List.range'_zero, List.append_nil]
    congr 1
    omega
  · have hstart : b / 4096 = a / 4096 + min (pagesTo a bound) (b / 4096 - a / 4096) := by
      unfold pagesTo at hz ⊢
      omega
    conv_lhs => rw [hlen]
    rw [← List.range'_append_1, ← hstart]

theorem sweep_eq_visit {bound : Nat} (hbound : bound ≤ 0xFFC00000)
    (n : Nat) (s : σ) (a : Nat) (hal : a % 4096 = 0) (hfuel : pagesTo a bound ≤ n) :
    sweep dir body n s a bound = visit dir body (List.range' (a / 4096) (pagesTo a bound)) s := by
  induction n generalizing s a with
  | zero =>
    have hz : pagesTo a bound = 0 := by omega
    have hle : ¬ a < bound := by
      unfold pagesTo at hz
      omega
    rw [sweep, if_neg hle, hz]
    rfl
  | succ n ih =>
    by_cases hlt : a < bound
    · have hnext : (a + 4096) % 0x100000000 = a + 4096 := by omega
      have hpage : (a + 4096) / 4096 = a / 4096 + 1 := by omega
      have hcount := pagesTo_cons hlt
      rw [sweep, if_pos hlt]
      cases hw : (dir s).walk a with
      | none =>
        have hdir := nextDir_eq (a := a) (by omega)
        have hgt : a < nextDir a := by
          rw [hdir]
          unfold pdx
          omega
        have hal' : nextDir a % 4096 = 0 := by omega
        have hfuel' : pagesTo (nextDir a) bound ≤ n := by
          unfold pagesTo at hfuel ⊢
          omega
        simp only
        rw [ih s (nextDir a) hal' hfuel', pages_split hal hal' (by omega)]
        symm
        apply visit_absent
        intro v hv
        rw [List.mem_range'_1] at hv
        rw [entry_below_nextDir (by omega) hw hv.1 (by omega)]
        rfl
      | some pte =>
        have he := PgDir.entry_of_walk (by omega) hw
        simp only
        rw [hcount, List.range'_succ, visit, he, page_mul hal, hnext]
        split
        · cases hb : body s a pte with
          | error e => simp only [bind, Except.bind]
          | ok r =>
            obtain ⟨s', go⟩ := r
            simp only [bind, Except.bind]
            split
            · rw [ih s' (a + 4096) (by omega) (by omega), hpage]
            · rfl
        · rw [ih s (a + 4096) (by omega) (by omega), hpage]
    · rw [sweep, if_neg hlt, pagesTo_zero (by omega)]
      rfl

/-- A loop that would fail at a page `mid` it cannot jump over ends before that page. -/
theorem sweep_stops {P : σ → Prop} {mid bound : Nat} (hmid : mid % 0x400000 = 0)
    (htop : mid < 0xFFC00000) (hbound : mid < bound)
    (hbody : ∀ s v s' go, P s → v * 4096 < mid → ((dir s).entry v).p = true →
      body s (v * 4096) ((dir s).entry v) = .ok (s', go) → P s')
    (hend : ∀ s, P s → ∃ pte, (dir s).walk mid = some pte ∧ pte.p = true ∧
      ∀ r, body s mid pte ≠ .ok r)
    {n : Nat} {s s' : σ} {a : Nat} {go : Bool} (hal : a % 4096 = 0) (ha : a ≤ mid) (hs : P s)
    (h : sweep dir body n s a bound = .ok (s', go)) :
    go = false ∧ visit dir body (List.range' (a / 4096) (pagesTo a mid)) s = .ok (s', false) := by
  induction n generalizing s a with
  | zero =>
    rw [sweep, if_pos (by omega)] at h
    cases h
  | succ n ih =>
    rw [sweep, if_pos (by omega)] at h
    by_cases hlt : a < mid
    · have hnext : (a + 4096) % 0x100000000 = a + 4096 := by omega
      have hpage : (a + 4096) / 4096 = a / 4096 + 1 := by omega
      have hcount := pagesTo_cons hlt
      cases hw : (dir s).walk a with
      | none =>
        have hdir := nextDir_eq (a := a) (by omega)
        have hgt : a < nextDir a ∧ nextDir a ≤ mid := by
          rw [hdir]
          unfold pdx
          omega
        have hal' : nextDir a % 4096 = 0 := by omega
        rw [hw] at h
        obtain ⟨hgo, hv⟩ := ih hal' hgt.2 hs h
        refine ⟨hgo, ?_⟩
        rw [pages_split hal hal' (by omega), visit_absent]
        · exact hv
        · intro v hv
          rw [List.mem_range'_1] at hv
          rw [entry_below_nextDir (by omega) hw hv.1 (by omega)]
          rfl
      | some pte =>
        have he := PgDir.entry_of_walk (by omega) hw
        simp only [hw, hnext] at h
        rw [hcount, List.range'_succ, visit, he, page_mul hal]
        split at h
        · rename_i hp
          rw [if_pos hp]
          obtain ⟨⟨s1, go1⟩, hb, h⟩ := Lib.bind_eq_ok.mp h
          rw [hb]
          simp only [bind, Except.bind]
          split at h
          · rename_i hgo1
            have hs1 : P s1 := by
              apply hbody s (a / 4096) s1 go1 hs
              · rw [page_mul hal]
                exact hlt
              · rw [he]
                exact hp
              · rw [he, page_mul hal]
                exact hb
            obtain ⟨hgo, hv⟩ := ih (by omega) (by omega) hs1 h
            rw [hpage] at hv
            exact ⟨hgo, by rw [if_pos hgo1]; exact hv⟩
          · rename_i hgo1
            cases h
            exact ⟨rfl, by rw [if_neg hgo1]; rfl⟩
        · rename_i hp
          obtain ⟨hgo, hv⟩ := ih (by omega) (by omega) hs h
          rw [hpage] at hv
          exact ⟨hgo, by rw [if_neg hp]; exact hv⟩
    · have hmid' : a = mid := by omega
      subst hmid'
      obtain ⟨pte, hw, hp, hfail⟩ := hend s hs
      simp only [hw, if_pos hp] at h
      obtain ⟨r, hb, -⟩ := Lib.bind_eq_ok.mp h
      exact (hfail r hb).elim

end

end Xv6
