import Xv6.ExecSpec

/-!
User memory as seen through a page directory. `copyout` stores byte after byte, up to the
first page that is not a present user page; there it returns -1, or reads through a null
pointer when that page has no page table.
-/

namespace Xv6

def PgDir.user (d : PgDir) (va : Nat) : Bool := (d.entry (va / 4096)).p && (d.entry (va / 4096)).u

/-- Where address `va` is kept: a frame and an offset. -/
def PgDir.place (d : PgDir) (va : Nat) : Frame × Nat := ((d.entry (va / 4096)).ppn, va % 4096)

def Machine.byteAt (m : Machine) (d : PgDir) (va : Nat) : UInt8 :=
  m.mem (d.place va).1 (d.place va).2

/-- The bytes stored one after the other from `va` on, with addresses of 32 bits. -/
def Machine.store (m : Machine) (d : PgDir) : Nat → List UInt8 → Machine
  | _, [] => m
  | va, c :: cs =>
    (m.write (d.place va).1 (d.place va).2 [c]).store d ((va + 1) % 0x100000000) cs

/-- Two addresses among `n` from `va` on are never kept at the same place. -/
def PgDir.Apart (d : PgDir) (va n : Nat) : Prop :=
  ∀ i < n, ∀ j < n, d.place ((va + i) % 0x100000000) = d.place ((va + j) % 0x100000000) → i = j

section
variable {m : Machine} {d : PgDir} {va : Nat} {x : Frame} {o : Nat} {bytes : List UInt8}

theorem Machine.mem_write (m : Machine) (x y : Frame) (o j : Nat) (bytes : List UInt8) :
    (m.write x o bytes).mem y j =
      if y = x ∧ o ≤ j ∧ j < o + bytes.length then bytes.getD (j - o) 0 else m.mem y j := by
  unfold write
  by_cases hy : y = x
  · subst hy
    simp
  · simp [hy]

theorem Machine.write_cons (m : Machine) (x : Frame) (o : Nat) (c : UInt8) (cs : List UInt8) :
    m.write x o (c :: cs) = (m.write x o [c]).write x (o + 1) cs := by
  have hmem : (m.write x o (c :: cs)).mem = ((m.write x o [c]).write x (o + 1) cs).mem := by
    funext y j
    rw [mem_write, mem_write, mem_write]
    simp only [List.length_cons, List.length_nil]
    by_cases hy : y = x
    · rcases Nat.lt_trichotomy j o with hj | rfl | hj
      · rw [if_neg (by omega), if_neg (by omega), if_neg (by omega)]
      · rw [if_pos ⟨hy, le_rfl, by omega⟩, if_neg (by omega), if_pos ⟨hy, le_rfl, by omega⟩]
        simp
      · by_cases hin : j < o + 1 + cs.length
        · rw [if_pos ⟨hy, by omega, by omega⟩, if_pos ⟨hy, by omega, by omega⟩,
            show j - o = j - (o + 1) + 1 by omega, List.getD_cons_succ]
        · rw [if_neg (by omega), if_neg (by omega), if_neg (by omega)]
    · rw [if_neg fun h => hy h.1, if_neg fun h => hy h.1, if_neg fun h => hy h.1]
  exact congrArg (fun f => { m with mem := f }) hmem

theorem Machine.write_nil (m : Machine) (x : Frame) (o : Nat) : m.write x o [] = m := by
  have hmem : (m.write x o []).mem = m.mem := by
    funext y j
    rw [mem_write, if_neg (by simp only [List.length_nil]; omega)]
  exact congrArg (fun f => { m with mem := f }) hmem

theorem Machine.write_eq_store (m : Machine) (d : PgDir) (bytes : List UInt8)
    (hva : va < 0x100000000) (hfit : va % 4096 + bytes.length ≤ 4096) :
    m.write (d.place va).1 (d.place va).2 bytes = m.store d va bytes := by
  induction bytes generalizing m va with
  | nil => exact m.write_nil _ _
  | cons c cs ih =>
    rw [write_cons, store]
    cases cs with
    | nil => exact write_nil _ _ _
    | cons c' cs =>
      rw [List.length_cons, List.length_cons] at hfit
      have hnext : (va + 1) % 0x100000000 = va + 1 := by omega
      have hplace : d.place (va + 1) = ((d.place va).1, (d.place va).2 + 1) := by
        unfold PgDir.place
        rw [show (va + 1) / 4096 = va / 4096 by omega, show (va + 1) % 4096 = va % 4096 + 1 by omega]
      have hrest := ih (m.write (d.place va).1 (d.place va).2 [c])
        (by omega : va + 1 < 0x100000000) (by rw [List.length_cons]; omega)
      rw [hplace] at hrest
      rw [hnext]
      exact hrest

theorem Machine.store_append (m : Machine) (d : PgDir) (va : Nat) (bs cs : List UInt8)
    (hva : va < 0x100000000) :
    m.store d va (bs ++ cs) = (m.store d va bs).store d ((va + bs.length) % 0x100000000) cs := by
  induction bs generalizing m va with
  | nil => rw [List.nil_append, List.length_nil, Nat.add_zero, Nat.mod_eq_of_lt hva]; rfl
  | cons b bs ih =>
    rw [List.cons_append, store, ih _ _ (by omega), store, List.length_cons]
    congr 1
    omega

theorem Machine.store_frame (h : ∀ i < bytes.length, d.place ((va + i) % 0x100000000) ≠ (x, o))
    (hva : va < 0x100000000) : (m.store d va bytes).mem x o = m.mem x o := by
  induction bytes generalizing m va with
  | nil => rfl
  | cons c cs ih =>
    have hfirst := h 0 (by simp)
    rw [Nat.add_zero, Nat.mod_eq_of_lt hva] at hfirst
    rw [store, ih (fun i hi => ?_) (by omega), mem_write, if_neg]
    · rintro ⟨hx, hlo, hhi⟩
      refine hfirst (Prod.ext hx.symm ?_)
      rw [List.length_singleton] at hhi
      dsimp only
      omega
    · have hne := h (i + 1) (by rw [List.length_cons]; omega)
      rwa [show (va + (i + 1)) % 0x100000000 = ((va + 1) % 0x100000000 + i) % 0x100000000 by omega]
        at hne

theorem PgDir.Apart.tail {n : Nat} (h : d.Apart va (n + 1)) : d.Apart ((va + 1) % 0x100000000) n := by
  intro i hi j hj he
  have hshift : ∀ l, ((va + 1) % 0x100000000 + l) % 0x100000000 = (va + (l + 1)) % 0x100000000 :=
    fun l => by omega
  rw [hshift, hshift] at he
  have := h (i + 1) (by omega) (j + 1) (by omega) he
  omega

theorem Machine.store_byteAt (hva : va < 0x100000000) (hapart : d.Apart va bytes.length) {i : Nat}
    (hi : i < bytes.length) :
    (m.store d va bytes).byteAt d ((va + i) % 0x100000000) = bytes.get ⟨i, hi⟩ := by
  induction bytes generalizing m va i with
  | nil => cases hi
  | cons c cs ih =>
    rw [store]
    cases i with
    | zero =>
      have hfirst : (va + 0) % 0x100000000 = va := by omega
      unfold byteAt
      rw [store_frame (fun j hj he => ?_) (by omega), hfirst, mem_write, if_pos ⟨rfl, by simp⟩]
      · simp
      · rw [show ((va + 1) % 0x100000000 + j) % 0x100000000 = (va + (j + 1)) % 0x100000000 by omega]
          at he
        have := hapart (j + 1) (by rw [List.length_cons]; omega) 0 (by simp) he
        omega
    | succ i =>
      rw [List.length_cons] at hi hapart
      have hrest := ih (m := m.write (d.place va).1 (d.place va).2 [c]) (by omega) hapart.tail
        (Nat.lt_of_succ_lt_succ hi)
      rwa [show ((va + 1) % 0x100000000 + i) % 0x100000000 = (va + (i + 1)) % 0x100000000 by omega]
        at hrest

/-- How far a call of `copyout` gets: the first `j` bytes lie in user pages and are stored, and
byte `j`, if there is one, does not. -/
def CopyoutRun (m : Machine) (d : PgDir) (va : Nat) (bytes : List UInt8) (j : Nat)
    (r : Except Halt (Bool × Machine)) : Prop :=
  (∀ i < j, d.user ((va + i) % 0x100000000) = true) ∧
    ((j = bytes.length ∧ r = .ok (true, m.store d va bytes)) ∨
      (j < bytes.length ∧ d.user ((va + j) % 0x100000000) = false ∧
        r = if (d.walk ((va + j) % 0x100000000)).isSome then .ok (false, m.store d va (bytes.take j))
          else .error .undefined))

theorem CopyoutRun.cons {n j : Nat} {r : Except Halt (Bool × Machine)} (hva : va < 0x100000000)
    (hn : n < bytes.length) (hpage : ∀ i < n, d.user ((va + i) % 0x100000000) = true)
    (h : CopyoutRun (m.store d va (bytes.take n)) d ((va + n) % 0x100000000) (bytes.drop n) j r) :
    CopyoutRun m d va bytes (n + j) r := by
  have hshift : ∀ i, ((va + n) % 0x100000000 + i) % 0x100000000 = (va + (n + i)) % 0x100000000 :=
    fun i => by omega
  have hlen : (bytes.take n).length = n := by
    rw [List.length_take]
    omega
  obtain ⟨huser, hr⟩ := h
  refine ⟨fun i hi => ?_, ?_⟩
  · by_cases hin : i < n
    · exact hpage i hin
    · have := huser (i - n) (by omega)
      rwa [hshift, show n + (i - n) = i by omega] at this
  rw [hshift, List.length_drop] at hr
  rcases hr with ⟨hj, hr⟩ | ⟨hj, hbad, hr⟩
  · refine Or.inl ⟨by omega, ?_⟩
    have happ := m.store_append d va (bytes.take n) (bytes.drop n) hva
    rw [List.take_append_drop, hlen] at happ
    rw [happ]
    exact hr
  · refine Or.inr ⟨by omega, hbad, ?_⟩
    have happ := m.store_append d va (bytes.take n) ((bytes.drop n).take j) hva
    rw [← List.take_add, hlen] at happ
    rw [happ]
    exact hr

theorem copyLoopOut_nil (n : Nat) (m : Machine) (d : PgDir) (va : Nat) :
    copyLoopOut n m d va [] = .ok (true, m) := by
  cases n <;> rfl

theorem copyLoopOut_run {n : Nat} (hva : va < 0x100000000) (hn : bytes.length < n) :
    ∃ j, CopyoutRun m d va bytes j (copyLoopOut n m d va bytes) := by
  induction n generalizing m va bytes with
  | zero => omega
  | succ n ih =>
    rw [copyLoopOut]
    cases bytes with
    | nil => exact ⟨0, fun i hi => absurd hi (by omega), Or.inl ⟨rfl, rfl⟩⟩
    | cons c cs =>
      have hfirst : (va + 0) % 0x100000000 = va := by omega
      rw [if_neg (by simp)]
      dsimp only
      cases hw : d.walk va with
      | none =>
        have hka : uva2ka d (pgrounddown va) = .error .undefined := by
          rw [uva2ka, walk_pgrounddown d va, hw]
          rfl
        refine ⟨0, fun i hi => absurd hi (by omega), Or.inr ⟨by simp, ?_, ?_⟩⟩
        · rw [hfirst, PgDir.user, PgDir.entry_of_walk_none hva hw]
          rfl
        · rw [hka, hfirst, hw]
          rfl
      | some pte =>
        have he := PgDir.entry_of_walk hva hw
        cases hu : pte.p && pte.u with
        | false =>
          have hka : uva2ka d (pgrounddown va) = .ok none := by
            rw [uva2ka, walk_pgrounddown d va, hw]
            simp [hu, pure, Except.pure]
          refine ⟨0, fun i hi => absurd hi (by omega), Or.inr ⟨by simp, ?_, ?_⟩⟩
          · rw [hfirst, PgDir.user, he]
            exact hu
          · rw [hka, hfirst, hw]
            rfl
        | true =>
          have hka : uva2ka d (pgrounddown va) = .ok (some pte.ppn) := by
            rw [uva2ka, walk_pgrounddown d va, hw]
            simp [hu, pure, Except.pure]
          have hoff : va - pgrounddown va = va % 4096 := by
            unfold pgrounddown
            omega
          have hplace : d.place va = (pte.ppn, va % 4096) := by rw [PgDir.place, he]
          rw [Lib.bind_of_ok hka]
          dsimp only
          rw [hoff]
          obtain ⟨l, hl⟩ : ∃ l, l = min (4096 - va % 4096) (c :: cs).length := ⟨_, rfl⟩
          rw [← hl]
          have hwrite : m.write pte.ppn (va % 4096) ((c :: cs).take l) =
              m.store d va ((c :: cs).take l) := by
            have := m.write_eq_store d ((c :: cs).take l) hva
              (by rw [List.length_take]; omega)
            rwa [hplace] at this
          have hpage : ∀ i < l, d.user ((va + i) % 0x100000000) = true := by
            intro i hi
            rw [PgDir.user, show (va + i) % 0x100000000 / 4096 = va / 4096 by omega, he]
            exact hu
          have hpos : 0 < l := by
            rw [List.length_cons] at hl
            omega
          rw [hwrite]
          by_cases hlt : l < (c :: cs).length
          · have hnext : (pgrounddown va + 4096) % 0x100000000 = (va + l) % 0x100000000 := by
              unfold pgrounddown
              omega
            rw [hnext]
            have hfuel : ((c :: cs).drop l).length < n := by
              rw [List.length_drop]
              omega
            obtain ⟨j, hrun⟩ := ih (m := m.store d va ((c :: cs).take l))
              (by omega : (va + l) % 0x100000000 < 0x100000000) hfuel
            exact ⟨l + j, hrun.cons hva hlt hpage⟩
          · have hall : l = (c :: cs).length := by omega
            rw [hall, List.drop_length, List.take_length, copyLoopOut_nil]
            exact ⟨(c :: cs).length, by rw [← hall]; exact hpage, Or.inl ⟨rfl, rfl⟩⟩

theorem copyout_run (m : Machine) (d : PgDir) (bytes : List UInt8) (hva : va < 0x100000000) :
    ∃ j, CopyoutRun m d va bytes j (copyout m d va bytes) :=
  copyLoopOut_run hva (Nat.lt_succ_self _)

end

end Xv6
