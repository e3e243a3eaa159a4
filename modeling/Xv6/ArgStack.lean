import Xv6.ExecInput
import Xv6.Lib.Bytes
import Xv6.UserMemory

/-!
The stack `exec` prepares for a new program. The page below the stack page is closed to user
code, so that a `copyout` that succeeds stays inside the stack page: the strings and the words
above them are in place when `exec` is done, and no other memory has changed.
-/

namespace Xv6

open Lib

/-- The page from `base` on has frame `x`, and the page below it is not open to user code. -/
structure StackPage (d : PgDir) (base : Nat) (x : Frame) : Prop where
  aligned : base % 4096 = 0
  low : 4096 ≤ base
  high : base + 4096 ≤ 0x80000000
  guard : (d.entry (base / 4096 - 1)).u = false
  frame : (d.entry (base / 4096)).ppn = x

def Machine.HasBytes (m : Machine) (x : Frame) (o : Nat) (bytes : List UInt8) : Prop :=
  ∀ i < bytes.length, m.mem x (o + i) = bytes.getD i 0

section
variable {m m' : Machine} {d : PgDir} {base va sp n : Nat} {x : Frame} {bytes : List UInt8}

theorem copyout_ok (hva : va < 0x100000000) (h : copyout m d va bytes = .ok (true, m')) :
    (∀ i < bytes.length, d.user ((va + i) % 0x100000000) = true) ∧ m' = m.store d va bytes := by
  obtain ⟨j, huser, ⟨hj, hr⟩ | ⟨hj, -, hr⟩⟩ := copyout_run m d bytes hva
  · rw [h] at hr
    cases hr
    exact ⟨by rw [← hj]; exact huser, rfl⟩
  · rw [h] at hr
    split at hr <;> cases hr

theorem StackPage.closed (h : StackPage d base x) {a : Nat} (hlo : base - 4096 ≤ a)
    (hhi : a < base) : d.user a = false := by
  have := h.low
  have := h.aligned
  rw [PgDir.user, show a / 4096 = base / 4096 - 1 by omega, h.guard, Bool.and_false]

/-- `n` bytes below `sp`, at an address aligned to words, that are all open to user code: they
cannot reach across the closed page. -/
theorem StackPage.inside (h : StackPage d base x) (hsp : base ≤ sp ∧ sp ≤ base + 4096)
    (hal : sp % 4 = 0) (hn : 0 < n)
    (hva : va = (sp + 0x100000000 - n) % 0x100000000 / 4 * 4)
    (huser : ∀ i < n, d.user ((va + i) % 0x100000000) = true) :
    base ≤ va ∧ va = (sp - n) / 4 * 4 ∧ n ≤ sp := by
  have hlow := h.low
  have hhigh := h.high
  have haligned := h.aligned
  by_contra hout
  -- an address of the range in the closed page
  have hhit : ∃ i < n, base - 4096 ≤ (va + i) % 0x100000000 ∧ (va + i) % 0x100000000 < base := by
    by_cases hhuge : sp + 0x100000000 < n
    · exact ⟨base - 1, by omega, by omega, by omega⟩
    by_cases hwrap : sp < n
    · by_cases hfull : sp = base
      · exact ⟨n - 1, by omega, by omega, by omega⟩
      · exact ⟨base - 1 + 0x100000000 - va, by omega, by omega, by omega⟩
    · by_cases hfull : sp = base
      · exact ⟨n - 1, by omega, by omega, by omega⟩
      · exact ⟨base - 1 - va, by omega, by omega, by omega⟩
  obtain ⟨i, hi, hlo, hhi⟩ := hhit
  have hbad := huser i hi
  rw [h.closed hlo hhi] at hbad
  cases hbad

theorem StackPage.copyout (h : StackPage d base x) (hsp : base ≤ sp ∧ sp ≤ base + 4096)
    (hal : sp % 4 = 0) (hne : 0 < bytes.length)
    (hva : va = (sp + 0x100000000 - bytes.length) % 0x100000000 / 4 * 4)
    (hc : copyout m d va bytes = .ok (true, m')) :
    base ≤ va ∧ va + bytes.length ≤ sp ∧ va % 4 = 0 ∧
      m' = m.write x (va - base) bytes := by
  have hhigh := h.high
  have haligned := h.aligned
  obtain ⟨huser, hm⟩ := copyout_ok (by omega) hc
  obtain ⟨hlo, heq, hle⟩ := h.inside hsp hal hne hva huser
  have hend : va + bytes.length ≤ sp := by omega
  refine ⟨hlo, hend, by omega, ?_⟩
  have hplace : d.place va = (x, va - base) := by
    have hpage : va / 4096 = base / 4096 := by omega
    rw [PgDir.place, hpage, h.frame, show va % 4096 = va - base by omega]
  have hwrite := m.write_eq_store d bytes (by omega : va < 0x100000000) (by omega)
  rw [hplace] at hwrite
  rw [hm]
  exact hwrite.symm

theorem Machine.hasBytes_write (m : Machine) (x : Frame) (o : Nat) (bytes : List UInt8) :
    (m.write x o bytes).HasBytes x o bytes := by
  intro i hi
  rw [mem_write, if_pos ⟨rfl, by omega, by omega⟩, show o + i - o = i by omega]

theorem StackPage.pushArgs (h : StackPage d base x) {argv : List (List UInt8)} {sp' : Nat}
    {ustack us : List Nat} (hsp : base ≤ sp ∧ sp ≤ base + 4096) (hal : sp % 4 = 0)
    (hp : pushArgs argv m d sp ustack = .ok (some (sp', us), m')) :
    base ≤ sp' ∧ sp' ≤ sp ∧ sp' % 4 = 0 ∧
      (∀ y o, y ≠ x ∨ o < sp' - base ∨ sp - base ≤ o → m'.mem y o = m.mem y o) ∧
      ∃ addrs, us = ustack ++ addrs ∧ List.Forall₂ (fun s a => sp' ≤ a ∧ a + (s.length + 1) ≤ sp ∧
        m'.HasBytes x (a - base) (s ++ [0])) argv addrs := by
  induction argv generalizing m sp ustack with
  | nil =>
    cases hp
    exact ⟨hsp.1, le_rfl, hal, fun _ _ _ => rfl, [], by simp, .nil⟩
  | cons s argv ih =>
    rw [Xv6.pushArgs] at hp
    split at hp
    · cases hp
    dsimp only at hp
    obtain ⟨⟨ok, m1⟩, hc, hp⟩ := bind_eq_ok.mp hp
    cases ok with
    | false => cases hp
    | true =>
      obtain ⟨hlo, hend, hal1, hm1⟩ := h.copyout hsp hal (by simp) (by simp) hc
      rw [List.length_append, List.length_singleton] at hend
      generalize (sp + 0x100000000 - (s.length + 1)) % 0x100000000 / 4 * 4 = va at *
      obtain ⟨hlo', hle', hal', hframe, addrs, hus, hall⟩ := ih ⟨hlo, by omega⟩ hal1 hp
      refine ⟨hlo', by omega, hal', fun y o hout => ?_, va :: addrs, by simp [hus], ?_⟩
      · rw [hframe y o (hout.imp_right fun ho => by omega), hm1, Machine.mem_write, if_neg]
        rintro ⟨hy, h1, h2⟩
        rw [List.length_append, List.length_singleton] at h2
        rcases hout with hout | hout | hout
        · exact hout hy
        · omega
        · omega
      · refine .cons ⟨hle', hend, fun i hi => ?_⟩ ?_
        · rw [hframe x _ (by omega), hm1]
          exact Machine.hasBytes_write m x _ _ i hi
        · exact hall.imp fun s' a ha => ⟨ha.1, by omega, ha.2.2⟩

theorem StackPage.byteAt (h : StackPage d base x) {a : Nat} (hlo : base ≤ a)
    (hhi : a < base + 4096) : m.byteAt d a = m.mem x (a - base) := by
  have haligned := h.aligned
  rw [Machine.byteAt, PgDir.place, show a / 4096 = base / 4096 by omega, h.frame,
    show a % 4096 = a - base by omega]

theorem StackPage.word (h : StackPage d base x) {ws : List Nat} {j : Nat}
    (hb : m.HasBytes x (sp - base) (ws.flatMap le32)) (hlo : base ≤ sp)
    (hhi : sp + 4 * ws.length ≤ base + 4096) (hj : j < ws.length) :
    leAt (m.byteAt d) (sp + 4 * j) 4 = ws.get ⟨j, hj⟩ % 0x100000000 := by
  refine leAt_of_bytes fun i hi => ?_
  have hpiece := take_drop_flatMap (f := le32) (w := 4) (fun _ => rfl) hj
  rw [h.byteAt (by omega) (by omega), show sp + 4 * j + i - base = sp - base + (4 * j + i) by omega,
    hb _ (by rw [length_le32]; omega)]
  have hbyte := congrArg (fun bs => bs.getD i 0) hpiece
  rw [List.getD_eq_getElem?_getD, List.getElem?_take_of_lt hi, List.getElem?_drop,
    ← List.getD_eq_getElem?_getD] at hbyte
  rw [hbyte]
  obtain rfl | rfl | rfl | rfl : i = 0 ∨ i = 1 ∨ i = 2 ∨ i = 3 := by omega
  all_goals simp [le32, leByte]

/-- What `exec` leaves in the stack page: the strings, and below them the array of their
addresses with the frame of `main`. -/
structure ArgsPlaced (m : Machine) (x : Frame) (base sp : Nat) (argv : List (List UInt8))
    (addrs : List Nat) : Prop where
  inside : base ≤ sp
  room : sp + (16 + 4 * argv.length) ≤ base + 4096
  words : m.HasBytes x (sp - base)
    (([0xFFFFFFFF, argv.length, sp + 12] ++ addrs ++ [0]).flatMap le32)
  strings : List.Forall₂ (fun s a => sp + (16 + 4 * argv.length) ≤ a ∧
    a + (s.length + 1) ≤ base + 4096 ∧ m.HasBytes x (a - base) (s ++ [0])) argv addrs

end

section
variable {m m' : Machine} {d d' : PgDir} {sz sz' sp : Nat} {argv : List (List UInt8)}

theorem exists_stackPage {d1 : PgDir} {m1 : Machine} (hsz : sz < 0x80000000)
    (ha : allocuvm m d (pgroundup sz) (pgroundup sz + 2 * 4096) = .ok (sz', d1, m1)) (hne : sz' ≠ 0)
    (hclear : clearpteu d1 (sz' - 2 * 4096) = .ok d') :
    8192 ≤ sz' ∧ sz' % 4096 = 0 ∧ ∃ x, StackPage d' (sz' - 4096) x := by
  have hround : pgroundup sz ≤ 0x80000000 := by
    unfold pgroundup
    omega
  have hsz' : sz' < 0x80000000 := by
    rcases allocuvm_spec hround ha with ⟨-, -, h1 | h1⟩ | ⟨-, hlt, rfl, -⟩ | ⟨-, -, h1, -⟩
    · exact (hne h1.2).elim
    · omega
    · exact hlt
    · exact (hne h1).elim
  obtain ⟨-, hentries⟩ := clearpteu_spec (by omega) hclear
  obtain ⟨hg, -⟩ := guarded_stack hsz ha hne hentries
  have haligned := hg.aligned
  have hroom := hg.room
  refine ⟨hroom, haligned, (d'.entry ((sz' - 4096) / 4096)).ppn, by omega, by omega, by omega, ?_, rfl⟩
  rw [show (sz' - 4096) / 4096 - 1 = sz' / 4096 - 2 by omega]
  exact hg.user

theorem length_stackWords (us : List Nat) (a : Nat) :
    (([0xFFFFFFFF, us.length, a] ++ us ++ [0]).flatMap le32).length = 4 * (us.length + 4) := by
  rw [length_le32]
  simp only [List.length_append, List.length_cons, List.length_nil]
  omega

theorem buildStack_ok (hsz : sz < 0x80000000)
    (h : buildStack m d sz argv = .ok (some (sz', sp), d', m')) :
    ∃ d1 m1, allocuvm m d (pgroundup sz) (pgroundup sz + 2 * 4096) = .ok (sz', d1, m1) ∧
      sz' ≠ 0 ∧ clearpteu d1 (sz' - 2 * 4096) = .ok d' ∧ ∃ x addrs, StackPage d' (sz' - 4096) x ∧
      (∀ y, y ≠ x → m'.mem y = m1.mem y) ∧ ArgsPlaced m' x (sz' - 4096) sp argv addrs := by
  obtain ⟨⟨sz1, d1, m1⟩, ha, h⟩ := bind_eq_ok.mp h
  dsimp only at h
  split at h
  · cases h
  rename_i hne
  obtain ⟨d2, hclear, h⟩ := bind_eq_ok.mp h
  obtain ⟨⟨r, m2⟩, hp, h⟩ := bind_eq_ok.mp h
  cases r with
  | none => cases h
  | some r =>
    obtain ⟨sp1, us⟩ := r
    obtain ⟨⟨ok, m3⟩, hc, h⟩ := bind_eq_ok.mp h
    cases ok with
    | false => cases h
    | true =>
      cases h
      obtain ⟨hroom, haligned, x, hpage⟩ := exists_stackPage hsz ha hne hclear
      obtain ⟨hlo1, hle1, hal1, hframe1, addrs, hus, hstrings⟩ :=
        hpage.pushArgs ⟨by omega, by omega⟩ (by omega) hp
      rw [List.nil_append] at hus
      subst hus
      have hargc := hstrings.length_eq
      have hlen := length_stackWords us
        ((sp1 + 0x100000000 - (us.length + 1) * 4) % 0x100000000)
      obtain ⟨hlo, hend, hal, hm⟩ := hpage.copyout ⟨hlo1, by omega⟩ hal1 (by omega)
        (by rw [hlen]; omega) hc
      rw [hlen] at hend
      generalize hsp : (sp1 + 0x100000000 - (3 + us.length + 1) * 4) % 0x100000000 = sp at *
      have hargv : (sp1 + 0x100000000 - (us.length + 1) * 4) % 0x100000000 = sp + 12 := by
        have := hpage.high
        omega
      have hexact : sp + 4 * (us.length + 4) = sp1 := by
        have := hpage.high
        omega
      rw [hargv] at hm hlen
      refine ⟨d1, m1, ha, hne, hclear, x, us, hpage, fun y hy => ?_, hlo, by omega, ?_, ?_⟩
      · funext o
        rw [hm, Machine.mem_write, if_neg fun hc => hy hc.1, hframe1 y o (Or.inl hy)]
      · rw [hm, hargc]
        exact m2.hasBytes_write _ _ _
      · rw [hargc]
        refine hstrings.imp fun s a ⟨h1, h2, h3⟩ => ⟨by omega, by omega, fun i hi => ?_⟩
        rw [hm, Machine.mem_write, if_neg (by omega)]
        exact h3 i hi

end

end Xv6
