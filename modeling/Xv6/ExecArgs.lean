import Xv6.ArgStack
import Xv6.ExecImage
import Xv6.FirstRuns
import Xv6.SysExec

/-!
`exec` passes the arguments of its caller when its own page directory is in CR3 while it reads
them. Reading through pointers is then the same as being given the strings, and the stack
page holds them when `exec` is done.
-/

namespace Xv6

open Lib

/-- The string `s` stands at address `a`, with its NUL, in pages the kernel can read. -/
structure Machine.HasString (m : Machine) (d : PgDir) (a : Nat) (s : List UInt8) : Prop where
  nonzero : ∀ c ∈ s, c ≠ 0
  bound : a + s.length < 0x100000000
  readable : ∀ i ≤ s.length, d.permits (a + i) false false = true
  bytes : ∀ i ≤ s.length, m.byteAt d (a + i) = (s ++ [0]).getD i 0

section
variable {m m' : Machine} {d : PgDir} {a n : Nat} {s t : List UInt8} {c : UInt8}

theorem Machine.HasString.tail (h : m.HasString d a (c :: s)) : m.HasString d (a + 1) s := by
  have hb := h.bound
  rw [List.length_cons] at hb
  refine ⟨fun c' hc => h.nonzero c' (List.mem_cons_of_mem _ hc), by omega, fun i hi => ?_,
    fun i hi => ?_⟩
  · have := h.readable (i + 1) (by rw [List.length_cons]; omega)
    rwa [show a + (i + 1) = a + 1 + i by omega] at this
  · have := h.bytes (i + 1) (by rw [List.length_cons]; omega)
    rwa [show a + (i + 1) = a + 1 + i by omega, List.cons_append, List.getD_cons_succ] at this

theorem Machine.HasString.drop (h : m.HasString d a s) (hn : n ≤ s.length) :
    m.HasString d (a + n) (s.drop n) := by
  induction n generalizing a s with
  | zero => exact h
  | succ n ih =>
    cases s with
    | nil => simp at hn
    | cons c s =>
      have := ih h.tail (by rw [List.length_cons] at hn; omega)
      rwa [show a + 1 + n = a + (n + 1) by omega] at this

theorem Machine.HasString.unique (h : m.HasString d a s) (h' : m.HasString d a t) : s = t := by
  induction s generalizing a t with
  | nil =>
    cases t with
    | nil => rfl
    | cons c t =>
      have h1 := h.bytes 0 le_rfl
      have h2 := h'.bytes 0 (Nat.zero_le _)
      rw [h1] at h2
      exact absurd h2.symm (h'.nonzero c (List.mem_cons_self ..))
  | cons c s ih =>
    cases t with
    | nil =>
      have h1 := h.bytes 0 (Nat.zero_le _)
      have h2 := h'.bytes 0 le_rfl
      rw [h1] at h2
      exact absurd h2 (h.nonzero c (List.mem_cons_self ..))
    | cons c' t =>
      have h1 := h.bytes 0 (Nat.zero_le _)
      have h2 := h'.bytes 0 (Nat.zero_le _)
      rw [h1] at h2
      have hc : c = c' := h2
      rw [hc, ih h.tail h'.tail]

theorem Machine.HasString.first (h : m.HasString d a s) :
    d.permits a false false = true ∧ m.byteAt d a = (s ++ [0]).getD 0 0 :=
  ⟨h.readable 0 (Nat.zero_le _), h.bytes 0 (Nat.zero_le _)⟩

end

section
variable {p : Fin NPROC} {new : Option PgDir} {k : Kernel} {d : PgDir} {a n : Nat}
  {s : List UInt8}

section
variable (hd : k.activeDir new = some d)
include hd

theorem loadUser_permitted (hp : d.permits a false false = true) :
    loadUser p new 0x100000000 k a = .ok (k.mach.byteAt d a, k) := by
  change loadUser p new (0xFFFFFFFF + 1) k a = _
  rw [loadUser, hd]
  dsimp only
  rw [if_pos hp]
  rfl

section
variable (h : k.mach.HasString d a s)
include h

theorem scanStr_string (n : Nat) :
    scanStr p new n k a = .ok ((s.take n, decide (s.length < n)), k) := by
  induction n generalizing a s with
  | zero => rfl
  | succ n ih =>
    obtain ⟨hread, hbyte⟩ := h.first
    rw [scanStr, loadUser_permitted hd hread, hbyte]
    cases s with
    | nil => rfl
    | cons c s =>
      have hnext : (a + 1) % 0x100000000 = a + 1 := by
        have := h.bound
        rw [List.length_cons] at this
        omega
      have hrest := ih h.tail
      have hc : c ≠ 0 := h.nonzero c (List.mem_cons_self ..)
      change (if c = 0 then _ else _) = _
      rw [if_neg hc, hnext, bind_of_ok hrest]
      simp only [List.take_succ_cons, List.length_cons, Nat.add_lt_add_iff_right]
      rfl

theorem loadStr_string : loadStr p new k a = .ok (s, k) := by
  have hlen : s.length < 0x100000000 := by
    have := h.bound
    omega
  refine (bind_of_ok (scanStr_string hd h 0x100000000)).trans ?_
  dsimp only
  rw [decide_eq_true hlen, List.take_of_length_le (by omega)]
  rfl

theorem strlen_string : strlen p new k a = .ok (s.length, k) :=
  bind_of_ok (loadStr_string hd h)

theorem loadBytes_string : loadBytes p new (s.length + 1) k a = .ok (s ++ [0], k) := by
  induction s generalizing a with
  | nil =>
    obtain ⟨hread, hbyte⟩ := h.first
    rw [List.length_nil, loadBytes, loadUser_permitted hd hread, hbyte]
    rfl
  | cons c s ih =>
    obtain ⟨hread, hbyte⟩ := h.first
    have hnext : (a + 1) % 0x100000000 = a + 1 := by
      have := h.bound
      rw [List.length_cons] at this
      omega
    rw [List.length_cons, loadBytes, loadUser_permitted hd hread, hbyte]
    change (loadBytes p new (s.length + 1) k ((a + 1) % 0x100000000) >>= fun r =>
      pure (c :: r.1, r.2)) = _
    rw [hnext, bind_of_ok (ih h.tail)]
    rfl

end

end

theorem drop_component (s : List UInt8) :
    s.drop (s.length - (s.reverse.takeWhile (· ≠ 47)).length) =
      (s.reverse.takeWhile (· ≠ 47)).reverse := by
  have hsplit := congrArg List.reverse (List.takeWhile_append_dropWhile (p := (· ≠ 47)) (l := s.reverse))
  rw [List.reverse_append, List.reverse_reverse] at hsplit
  generalize s.reverse.takeWhile (· ≠ 47) = t at *
  generalize s.reverse.dropWhile (· ≠ 47) = u at *
  rw [← hsplit, List.length_append, List.length_reverse, List.length_reverse,
    show u.length + t.length - t.length = u.reverse.length by rw [List.length_reverse]; omega,
    List.drop_left]

theorem loadName_string (hd : k.activeDir new = some d) (h : k.mach.HasString d a s) :
    loadName p new k a = .ok (lastComponent s, k) := by
  refine (bind_of_ok (loadStr_string hd h)).trans ?_
  dsimp only
  have hle : (s.reverse.takeWhile (· ≠ 47)).length ≤ s.length := by
    have := (List.takeWhile_sublist (l := s.reverse) (p := (· ≠ 47))).length_le
    rwa [List.length_reverse] at this
  have hlast := h.drop (n := s.length - (s.reverse.takeWhile (· ≠ 47)).length) (by omega)
  rw [drop_component] at hlast
  have hbound : (a + (s.length - (s.reverse.takeWhile (· ≠ 47)).length)) % 0x100000000 =
      a + (s.length - (s.reverse.takeWhile (· ≠ 47)).length) := by
    have := h.bound
    omega
  rw [hbound]
  exact bind_of_ok (scanStr_string hd hlast 15)

end

def Machine.Beside (m m' : Machine) (top : Frame) : Prop :=
  m'.cr3 = m.cr3 ∧ ∀ y, y ≠ top → m'.mem y = m.mem y

/-- With machine `m`, reading `path` and `argv` through CR3 gives `s` and `strs`, whatever the
stack page holds. -/
structure Sees (k : Kernel) (d : PgDir) (m : Machine) (top : Frame) (path : Nat) (s : List UInt8)
    (argv : List Nat) (strs : List (List UInt8)) (e : PgDir) : Prop where
  dir : { k with mach := m }.activeDir (some d) = some e
  path : ∀ m', m.Beside m' top → m'.HasString e path s
  argv : ∀ m', m.Beside m' top → List.Forall₂ (m'.HasString e) argv strs

section
variable {p : Fin NPROC} {k : Kernel} {d e : PgDir} {m m' : Machine} {top : Frame}
  {path base sp : Nat} {s : List UInt8} {argv ustack : List Nat} {strs : List (List UInt8)}

theorem activeDir_congr {new : Option PgDir} (h : m'.cr3 = m.cr3) :
    { k with mach := m' }.activeDir new = { k with mach := m }.activeDir new := by
  unfold Kernel.activeDir Kernel.dirAt
  rw [h]

/-- Pushing the strings at some addresses is pushing the strings that are read there. -/
theorem pushStrings_eq {m0 : Machine} (hstack : StackPage d base top)
    (hdir : { k with mach := m0 }.activeDir (some d) = some e)
    (hsee : ∀ m', m0.Beside m' top → List.Forall₂ (m'.HasString e) argv strs)
    (hm : m0.Beside m top) (hsp : base ≤ sp ∧ sp ≤ base + 4096) (hal : sp % 4 = 0) :
    pushStrings p argv { k with mach := m } d sp ustack =
      (fun r => (r.1, { k with mach := r.2 })) <$> pushArgs strs m d sp ustack := by
  induction argv generalizing strs m sp ustack with
  | nil =>
    cases hsee m hm
    rfl
  | cons a argv ih =>
    have hall := hsee m hm
    cases strs with
    | nil => cases hall
    | cons s strs =>
      cases hall with
      | cons hfirst hrest =>
        have hd : { k with mach := m }.activeDir (some d) = some e :=
          (activeDir_congr hm.1).trans hdir
        rw [pushStrings, pushArgs]
        split
        · rfl
        refine (bind_of_ok (strlen_string hd hfirst)).trans ?_
        refine (bind_of_ok (strlen_string hd hfirst)).trans ?_
        refine (bind_of_ok (loadBytes_string hd hfirst)).trans ?_
        dsimp only
        cases hc : copyout m d ((sp + 0x100000000 - (s.length + 1)) % 0x100000000 / 4 * 4)
            (s ++ [0]) with
        | error h => rfl
        | ok r =>
          obtain ⟨ok, m1⟩ := r
          cases ok with
          | false => rfl
          | true =>
            obtain ⟨hlo, hend, hal1, hm1⟩ := hstack.copyout hsp hal (by simp) (by simp) hc
            have hbeside : m0.Beside m1 top := by
              refine ⟨by rw [hm1]; exact hm.1, fun y hy => ?_⟩
              rw [hm1, ← hm.2 y hy]
              funext o
              rw [Machine.mem_write, if_neg fun hc => hy hc.1]
            exact ih (fun m' hm' => by cases hsee m' hm' with | cons _ h => exact h)
              hbeside ⟨hlo, by omega⟩ hal1

def stringStack (s : List UInt8) (strs : List (List UInt8)) (k : Kernel) (d : PgDir) (sz : Nat) :
    Except Halt (Option (Nat × Nat × List UInt8) × PgDir × Kernel) :=
  (fun r => (r.1.map fun x => (x.1, x.2, lastComponent s), r.2.1, { k with mach := r.2.2 })) <$>
    buildStack k.mach d sz strs

theorem userStack_eq {sz : Nat} (hsz : sz < 0x80000000)
    (h : ∀ sz' d1 m1 d', allocuvm k.mach d (pgroundup sz) (pgroundup sz + 2 * 4096) =
      .ok (sz', d1, m1) → sz' ≠ 0 → clearpteu d1 (sz' - 2 * 4096) = .ok d' →
      ∀ top, StackPage d' (sz' - 4096) top → ∃ e, Sees k d' m1 top path s argv strs e) :
    userStack p path argv k d sz = stringStack s strs k d sz := by
  unfold userStack stringStack buildStack
  rw [map_bind]
  refine bind_congr_ok fun ⟨sz', d1, m1⟩ ha => ?_
  by_cases hne : sz' = 0
  · subst hne
    rfl
  dsimp only
  rw [if_neg hne, if_neg hne, map_bind]
  refine bind_congr_ok fun d' hc => ?_
  obtain ⟨hroom, haligned, top, hpage⟩ := exists_stackPage hsz ha hne hc
  obtain ⟨e, hsees⟩ := h sz' d1 m1 d' ha hne hc top hpage
  rw [pushStrings_eq hpage hsees.dir hsees.argv ⟨rfl, fun _ _ => rfl⟩ ⟨by omega, by omega⟩
    (by omega), map_bind, bind_map_left]
  refine bind_congr_ok fun ⟨r, m2⟩ hp => ?_
  cases r with
  | none => rfl
  | some r =>
    obtain ⟨sp1, us⟩ := r
    obtain ⟨hlo1, hle1, hal1, hframe1, -⟩ := hpage.pushArgs ⟨by omega, by omega⟩ (by omega) hp
    have hm2 := pushArgs_spec hp
    dsimp only
    rw [map_bind]
    refine bind_congr_ok fun ⟨ok, m3⟩ hw => ?_
    cases ok with
    | false => rfl
    | true =>
      have hlen := length_stackWords us
        ((sp1 + 0x100000000 - (us.length + 1) * 4) % 0x100000000)
      obtain ⟨-, -, -, hm3⟩ := hpage.copyout ⟨hlo1, by omega⟩ hal1 (by omega)
        (by rw [hlen]; omega) hw
      have hbeside : m1.Beside m3 top := by
        refine ⟨by rw [hm3, hm2]; rfl, fun y hy => ?_⟩
        funext o
        rw [hm3, Machine.mem_write, if_neg fun hc => hy hc.1, hframe1 y o (Or.inl hy)]
      have hdir : { k with mach := m3 }.activeDir (some d') = some e :=
        (activeDir_congr hbeside.1).trans hsees.dir
      exact bind_of_ok (loadName_string hdir (hsees.path m3 hbeside))

theorem exec_eq_execWith (k : Kernel) (p : Fin NPROC) (ip : Option Nat) (s : List UInt8)
    (strs : List (List UInt8)) (slept : Nat → Bool) :
    exec k p ip s strs slept = execWith p (stringStack s strs) k ip slept := by
  cases ip with
  | none => rfl
  | some i =>
    unfold exec execWith
    refine bind_congr fun fs1 => bind_congr fun fs2 => ?_
    dsimp only
    split
    · rfl
    refine bind_congr fun r => ?_
    obtain ⟨d, m⟩ := r
    cases d with
    | none => rfl
    | some d =>
      refine bind_congr fun r => ?_
      obtain ⟨ok, l⟩ := r
      dsimp only
      split
      · rfl
      refine bind_congr fun fs3 => ?_
      unfold stringStack
      dsimp only
      cases buildStack (if slept l.reads then l.mach.lcr3 (k.proc p).pgdir.frame
          else l.mach) l.d l.sz strs with
      | error h => rfl
      | ok r =>
        obtain ⟨r, d', m'⟩ := r
        cases r with
        | none => rfl
        | some r => rfl

theorem execWith_congr {i : Nat} {slept : Nat → Bool}
    {f g : Kernel → PgDir → Nat → Except Halt (Option (Nat × Nat × List UInt8) × PgDir × Kernel)}
    (h : ∀ fs fs' m d l, ExecLoads k p i slept fs m d true l →
      f { k with mach := l.mach.resume (slept l.reads) (k.proc p).pgdir.frame, fs := fs' } l.d l.sz =
        g { k with mach := l.mach.resume (slept l.reads) (k.proc p).pgdir.frame, fs := fs' }
          l.d l.sz) :
    execWith p f k (some i) slept = execWith p g k (some i) slept := by
  refine bind_congr_ok fun fs1 hdup => bind_congr_ok fun fs2 hlock => ?_
  rcases hr : readi fs2 (some i) 0 52 with ⟨elf, fs3⟩
  obtain ⟨hbytes, hinode⟩ := readi_locked hdup hlock hr
  have hhdr : elf.getD [] = k.fs.header i := by rw [Files.header, hbytes]
  simp only [hhdr]
  split
  · rfl
  refine bind_congr_ok fun r hs => ?_
  obtain ⟨r, m⟩ := r
  cases r with
  | none => rfl
  | some d =>
    refine bind_congr_ok fun r hl => ?_
    obtain ⟨ok, l⟩ := r
    cases ok with
    | false => rfl
    | true =>
      refine bind_congr fun fs4 => ?_
      have hsame := h fs3 fs4 m d l ⟨hs, hinode, hl⟩
      unfold Machine.resume at hsame
      dsimp only
      rw [hsame]

end

end Xv6
