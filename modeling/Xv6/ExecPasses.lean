import Xv6.ExecArgs

/-!
Which page directory is in CR3 when `exec` reads the arguments. Each page `loaduvm` reads puts
the new directory there, and each read in which the process is switched out brings its own one
back. `exec` passes the arguments of the caller when the last of these was a switch.
-/

namespace Xv6

open Lib Kernel

/-- The directory of the caller is in CR3 when `exec` reads the arguments: after the last page
of the file the process was switched out, or no page was loaded. -/
def ownAtArguments (slept : Nat → Bool) (data : List UInt8) : Bool :=
  let s := ownAfter slept data (field (data.take 52) 44 2) (field (data.take 52) 28 4) true 1
  s.1 || slept s.2

section
variable {own : Frame} {slept : Nat → Bool} {i : Nat} {m0 : Machine} {xs : List Frame}
  {l l' : Loading} {data : List UInt8} {x : Frame}

end

/-- A process that makes a system call: its pages up to `sz` are there, and the frames are where
they belong. -/
structure Kernel.Caller (k : Kernel) (p : Fin NPROC) : Prop where
  safe : k.holding.Safe
  live : (k.proc p).live
  size : (k.proc p).sz < 0x80000000
  pages : ∀ v, v * 4096 < (k.proc p).sz → ((k.proc p).pgdir.entry v).p = true

section
variable {k k' : Kernel} {p : Fin NPROC} {d : PgDir} {a n : Nat} {new : Option PgDir}

theorem Kernel.Caller.readable (h : k.Caller p) (ha : a < (k.proc p).sz) :
    (k.proc p).pgdir.permits a false false = true := by
  have hsz := h.size
  have hp := h.pages (a / 4096) (by omega)
  rw [PgDir.permits, PgDir.walk_of_present (by omega) hp]
  simp [hp]

theorem Kernel.Caller.notMem_free (h : k.Caller p) (ha : a < (k.proc p).sz) :
    ((k.proc p).pgdir.place a).1 ∉ k.mach.kmem.free := by
  have hsz := h.size
  intro hfree
  exact h.safe.apart (p, a / 4096) _ ⟨h.live, by omega, h.pages (a / 4096) (by omega), rfl⟩
    (mem_total_of_free hfree)

section
variable (hd : k.activeDir new = some d) (hread : ∀ j < n, d.permits (a + j) false false = true)
  (hbound : a + n < 0x100000000)
include hd hread hbound

theorem scanStr_ok {s : List UInt8} {ok : Bool} (h : scanStr p new n k a = .ok ((s, ok), k')) :
    k' = k ∧ (ok = true → k.mach.HasString d a s ∧ s.length < n) := by
  induction n generalizing a s with
  | zero =>
    cases h
    exact ⟨rfl, nofun⟩
  | succ n ih =>
    have hfirst := hread 0 (Nat.succ_pos n)
    rw [Nat.add_zero] at hfirst
    rw [scanStr, loadUser_permitted hd hfirst] at h
    change (if k.mach.byteAt d a = 0 then _ else _) = _ at h
    split at h
    · rename_i hzero
      cases h
      refine ⟨rfl, fun _ => ⟨⟨by simp, by simp; omega, fun i hi => ?_, fun i hi => ?_⟩, by simp⟩⟩
      · obtain rfl : i = 0 := by simpa using hi
        exact hfirst
      · obtain rfl : i = 0 := by simpa using hi
        exact hzero
    rename_i hne
    have hnext : (a + 1) % 0x100000000 = a + 1 := by omega
    rw [hnext] at h
    obtain ⟨⟨⟨cs, ok'⟩, k1⟩, hrest, h⟩ := bind_eq_ok.mp h
    cases h
    obtain ⟨rfl, hstr⟩ := ih (fun j hj => by
      have := hread (j + 1) (by omega)
      rwa [show a + (j + 1) = a + 1 + j by omega] at this) (by omega) hrest
    refine ⟨rfl, fun hok => ?_⟩
    obtain ⟨hs, hlen⟩ := hstr hok
    have hb := hs.bound
    refine ⟨⟨fun c hc => ?_, by rw [List.length_cons]; omega, fun i hi => ?_, fun i hi => ?_⟩,
      by rw [List.length_cons]; omega⟩
    · rcases List.mem_cons.mp hc with rfl | hc
      · exact hne
      · exact hs.nonzero c hc
    · rw [List.length_cons] at hi
      exact hread i (by omega)
    · cases i with
      | zero => rfl
      | succ i =>
        rw [List.length_cons] at hi
        have := hs.bytes i (by omega)
        rwa [show a + 1 + i = a + (i + 1) by omega] at this

theorem loadBytes_present :
    loadBytes p new n k a = .ok ((List.range' a n).map (k.mach.byteAt d), k) := by
  induction n generalizing a with
  | zero => rfl
  | succ n ih =>
    have hfirst := hread 0 (Nat.succ_pos n)
    rw [Nat.add_zero] at hfirst
    have hnext : (a + 1) % 0x100000000 = a + 1 := by omega
    have hrest := ih (a := a + 1) (fun j hj => by
      have := hread (j + 1) (by omega)
      rwa [show a + (j + 1) = a + 1 + j by omega] at this) (by omega)
    rw [loadBytes, loadUser_permitted hd hfirst]
    change (loadBytes p new n k ((a + 1) % 0x100000000) >>= fun r =>
      pure (k.mach.byteAt d a :: r.1, r.2)) = _
    rw [hnext, bind_of_ok hrest]
    rfl

end

end

/-- The string `s` is at address `a` of process `p`, below its size. -/
structure Kernel.Denotes (k : Kernel) (p : Fin NPROC) (a : Nat) (s : List UInt8) : Prop where
  string : k.mach.HasString (k.proc p).pgdir a s
  below : a + s.length < (k.proc p).sz

section
variable {k k' : Kernel} {p : Fin NPROC} {a n : Nat}

section
variable (h : k.Caller p) (hown : k.mach.cr3 = (k.proc p).pgdir.frame)
include h hown

theorem Kernel.Caller.activeDir : k.activeDir none = some (k.proc p).pgdir := by
  rw [Kernel.activeDir, hown]
  exact dirAt_proc h.safe h.live

theorem fetchint_present (ha : a + 4 ≤ (k.proc p).sz) : fetchint p k a =
      .ok (some (field ((List.range' a 4).map (k.mach.byteAt (k.proc p).pgdir)) 0 4), k) := by
  have hsz := h.size
  unfold fetchint
  rw [if_neg (by omega), loadBytes_present (h.activeDir hown) (fun j hj => h.readable (by omega))
    (by omega)]
  rfl

theorem fetchint_ok {r : Option Nat} (hf : fetchint p k a = .ok (r, k')) : k' = k := by
  have hsz := h.size
  by_cases ha : (k.proc p).sz ≤ a ∨ (k.proc p).sz < (a + 4) % 0x100000000
  · unfold fetchint at hf
    rw [if_pos ha] at hf
    cases hf
    rfl
  · rw [fetchint_present h hown (by omega)] at hf
    cases hf
    rfl

theorem fetchstr_present {s : List UInt8} (hs : k.Denotes p a s) :
    fetchstr p k a = .ok (true, k) := by
  have hbelow := hs.below
  unfold fetchstr
  rw [if_neg (by omega), scanStr_string (h.activeDir hown) hs.string, decide_eq_true (by omega)]
  rfl

theorem fetchstr_ok {ok : Bool}
    (hf : fetchstr p k a = .ok (ok, k')) : k' = k ∧ (ok = true → ∃ s, k.Denotes p a s) := by
  have hsz := h.size
  unfold fetchstr at hf
  split at hf
  · cases hf
    exact ⟨rfl, nofun⟩
  · obtain ⟨⟨⟨s, ok'⟩, k1⟩, hl, hf⟩ := bind_eq_ok.mp hf
    cases hf
    obtain ⟨rfl, hs⟩ := scanStr_ok (h.activeDir hown) (fun j hj => h.readable (by omega)) (by omega) hl
    exact ⟨rfl, fun hok => ⟨s, (hs hok).1, by have := (hs hok).2; omega⟩⟩

theorem fetchArgs_ok {r : Option (List Nat)} (hf : fetchArgs p n k a = .ok (r, k')) :
    k' = k ∧ ∀ argv, r = some argv → ∃ strs, List.Forall₂ (k.Denotes p) argv strs := by
  induction n generalizing a r with
  | zero =>
    cases hf
    exact ⟨rfl, nofun⟩
  | succ n ih =>
    rw [fetchArgs] at hf
    obtain ⟨⟨u, k1⟩, hint, hf⟩ := bind_eq_ok.mp hf
    obtain rfl := fetchint_ok h hown hint
    cases u with
    | none =>
      cases hf
      exact ⟨rfl, nofun⟩
    | some uarg =>
      dsimp only at hf
      split at hf
      · cases hf
        refine ⟨rfl, fun argv he => ?_⟩
        cases he
        exact ⟨[], .nil⟩
      obtain ⟨⟨ok, k2⟩, hstr, hf⟩ := bind_eq_ok.mp hf
      obtain ⟨rfl, hs⟩ := fetchstr_ok h hown hstr
      cases ok with
      | false =>
        cases hf
        exact ⟨rfl, nofun⟩
      | true =>
        obtain ⟨⟨rest, k3⟩, hrest, hf⟩ := bind_eq_ok.mp hf
        cases hf
        obtain ⟨rfl, hall⟩ := ih hrest
        refine ⟨rfl, fun argv he => ?_⟩
        cases rest with
        | none => cases he
        | some rest =>
          cases he
          obtain ⟨s, hs⟩ := hs rfl
          obtain ⟨strs, hall⟩ := hall rest rfl
          exact ⟨s :: strs, .cons hs hall⟩

theorem fetchExec_ok {path : Nat}
    {argv : List Nat} (hf : fetchExec p k = .ok (some (path, argv), k')) :
    k' = k ∧ (∃ s, k.Denotes p path s) ∧ ∃ strs, List.Forall₂ (k.Denotes p) argv strs := by
  obtain ⟨⟨u, k1⟩, hint, hf⟩ := bind_eq_ok.mp hf
  obtain rfl := fetchint_ok h hown hint
  cases u with
  | none => cases hf
  | some path' =>
    obtain ⟨⟨ok, k2⟩, hstr, hf⟩ := bind_eq_ok.mp hf
    obtain ⟨rfl, hs⟩ := fetchstr_ok h hown hstr
    cases ok with
    | false => cases hf
    | true =>
      obtain ⟨⟨u, k3⟩, hint', hf⟩ := bind_eq_ok.mp hf
      obtain rfl := fetchint_ok h hown hint'
      cases u with
      | none => cases hf
      | some uargv =>
        obtain ⟨⟨r, k4⟩, hargs, hf⟩ := bind_eq_ok.mp hf
        obtain ⟨rfl, hall⟩ := fetchArgs_ok h hown hargs
        cases r with
        | none => cases hf
        | some argv' =>
          cases hf
          exact ⟨rfl, hs rfl, hall argv rfl⟩

end

theorem Machine.HasString.congr {m m' : Machine} {d : PgDir} {s : List UInt8}
    (h : m.HasString d a s)
    (hmem : ∀ i ≤ s.length, m'.mem (d.place (a + i)).1 = m.mem (d.place (a + i)).1) :
    m'.HasString d a s :=
  ⟨h.nonzero, h.bound, h.readable, fun i hi => by
    rw [Machine.byteAt, hmem i hi]
    exact h.bytes i hi⟩

/-- Memory taken from the free list does not disturb the strings of the caller. -/
theorem Kernel.Denotes.kept {m : Machine} {s : List UInt8} (h : k.Denotes p a s) (hc : k.Caller p)
    (hmem : ∀ x, x ∉ k.mach.kmem.free → m.mem x = k.mach.mem x) :
    m.HasString (k.proc p).pgdir a s :=
  h.string.congr fun i hi => hmem _ (hc.notMem_free (by have := h.below; omega))

/-- The machine `m` and the new directory `d` when `exec` starts to read the arguments. -/
structure AtArguments (k : Kernel) (p : Fin NPROC) (data : List UInt8) (own : Bool) (m : Machine)
    (d : PgDir) (xs : List Frame) : Prop where
  built : Built (k.proc p).pgdir.frame k.mach m d xs []
  image : Imaged m d xs (elfImage data) ((elfSegments data).foldl Segment.grant fun _ => none)
  stack : ∀ a, xs.length * 4096 ≤ a + 8192 → elfImage data a = 0
  cr3 : m.cr3 = if own then (k.proc p).pgdir.frame else d.frame
  mem : ∀ x, x ∉ k.mach.kmem.free → m.mem x = k.mach.mem x

theorem atArguments {i sz : Nat} {slept : Nat → Bool} {fs : Files} {m m1 : Machine}
    {d d1 d' : PgDir} {l : Loading} (hc : k.Caller p)
    (hown : k.mach.cr3 = (k.proc p).pgdir.frame) (hfile : (k.fs.inode i).type ≠ 3)
    (hl : ExecLoads k p i slept fs m d true l)
    (ha : allocuvm (l.mach.resume (slept l.reads) (k.proc p).pgdir.frame) l.d (pgroundup l.sz)
      (pgroundup l.sz + 2 * 4096) = .ok (sz, d1, m1)) (hne : sz ≠ 0)
    (hclear : clearpteu d1 (sz - 2 * 4096) = .ok d') :
    ∃ xs, AtArguments k p (k.fs.inode i).data (ownAtArguments slept (k.fs.inode i).data) m1 d' xs ∧
      xs.length = sizePages sz ∧ l.sz < 0x80000000 := by
  have hm : m.cr3 = (k.proc p).pgdir.frame ∧ m.mem = k.mach.mem := by
    rcases setupkvm_spec hl.kvm with ⟨-, -, hm, -⟩ | ⟨hnone, -⟩
    · rw [hm]
      refine ⟨?_, resume_mem ..⟩
      change (k.mach.resume (slept 0) (k.proc p).pgdir.frame).cr3 = _
      rcases resume_cr3 k.mach (slept 0) (k.proc p).pgdir.frame with he | he
      · exact he.trans hown
      · exact he
    · cases hnone
  obtain ⟨xs, xs', hs, hb, hi, hlen, hsize, hcr3, hframe, hkept⟩ :=
    exec_stacked (nodup_freelist hc.safe) hfile hl ha hne hclear
  obtain ⟨hreads, hsegs⟩ := hs.cr3 true hm.1
  -- the last read
  have hres : (l.mach.resume (slept l.reads) (k.proc p).pgdir.frame).cr3 =
      if ownAtArguments slept (k.fs.inode i).data then (k.proc p).pgdir.frame else l.d.frame := by
    have hlast : ownAtArguments slept (k.fs.inode i).data =
        ((ownAfter slept (k.fs.inode i).data (field ((k.fs.inode i).data.take 52) 44 2)
          (field ((k.fs.inode i).data.take 52) 28 4) true 1).1 || slept l.reads) := by
      rw [hreads]
      rfl
    rw [hlast]
    cases hslept : slept l.reads with
    | true =>
      rw [Bool.or_true]
      rfl
    | false =>
      rw [Bool.or_false]
      exact hsegs
  refine ⟨xs', ⟨hb, hi, fun a ha => hs.image.above a ?_, ?_, fun x hx => ?_⟩, ?_, hs.size⟩
  · rw [hlen, Nat.add_mul] at ha
    exact Nat.le_of_add_le_add_right ha
  · rw [hcr3, hres, hframe]
  · rw [hkept x hx, hs.mem x hx, hm.2]
  · rw [← hsize]
    unfold sizePages pagesTo
    omega

theorem AtArguments.top {data : List UInt8} {own : Bool} {m : Machine} {d : PgDir}
    {xs : List Frame} {sz : Nat} {top : Frame} (h : AtArguments k p data own m d xs)
    (hxs : xs.length = sizePages sz) (hpage : StackPage d (sz - 4096) top) :
    ∃ hlt : (sz - 4096) / 4096 < xs.length, top = xs.get ⟨(sz - 4096) / 4096, hlt⟩ := by
  have hlow := hpage.low
  have hlt : (sz - 4096) / 4096 < xs.length := by
    rw [hxs]
    unfold sizePages pagesTo
    omega
  exact ⟨hlt, by rw [← hpage.frame, h.built.ppn _ hlt]⟩

theorem execUser_eq_exec {i path : Nat} {argv : List Nat} {s : List UInt8}
    {strs : List (List UInt8)} {slept : Nat → Bool} (hc : k.Caller p)
    (hown : k.mach.cr3 = (k.proc p).pgdir.frame) (hfile : (k.fs.inode i).type ≠ 3)
    (hargs : ownAtArguments slept (k.fs.inode i).data = true) (hpath : k.Denotes p path s)
    (hargv : List.Forall₂ (k.Denotes p) argv strs) :
    execUser p k (some i) path argv slept = exec k p (some i) s strs slept := by
  rw [exec_eq_execWith]
  refine execWith_congr fun fs fs' m d l hl => ?_
  obtain ⟨-, -, -, hsz⟩ := hl.built
  refine userStack_eq hsz fun sz d1 m1 d' ha hne hclear top hpage => ?_
  obtain ⟨xs, hat, hxs, -⟩ := atArguments hc hown hfile hl ha hne hclear
  have hcr3 := hat.cr3
  rw [hargs, if_pos rfl] at hcr3
  obtain ⟨hlt, rfl⟩ := hat.top hxs hpage
  have hall : ∀ m', m1.Beside m' (xs.get ⟨(sz - 4096) / 4096, hlt⟩) →
      ∀ x, x ∉ k.mach.kmem.free → m'.mem x = k.mach.mem x := by
    intro m' hm' x hx
    rw [hm'.2 x fun he => hx (by rw [he]; exact hat.built.mem_free (List.get_mem ..)), hat.mem x hx]
  have hdir : d'.frame ≠ (k.proc p).pgdir.frame := by
    intro he
    have hfree : d'.frame ∈ k.mach.kmem.free := by
      rw [hat.built.free]
      simp [PgDir.frames]
    refine notMem_owned_of_free hc.safe hfree (p := p) ?_
    rw [he]
    exact frame_mem_owned hc.live
  refine ⟨(k.proc p).pgdir, ?_, fun m' hm' => hpath.kept hc (hall m' hm'), fun m' hm' =>
    hargv.imp fun a s h => h.kept hc (hall m' hm')⟩
  change (if d'.frame = m1.cr3 then some d' else k.dirAt m1.cr3) = _
  rw [hcr3, if_neg hdir]
  exact dirAt_proc hc.safe hc.live

end

def Kernel.byte (k : Kernel) (p : Fin NPROC) (a : Nat) : UInt8 :=
  k.mach.byteAt (k.proc p).pgdir a

def Kernel.word (k : Kernel) (p : Fin NPROC) (a : Nat) : Nat := leAt (k.byte p) a 4

/-- The new program `k'` of process `p` has the arguments that its caller `k` gave to `exec`:
`argc`, `argv` and the strings are in the stack page, and the name is the one of the path. -/
structure ArgsPassed (k : Kernel) (p : Fin NPROC) (path : Nat) (argv : List Nat) (k' : Kernel) :
    Prop where
  bottom : (k'.proc p).sz ≤ (k'.proc p).tf.esp + 4096
  argc : k'.word p ((k'.proc p).tf.esp + 4) = argv.length
  array : (k'.proc p).tf.esp ≤ k'.word p ((k'.proc p).tf.esp + 8) ∧
    k'.word p ((k'.proc p).tf.esp + 8) + 4 * (argv.length + 1) ≤ (k'.proc p).sz
  terminated : k'.word p (k'.word p ((k'.proc p).tf.esp + 8) + 4 * argv.length) = 0
  strings : ∀ j (hj : j < argv.length), ∃ s, k.Denotes p (argv.get ⟨j, hj⟩) s ∧
    (k'.proc p).tf.esp ≤ k'.word p (k'.word p ((k'.proc p).tf.esp + 8) + 4 * j) ∧
    k'.word p (k'.word p ((k'.proc p).tf.esp + 8) + 4 * j) + (s.length + 1) ≤ (k'.proc p).sz ∧
    ∀ i ≤ s.length, k'.byte p (k'.word p (k'.word p ((k'.proc p).tf.esp + 8) + 4 * j) + i) =
      (s ++ [0]).getD i 0
  name : ∃ s, k.Denotes p path s ∧ (k'.proc p).name = lastComponent s

section
variable {k k' : Kernel} {p : Fin NPROC}

theorem Execed.words {data path : List UInt8} {argv : List (List UInt8)} {xs : List Frame}
    {top : Frame} {addrs : List Nat}
    (h : Execed data path argv k'.mach (k'.proc p) xs top addrs) :
    k'.word p ((k'.proc p).tf.esp + 4) = argv.length ∧
      k'.word p ((k'.proc p).tf.esp + 8) = (k'.proc p).tf.esp + 12 ∧
      (∀ j (hj : j < addrs.length),
        k'.word p ((k'.proc p).tf.esp + 12 + 4 * j) = addrs.get ⟨j, hj⟩) ∧
      k'.word p ((k'.proc p).tf.esp + 12 + 4 * argv.length) = 0 ∧
      (k'.proc p).tf.esp + (16 + 4 * argv.length) ≤ (k'.proc p).sz := by
  have hargs := h.args
  have hroom := h.room
  have hhigh := h.stack.high
  have hlo := hargs.inside
  have hfit := hargs.room
  have hlen := hargs.strings.length_eq
  have hcount : ([0xFFFFFFFF, argv.length, (k'.proc p).tf.esp + 12] ++ addrs ++ [0]).length =
      addrs.length + 4 := by
    simp only [List.length_append, List.length_cons, List.length_nil]
    omega
  have hword := fun j hj => h.stack.word (j := j) hargs.words hlo (by rw [hcount]; omega) hj
  have haddr : ∀ a ∈ addrs, a < 0x100000000 := by
    intro a ha
    obtain ⟨j, hj, rfl⟩ := List.getElem_of_mem ha
    have := (hargs.strings.get (by omega : j < argv.length) hj).2.1
    simp only [List.get_eq_getElem] at this
    omega
  have hargc : argv.length % 0x100000000 = argv.length := Nat.mod_eq_of_lt (by omega)
  have hesp : ((k'.proc p).tf.esp + 12) % 0x100000000 = (k'.proc p).tf.esp + 12 :=
    Nat.mod_eq_of_lt (by omega)
  refine ⟨?_, ?_, fun j hj => ?_, ?_, by omega⟩
  · exact (hword 1 (by rw [hcount]; omega)).trans hargc
  · exact (hword 2 (by rw [hcount]; omega)).trans hesp
  · have hj' := hword (3 + j) (by rw [hcount]; omega)
    rw [show (k'.proc p).tf.esp + 4 * (3 + j) = (k'.proc p).tf.esp + 12 + 4 * j by omega] at hj'
    refine hj'.trans ?_
    rw [List.get_eq_getElem, List.getElem_append_left (by simp; omega),
      List.getElem_append_right (by simp)]
    simp only [List.length_cons, List.length_nil, List.get_eq_getElem]
    have hsub : 3 + j - (0 + 1 + 1 + 1) = j := by omega
    simp only [hsub]
    exact Nat.mod_eq_of_lt (haddr _ (List.getElem_mem hj))
  · have hz := hword (3 + addrs.length) (by rw [hcount]; omega)
    rw [show (k'.proc p).tf.esp + 4 * (3 + addrs.length) =
      (k'.proc p).tf.esp + 12 + 4 * argv.length by omega] at hz
    refine hz.trans ?_
    rw [List.get_eq_getElem, List.getElem_append_right (by simp; omega)]
    simp

end

end Xv6
