import Xv6.ExecPasses

/-!
The arguments a new program gets. With the directory of the caller in CR3 they are the ones it
gave to `exec`; with the new directory there, `exec` follows the pointers of the caller into
the new image and passes what it finds in its place.
-/

namespace Xv6

open Function Lib Kernel

variable {data s : List UInt8} {a b path : Nat} {k : Kernel} {slept : Nat → Bool}
  {strs : List (List UInt8)} {p : Fin NPROC} {argv : List Nat}

structure ImageString (data : List UInt8) (a : Nat) (s : List UInt8) : Prop where
  nonzero : ∀ c ∈ s, c ≠ 0
  bytes : ∀ i ≤ s.length, elfImage data (a + i) = (s ++ [0]).getD i 0

theorem imageString_nil (h : elfImage data a = 0) : ImageString data a [] := by
  refine ⟨by simp, fun i hi => ?_⟩
  obtain rfl : i = 0 := by simpa using hi
  exact h

theorem exists_imageString (hab : a ≤ b) (hb : elfImage data b = 0) :
    ∃ s, ImageString data a s ∧ a + s.length ≤ b := by
  obtain ⟨n, rfl⟩ := Nat.exists_eq_add_of_le hab
  induction n generalizing a with
  | zero => exact ⟨[], imageString_nil hb, le_rfl⟩
  | succ n ih =>
    by_cases hfirst : elfImage data a = 0
    · exact ⟨[], imageString_nil hfirst, by simp⟩
    obtain ⟨s, hs, hlen⟩ := ih (a := a + 1) (by omega)
      (by rwa [show a + 1 + n = a + (n + 1) by omega])
    refine ⟨elfImage data a :: s, ⟨fun c hc => ?_, fun i hi => ?_⟩, ?_⟩
    · rcases List.mem_cons.mp hc with rfl | hc
      · exact hfirst
      · exact hs.nonzero c hc
    · cases i with
      | zero => rfl
      | succ i =>
        rw [List.length_cons] at hi
        have := hs.bytes i (by omega)
        rwa [show a + 1 + i = a + (i + 1) by omega] at this
    · rw [List.length_cons]
      omega

theorem exists_elfImage_zero (data : List UInt8) : ∃ b, ∀ a, b ≤ a → elfImage data a = 0 := by
  have hall : ∀ (segs : List Segment) (img : Nat → UInt8), (∃ b, ∀ a, b ≤ a → img a = 0) →
      ∃ b, ∀ a, b ≤ a → segs.foldl (Segment.overlay data) img a = 0 := by
    intro segs
    induction segs with
    | nil => exact fun _ h => h
    | cons s segs ih =>
      rintro img ⟨b, hb⟩
      refine ih _ ⟨max b (s.vaddr + ((data.drop s.off).take s.filesz).length), fun a ha => ?_⟩
      rw [Segment.overlay, splice, if_neg (by omega)]
      exact hb a (by omega)
  exact hall _ _ ⟨0, fun _ _ => rfl⟩

theorem ImageString.le (h : ImageString data a s) (hab : a ≤ b) (hb : elfImage data b = 0) :
    a + s.length ≤ b := by
  by_contra hlt
  have hin := h.bytes (b - a) (by omega)
  rw [show a + (b - a) = b by omega, hb, List.getD_append _ _ _ _ (by omega),
    List.getD_eq_getElem _ _ (by omega)] at hin
  exact h.nonzero _ (List.getElem_mem _) hin.symm

section
variable {k k' : Kernel} {p : Fin NPROC} {i path : Nat} {argv : List Nat} {slept : Nat → Bool}

/-- A string of the image that starts in the first page, read through the new directory. -/
theorem AtArguments.string {own : Bool} {m m' : Machine} {d : PgDir} {xs : List Frame} {sz : Nat}
    {top : Frame} (h : AtArguments k p data own m d xs) (hfree : k.mach.kmem.freelist.Nodup)
    (hxs : xs.length = sizePages sz) (hpage : StackPage d (sz - 4096) top) (ha : a < 4096)
    (hs : ImageString data a s) (hm : m.Beside m' top) : m'.HasString d a s := by
  obtain ⟨hlt, rfl⟩ := h.top hxs hpage
  have hmax := h.built.length
  have hlow := hpage.low
  have haligned := hpage.aligned
  have hcount : (sz - 4096) / 4096 + 1 = xs.length ∧ 2 ≤ xs.length := by
    rw [hxs]
    unfold sizePages pagesTo
    omega
  have hend : a + s.length < (xs.length - 1) * 4096 := by
    have hzero := h.stack (max a ((xs.length - 2) * 4096)) (by omega)
    have := hs.le (le_max_left _ _) hzero
    omega
  refine ⟨hs.nonzero, by omega, fun i hi => ?_, fun i hi => ?_⟩
  · have hp : (d.entry ((a + i) / 4096)).p = true :=
      (h.built.present _ (by omega)).mpr (by omega)
    rw [PgDir.permits, PgDir.walk_of_present (by omega) hp]
    simp [hp]
  · have hidx : (a + i) / 4096 < xs.length := by omega
    have hne : xs.get ⟨(a + i) / 4096, hidx⟩ ≠ xs.get ⟨(sz - 4096) / 4096, hlt⟩ := by
      intro he
      have := Fin.val_eq_of_eq (List.nodup_iff_injective_get.mp (h.built.nodup hfree) he)
      dsimp only at this
      omega
    rw [← hs.bytes i hi, ← h.image.bytes (a + i) (by omega), Machine.byteAt, Machine.byteAt,
      h.built.place hidx, hm.2 _ hne]

/-- With the new directory in CR3, `exec` reads the strings of the new image. -/
theorem execUser_eq_exec_image (hc : k.Caller p) (hown : k.mach.cr3 = (k.proc p).pgdir.frame)
    (hfile : (k.fs.inode i).type ≠ 3) (hargs : ownAtArguments slept (k.fs.inode i).data = false)
    (hlow : path < 4096) (hpath : ImageString (k.fs.inode i).data path s)
    (hargv : List.Forall₂ (fun a s => a < 4096 ∧ ImageString (k.fs.inode i).data a s) argv strs) :
    execUser p k (some i) path argv slept = exec k p (some i) s strs slept := by
  rw [exec_eq_execWith]
  refine execWith_congr fun fs fs' m d l hl => ?_
  obtain ⟨-, -, -, hsz⟩ := hl.built
  refine userStack_eq hsz fun sz d1 m1 d' ha hne hclear top hpage => ?_
  obtain ⟨xs, hat, hxs, -⟩ := atArguments hc hown hfile hl ha hne hclear
  have hcr3 := hat.cr3
  rw [hargs, if_neg (by simp)] at hcr3
  refine ⟨d', ?_, fun m' hm' => hat.string (nodup_freelist hc.safe) hxs hpage hlow hpath hm', fun m' hm' =>
    hargv.imp fun a s h => hat.string (nodup_freelist hc.safe) hxs hpage h.1 h.2 hm'⟩
  change (if d'.frame = m1.cr3 then some d' else k.dirAt m1.cr3) = _
  rw [hcr3, if_pos rfl]

end

/-- The file can be loaded on the PC after boot. -/
structure Loadable (data : List UInt8) : Prop where
  length : data.length < 0x100000000
  header : IsElf (data.take 52)
  size : ∃ sz, segmentsSize data (field (data.take 52) 44 2) (field (data.take 52) 28 4) 0 = some sz ∧
    pgroundup sz + 8192 < 0x80000000 ∧ 1029 + sizePages sz ≤ 0xD5FC

/-- A page with the arguments of a call of `exec`, for the stack pointer 0: the path is the
string of `c`, and so is the one argument, if `arg` is its address 100. -/
def callPage (arg c : UInt8) : Nat → UInt8
  | 4 => 100
  | 8 => 16
  | 16 => arg
  | 100 => c
  | _ => 0

def Kernel.calling (k : Kernel) (x : Frame) (arg c : UInt8) : Kernel :=
  { k with mach := { k.mach with
      mem := update k.mach.mem x (callPage arg c)
      cr3 := (k.proc 0).pgdir.frame } }.setProc 0
    { k.proc 0 with state := .running, tf := { esp := 0 } }

def fileFiles (data : List UInt8) : Files :=
  rootFiles.setInode 2 { type := 2, nlink := 1, data := data }

section
variable {k : Kernel} {x s : Frame} {data : List UInt8} {arg c : UInt8}

theorem Kernel.proc_calling (k : Kernel) (x : Frame) (arg c : UInt8) :
    (k.calling x arg c).proc 0 = { k.proc 0 with state := .running, tf := { esp := 0 } } :=
  proc_setProc_self ..

theorem Kernel.cr3_calling (k : Kernel) (x : Frame) (arg c : UInt8) :
    (k.calling x arg c).mach.cr3 = ((k.calling x arg c).proc 0).pgdir.frame := by
  rw [proc_calling]
  rfl

section
variable (hb : Booted pcImage pcImage.frames (fileFiles data) 1 k x s)
include hb

theorem Booted.inode_calling (arg c : UInt8) :
    (k.calling x arg c).fs.inode 2 = { type := 2, nlink := 1, data := data } := by
  change k.fs.inode 2 = _
  rw [hb.fs]
  rfl

theorem Booted.caller (hs : k.holding.Safe) (arg c : UInt8) : (k.calling x arg c).Caller 0 := by
  have hself := proc_calling k x arg c
  have hsame : (k.calling x arg c).holding = k.holding := by
    refine holding_of_proc 0 (fun q hq => proc_setProc_ne hq) ?_ (by rw [hself])
      (by rw [hself]) rfl rfl
    rw [hself]
    exact ⟨fun _ => hb.page.live, fun _ h => by cases h⟩
  refine ⟨by rw [hsame]; exact hs, ?_, ?_, fun v hv => ?_⟩
  · rw [hself]
    exact fun h => by cases h
  · rw [hself, hb.self]
    exact (by decide : 4096 < 0x80000000)
  · rw [hself, hb.self] at hv
    have hv' : v * 4096 < 4096 := hv
    obtain rfl : v = 0 := by omega
    rw [hself]
    exact hb.page.present

theorem Booted.byteAt_calling
    {o : Nat} (ho : o < 4096) : (k.calling x arg c).mach.byteAt ((k.calling x arg c).proc 0).pgdir o =
      callPage arg c o := by
  have hframe : ((k.proc 0).pgdir.entry 0).ppn = x := hb.page.ppn
  rw [proc_calling, Machine.byteAt, PgDir.place, show o / 4096 = 0 by omega, hframe,
    Nat.mod_eq_of_lt ho]
  change update k.mach.mem x (callPage arg c) x o = _
  rw [update_self]

theorem Booted.denotes_calling (hs : k.holding.Safe) (arg : UInt8) (hc : c ≠ 0) :
    (k.calling x arg c).Denotes 0 100 [c] := by
  have hcall := hb.caller hs arg c
  have hsz : ((k.calling x arg c).proc 0).sz = 4096 := by rw [proc_calling, hb.self]
  refine ⟨⟨by simpa using hc, by simp, fun i hi => hcall.readable ?_, fun i hi => ?_⟩, ?_⟩
  · rw [hsz]
    simp at hi
    omega
  · rw [hb.byteAt_calling (by simp at hi; omega)]
    obtain rfl | rfl : i = 0 ∨ i = 1 := by simp at hi; omega
    · rfl
    · rfl
  · rw [hsz]
    exact (by decide : 101 < 4096)

theorem Booted.fetchExec_calling (hs : k.holding.Safe) (hc : c ≠ 0) (harg : arg = 0 ∨ arg = 100) :
    fetchExec 0 (k.calling x arg c) =
      .ok (some (100, if arg = 0 then [] else [100]), k.calling x arg c) := by
  have hcall := hb.caller hs arg c
  have hown := cr3_calling k x arg c
  have hsz : ((k.calling x arg c).proc 0).sz = 4096 := by rw [proc_calling, hb.self]
  have hesp : ((k.calling x arg c).proc 0).tf.esp = 0 := by rw [proc_calling]
  have hint : ∀ a, a + 4 ≤ 4096 → fetchint 0 (k.calling x arg c) a =
      .ok (some (field ((List.range' a 4).map (callPage arg c)) 0 4), k.calling x arg c) := by
    intro a ha
    rw [fetchint_present hcall hown (by omega), List.map_congr_left fun o ho => hb.byteAt_calling (by
      rw [List.mem_range'_1] at ho
      omega)]
  have hstr := fetchstr_present hcall hown (hb.denotes_calling hs arg hc)
  have hfirst : argint 0 (k.calling x arg c) 0 = .ok (some 100, k.calling x arg c) := by
    rw [argint, hesp]
    exact hint 4 (by decide)
  have hsecond : argint 0 (k.calling x arg c) 1 = .ok (some 16, k.calling x arg c) := by
    rw [argint, hesp]
    exact hint 8 (by decide)
  have hargs : fetchArgs 0 32 (k.calling x arg c) 16 =
      .ok (some (if arg = 0 then [] else [100]), k.calling x arg c) := by
    rcases harg with rfl | rfl
    · rw [fetchArgs, hint 16 (by decide)]
      rfl
    · rw [fetchArgs, hint 16 (by decide)]
      refine (bind_of_ok hstr).trans ?_
      change (fetchArgs 0 31 (k.calling x 100 c) 20 >>= _) = _
      rw [fetchArgs, hint 20 (by decide)]
      rfl
  unfold fetchExec
  rw [hfirst]
  refine (bind_of_ok hstr).trans ?_
  change (argint 0 (k.calling x arg c) 1 >>= _) = _
  rw [hsecond]
  exact bind_of_ok hargs

theorem Booted.exec_calling (hload : Loadable data) (arg c : UInt8) {argv : List (List UInt8)}
    (hargs : argv.length ≤ 32 ∧ argBytes argv + 4 * (argv.length + 4) ≤ 4096) (path : List UInt8)
    (slept : Nat → Bool) : ∃ k', exec (k.calling x arg c) 0 (some 2) path argv slept = .ok (true, k') := by
  have hinode := hb.inode_calling arg c
  have hfile : ((k.calling x arg c).fs.inode 2).type ≠ 3 := by simp [hinode]
  have hheader := header_file hfile
  rw [hinode] at hheader
  obtain ⟨sz, hplan, hbound, hfree⟩ := hload.size
  have hmem := hb.memory
  have hsound : ExecSound (k.calling x arg c).fs (k.calling x arg c).mach.kmem 2 argv := by
    refine ⟨hfile, by rw [hinode]; exact hload.length, by rw [hheader]; exact hload.header,
      ⟨sz, by rw [hinode, hheader]; exact hplan, hbound, ?_⟩, hargs⟩
    change 1029 + sizePages sz ≤ k.mach.kmem.free.card
    omega
  have hold : Freeable (k.calling x arg c).mach ((k.calling x arg c).proc 0).pgdir := by
    rw [proc_calling]
    exact ⟨hb.freeable.pages, hb.freeable.tables, hb.freeable.frame⟩
  exact exec_total path slept hsound (by rw [hinode]) hold

end

end

/-- With this file and these switches, `exec` passes the arguments of every caller. The
caller has its own page directory in CR3 when it makes the call. -/
def PassesArguments (data : List UInt8) (slept : Nat → Bool) : Prop :=
  ∀ (k k' : Kernel) (p : Fin NPROC) (i : Nat), k.Caller p →
    k.mach.cr3 = (k.proc p).pgdir.frame → (k.fs.inode i).type ≠ 3 → (k.fs.inode i).data = data →
    sysExec p k (some i) slept = .ok (true, k') →
    ∃ path argv, fetchExec p k = .ok (some (path, argv), k) ∧ ArgsPassed k p path argv k'

theorem sysExec_eq {k1 : Kernel} {ip : Option Nat}
    (hf : fetchExec p k = .ok (some (path, argv), k1)) :
    sysExec p k ip slept = execUser p k1 ip path argv slept := by
  unfold sysExec
  rw [bind_of_ok hf]

theorem argsPassed_of_exec {k' : Kernel} {i : Nat} (hc : k.Caller p)
    (hfile : (k.fs.inode i).type ≠ 3) (hpath : k.Denotes p path s)
    (hargv : List.Forall₂ (k.Denotes p) argv strs)
    (h : exec k p (some i) s strs slept = .ok (true, k')) : ArgsPassed k p path argv k' := by
  obtain ⟨xs, top, addrs, he⟩ := exec_execed hc.safe hc.live hfile h
  obtain ⟨hargc, hav, harr, hterm, hroom⟩ := he.words
  have hlen := hargv.length_eq
  have hlen' := he.args.strings.length_eq
  have hlo := he.args.inside
  have hsz := he.room
  refine ⟨by omega, by rw [hargc, hlen], by rw [hav]; omega, by rw [hav, hlen]; exact hterm,
    fun j hj => ?_, s, hpath, he.name⟩
  have hj1 : j < strs.length := by omega
  have hj2 : j < addrs.length := by omega
  have hstr := hargv.get hj hj1
  obtain ⟨hbelow, hend, hbytes⟩ := he.args.strings.get hj1 hj2
  rw [hav, harr j hj2]
  refine ⟨strs.get ⟨j, hj1⟩, hstr, by omega, by omega, fun i hi => ?_⟩
  rw [Kernel.byte, he.stack.byteAt (by omega) (by omega),
    show addrs.get ⟨j, hj2⟩ + i - ((k'.proc p).sz - 4096) =
      addrs.get ⟨j, hj2⟩ - ((k'.proc p).sz - 4096) + i by omega]
  exact hbytes i (by rw [List.length_append, List.length_singleton]; omega)

theorem Booted.misread {x f : Frame} {c : UInt8}
    (hb : Booted pcImage pcImage.frames (fileFiles data) 1 k x f) (arg : UInt8)
    (hs : k.holding.Safe) (hload : Loadable data) (hargs : ownAtArguments slept data = false)
    (hc : c ≠ 0) (harg : arg = 0 ∨ arg = 100) (himg : ImageString data 100 s)
    (hfit : arg = 0 ∨ s.length ≤ 1000) :
    ∃ k', sysExec 0 (k.calling x arg c) (some 2) slept = .ok (true, k') ∧
      exec (k.calling x arg c) 0 (some 2) s (if arg = 0 then [] else [s]) slept = .ok (true, k') := by
  have hinode := hb.inode_calling arg c
  have hown := cr3_calling k x arg c
  have hroom : (if arg = 0 then [] else [s]).length ≤ 32 ∧ argBytes (if arg = 0 then [] else [s]) +
      4 * ((if arg = 0 then [] else [s]).length + 4) ≤ 4096 := by
    by_cases h0 : arg = 0
    · rw [if_pos h0]
      decide
    · rw [if_neg h0]
      simp only [argBytes, List.map_cons, List.map_nil, List.sum_cons, List.sum_nil,
        List.length_cons, List.length_nil]
      have := hfit.resolve_left h0
      omega
  obtain ⟨k', hexec⟩ := hb.exec_calling hload arg c hroom s slept
  refine ⟨k', ?_, hexec⟩
  rw [sysExec_eq (hb.fetchExec_calling hs hc harg), execUser_eq_exec_image (hb.caller hs arg c) hown
    (by simp [hinode]) (by rw [hinode]; exact hargs) (by decide) (by rw [hinode]; exact himg) ?_, hexec]
  rw [hinode]
  by_cases h0 : arg = 0
  · rw [if_pos h0, if_pos h0]
    exact .nil
  · rw [if_neg h0, if_neg h0]
    exact .cons ⟨by decide, himg⟩ .nil

/-- `exec` passes the arguments of every caller when the directory of the caller is in CR3 while
it reads them, and, of the files that fit into memory, with no others. -/
theorem exec_passes_arguments (data : List UInt8) (slept : Nat → Bool) :
    (ownAtArguments slept data = true → PassesArguments data slept) ∧
      (Loadable data → PassesArguments data slept → ownAtArguments slept data = true) := by
  constructor
  · intro hargs k k' p i hc hown hfile hdata h
    obtain ⟨⟨r, k1⟩, hf, h'⟩ := bind_eq_ok.mp h
    cases r with
    | none => cases h'
    | some r =>
      obtain ⟨path, argv⟩ := r
      obtain ⟨rfl, ⟨s, hpath⟩, strs, hargv⟩ := fetchExec_ok hc hown hf
      rw [← hdata] at hargs
      rw [sysExec_eq hf, execUser_eq_exec hc hown hfile hargs hpath hargv] at h
      exact ⟨path, argv, hf, argsPassed_of_exec hc hfile hpath hargv h⟩
  intro hload hall
  by_contra hargs
  obtain ⟨b, hzero⟩ := exists_elfImage_zero data
  obtain ⟨s, himg, -⟩ := exists_imageString (le_max_left 100 b) (hzero _ (le_max_right 100 b))
  -- a path of one letter that is not the name found in the image
  obtain ⟨c, hc, hslash, hname⟩ : ∃ c : UInt8, c ≠ 0 ∧ c ≠ 47 ∧ lastComponent s ≠ [c] := by
    by_cases h : lastComponent s = [97]
    · exact ⟨98, by decide, by decide, by rw [h]; decide⟩
    · exact ⟨97, by decide, by decide, h⟩
  obtain ⟨k, x, f, hstart, hb⟩ := exists_booted (fileFiles data) 1
  have hcall := hb.caller hstart.safe 0 c
  obtain ⟨k', hrun, hexec⟩ := hb.misread 0 hstart.safe hload (by simpa using hargs) hc
    (Or.inl rfl) himg (Or.inl rfl)
  have hinode := hb.inode_calling 0 c
  have hfile : ((k.calling x 0 c).fs.inode 2).type ≠ 3 := by simp [hinode]
  obtain ⟨path, argv, hf, hpassed⟩ := hall (k.calling x 0 c) k' 0 2 hcall
    (Kernel.cr3_calling ..) hfile (by rw [hinode]) hrun
  rw [hb.fetchExec_calling hstart.safe hc (Or.inl rfl)] at hf
  cases hf
  obtain ⟨t, ht, hgot⟩ := hpassed.name
  rw [ht.string.unique (hb.denotes_calling hstart.safe 0 hc).string] at hgot
  obtain ⟨xs, top, addrs, he⟩ := exec_execed hcall.safe hcall.live hfile hexec
  rw [he.name] at hgot
  refine hname (hgot.trans ?_)
  simp [lastComponent, hslash]

theorem loadable_program : Loadable program :=
  ⟨by decide, ⟨by decide, by decide⟩, 1, by decide, by decide, by decide⟩

/-- A process that is switched out in every read gets its argument across. -/
theorem exec_passes_arguments_switched : ∃ k k',
    sysExec 0 k (some 2) (fun _ => true) = .ok (true, k') ∧
      fetchExec 0 k = .ok (some (100, [100]), k) ∧ k.Denotes 0 100 [97] ∧
      ArgsPassed k 0 100 [100] k' := by
  obtain ⟨k, x, f, hstart, hb⟩ := exists_booted (fileFiles program) 1
  have hcall := hb.caller hstart.safe 100 97
  have hf := hb.fetchExec_calling hstart.safe (by decide : (97 : UInt8) ≠ 0) (Or.inr rfl)
  have hden := hb.denotes_calling hstart.safe 100 (by decide : (97 : UInt8) ≠ 0)
  have hinode := hb.inode_calling 100 97
  have hown := Kernel.cr3_calling k x 100 97
  have hfile : ((k.calling x 100 97).fs.inode 2).type ≠ 3 := by simp [hinode]
  obtain ⟨k', hexec⟩ : ∃ k', exec (k.calling x 100 97) 0 (some 2) [97] [[97]] (fun _ => true) =
      .ok (true, k') := hb.exec_calling loadable_program 100 97 (by decide) [97] fun _ => true
  have hrun : sysExec 0 (k.calling x 100 97) (some 2) (fun _ => true) = .ok (true, k') := by
    rw [sysExec_eq hf, ← hexec]
    exact execUser_eq_exec hcall hown hfile (by rw [hinode]; decide) hden (.cons hden .nil)
  obtain ⟨path, argv, hf', hpassed⟩ := (exec_passes_arguments program fun _ => true).1 (by decide)
    (k.calling x 100 97) k' 0 2 hcall hown hfile (by rw [hinode]) hrun
  rw [hf] at hf'
  cases hf'
  exact ⟨k.calling x 100 97, k', hrun, hf, hden, hpassed⟩

/-- A process that is never switched out loses it: the new program gets an empty string. -/
theorem exec_misreads_argument : ∃ k k', k.Caller 0 ∧ k.mach.cr3 = (k.proc 0).pgdir.frame ∧
    k.fs.inode 2 = { type := 2, nlink := 1, data := program } ∧
    sysExec 0 k (some 2) (fun _ => false) = .ok (true, k') ∧
    fetchExec 0 k = .ok (some (100, [100]), k) ∧ k.Denotes 0 100 [97] ∧
    ¬ ArgsPassed k 0 100 [100] k' := by
  obtain ⟨k, x, f, hstart, hb⟩ := exists_booted (fileFiles program) 1
  have hcall := hb.caller hstart.safe 100 97
  have hf := hb.fetchExec_calling hstart.safe (by decide : (97 : UInt8) ≠ 0) (Or.inr rfl)
  have hden := hb.denotes_calling hstart.safe 100 (by decide : (97 : UInt8) ≠ 0)
  have hinode := hb.inode_calling 100 97
  have hfile : ((k.calling x 100 97).fs.inode 2).type ≠ 3 := by simp [hinode]
  obtain ⟨k', hrun, hexec⟩ := hb.misread (c := 97) 100 hstart.safe loadable_program
    (by decide : ownAtArguments (fun _ => false) program = false) (by decide) (Or.inr rfl)
    (imageString_nil (by decide)) (Or.inr (by decide))
  refine ⟨k.calling x 100 97, k', hcall, Kernel.cr3_calling .., hinode, hrun, hf, hden,
    fun hpassed => ?_⟩
  obtain ⟨t, ht, -, -, hbytes⟩ := hpassed.strings 0 (by decide)
  rw [ht.string.unique hden.string] at hbytes
  have hfirst := hbytes 0 (by decide)
  -- the byte that is there
  obtain ⟨xs, top, addrs, he⟩ := exec_execed hcall.safe hcall.live hfile hexec
  obtain ⟨-, hav, harr, -, hroom⟩ := he.words
  have hlen := he.args.strings.length_eq
  have hzero : 0 < addrs.length := by
    rw [← hlen]
    decide
  obtain ⟨hbelow, hend, hgot⟩ := he.args.strings.get (by decide) hzero
  have hinside := he.args.inside
  have hbyte := hgot 0 (by decide)
  rw [hav, Nat.mul_zero, Nat.add_zero, Nat.add_zero] at hfirst
  have haddr := harr 0 hzero
  rw [Nat.mul_zero, Nat.add_zero] at haddr
  rw [haddr, Kernel.byte, he.stack.byteAt (by omega) (by omega)] at hfirst
  rw [Nat.add_zero, hfirst] at hbyte
  exact absurd hbyte (by decide)

end Xv6
