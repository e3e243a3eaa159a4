import Mathlib.Data.List.Basic
import Mathlib.Data.List.TakeWhile

/-!
The matcher of `grep` against the language of its patterns, and the loop that cuts what `read`
returns into lines. The loop throws away a line of which only a part has been read when there
is no newline in the buffer, so that its output depends on where the reads end.

A string is the list of its characters without the terminating NUL.
-/

namespace Xv6

/-- The loop of `matchstar`; `here` is `matchhere` on the rest of the pattern. -/
def matchstar (c : UInt8) (here : List UInt8 → Bool) : List UInt8 → Bool
  | [] => here []
  | x :: text => here (x :: text) || ((x == c || c == 46) && matchstar c here text)

def matchhere : List UInt8 → List UInt8 → Bool
  | [], _ => true
  | c :: 42 :: re, text => matchstar c (matchhere re) text
  | [36], text => text.isEmpty
  | c :: re, x :: text => (c == 46 || c == x) && matchhere re text
  | _ :: _, [] => false

/-- The loop of `match`, which also looks at the empty end of the text. -/
def matchAnywhere (re : List UInt8) : List UInt8 → Bool
  | [] => matchhere re []
  | x :: text => matchhere re (x :: text) || matchAnywhere re text

/-- The function `match`. -/
def matchRe : List UInt8 → List UInt8 → Bool
  | 94 :: re, text => matchhere re text
  | re, text => matchAnywhere re text

/-- A place of a pattern: a character, a starred character or the end of the text. -/
inductive Place where
  | one (c : UInt8)
  | many (c : UInt8)
  | atEnd
  deriving DecidableEq, Repr

/-- The places of a pattern; a dollar sign means the end only where it is last. -/
def places : List UInt8 → List Place
  | [] => []
  | c :: 42 :: re => .many c :: places re
  | [36] => [.atEnd]
  | c :: re => .one c :: places re

def StandsFor (c x : UInt8) : Prop := c = 46 ∨ c = x

/-- The places of a pattern match `w` when `rest` comes after it. -/
inductive Denotes : List Place → List UInt8 → List UInt8 → Prop where
  | nil {rest : List UInt8} : Denotes [] [] rest
  | one {c x : UInt8} {ps : List Place} {w rest : List UInt8} :
      StandsFor c x → Denotes ps w rest → Denotes (.one c :: ps) (x :: w) rest
  | many {c : UInt8} {ps : List Place} {u w rest : List UInt8} :
      (∀ x ∈ u, StandsFor c x) → Denotes ps w rest → Denotes (.many c :: ps) (u ++ w) rest
  | atEnd : Denotes [.atEnd] [] []

theorem standsFor_iff {c x : UInt8} : (c == 46 || c == x) = true ↔ StandsFor c x := by
  simp [StandsFor]

/-- The loop tries the rest of the pattern after every run of the starred character. -/
theorem matchstar_iff {c : UInt8} {here : List UInt8 → Bool} {text : List UInt8} :
    matchstar c here text = true ↔
      ∃ u v, text = u ++ v ∧ (∀ x ∈ u, StandsFor c x) ∧ here v = true := by
  induction text with
  | nil => simp [matchstar]
  | cons x text ih =>
    have hstands : (x == c || c == 46) = true ↔ StandsFor c x := by grind [StandsFor]
    rw [matchstar, Bool.or_eq_true, Bool.and_eq_true, ih, hstands]
    constructor
    · rintro (h | ⟨hx, u, v, rfl, hu, hv⟩)
      · exact ⟨[], _, rfl, nofun, h⟩
      · exact ⟨x :: u, v, rfl, List.forall_mem_cons.mpr ⟨hx, hu⟩, hv⟩
    · rintro ⟨u, v, htext, hu, hv⟩
      cases u with
      | nil => exact Or.inl (htext ▸ hv)
      | cons y u =>
        obtain ⟨rfl, rfl⟩ := List.cons_eq_cons.mp htext
        obtain ⟨hy, hu⟩ := List.forall_mem_cons.mp hu
        exact Or.inr ⟨hy, u, v, rfl, hu, hv⟩

theorem matchhere_iff (re text : List UInt8) :
    matchhere re text = true ↔ ∃ w rest, text = w ++ rest ∧ Denotes (places re) w rest := by
  fun_induction places re generalizing text with
  | case1 =>
    rw [matchhere]
    exact ⟨fun _ => ⟨[], text, rfl, .nil⟩, fun _ => rfl⟩
  | case2 c re ih =>
    rw [matchhere, matchstar_iff]
    constructor
    · rintro ⟨u, v, rfl, hu, hv⟩
      obtain ⟨w, rest, rfl, hw⟩ := (ih v).mp hv
      exact ⟨u ++ w, rest, (List.append_assoc ..).symm, .many hu hw⟩
    · rintro ⟨w, rest, rfl, hw⟩
      cases hw with
      | @many _ _ u w _ hu hw => exact ⟨u, w ++ rest, List.append_assoc .., hu, (ih _).mpr ⟨w, rest, rfl, hw⟩⟩
  | case3 =>
    rw [matchhere]
    constructor
    · intro h
      exact ⟨[], [], List.isEmpty_iff.mp h, .atEnd⟩
    · rintro ⟨w, rest, rfl, hw⟩
      cases hw
      rfl
  | case4 c re hstar hlast ih =>
    cases text with
    | nil =>
      rw [matchhere.eq_5 _ _ hstar hlast]
      refine ⟨nofun, ?_⟩
      rintro ⟨w, rest, htext, hw⟩
      cases hw
      cases htext
    | cons x text =>
      rw [matchhere.eq_4 _ _ _ _ hstar hlast, Bool.and_eq_true, standsFor_iff, ih]
      constructor
      · rintro ⟨hx, w, rest, rfl, hw⟩
        exact ⟨x :: w, rest, rfl, .one hx hw⟩
      · rintro ⟨w, rest, htext, hw⟩
        cases hw with
        | one hx hw =>
          obtain ⟨rfl, rfl⟩ := List.cons_eq_cons.mp htext
          exact ⟨hx, _, _, rfl, hw⟩

theorem matchAnywhere_iff (re text : List UInt8) :
    matchAnywhere re text = true ↔ ∃ before v, text = before ++ v ∧ matchhere re v = true := by
  induction text with
  | nil => simp [matchAnywhere]
  | cons x text ih =>
    rw [matchAnywhere, Bool.or_eq_true, ih]
    constructor
    · rintro (h | ⟨before, v, rfl, hv⟩)
      · exact ⟨[], _, rfl, h⟩
      · exact ⟨x :: before, v, rfl, hv⟩
    · rintro ⟨before, v, htext, hv⟩
      cases before with
      | nil => exact Or.inl (htext ▸ hv)
      | cons y before =>
        obtain ⟨rfl, rfl⟩ := List.cons_eq_cons.mp htext
        exact Or.inr ⟨before, v, rfl, hv⟩

/-- The texts in the language of a pattern: with a caret the rest of the pattern matches at the
start of the text, without one it matches after any part of it. -/
def InLanguage : List UInt8 → List UInt8 → Prop
  | 94 :: re, text => ∃ w rest, text = w ++ rest ∧ Denotes (places re) w rest
  | re, text => ∃ before w rest, text = before ++ (w ++ rest) ∧ Denotes (places re) w rest

theorem match_decides (re text : List UInt8) : matchRe re text = true ↔ InLanguage re text := by
  fun_cases matchRe re text with
  | case1 re => exact matchhere_iff re text
  | case2 re text hre =>
    rw [InLanguage.eq_2 _ _ hre, matchAnywhere_iff]
    constructor
    · rintro ⟨before, v, rfl, hv⟩
      obtain ⟨w, rest, rfl, hw⟩ := (matchhere_iff _ v).mp hv
      exact ⟨before, w, rest, rfl, hw⟩
    · rintro ⟨before, w, rest, rfl, hw⟩
      exact ⟨before, _, rfl, (matchhere_iff _ _).mpr ⟨w, rest, rfl, hw⟩⟩

/-- `strchr`: the place of the first `c` before the end of the string. -/
def strchr (c : UInt8) : List UInt8 → Option Nat
  | [] => none
  | x :: s => if x = 0 then none else if x = c then some 0 else (strchr c s).map (· + 1)

theorem strchr_lt {c : UInt8} {s : List UInt8} {q : Nat} (h : strchr c s = some q) : q < s.length := by
  induction s generalizing q with
  | nil => cases h
  | cons x s ih =>
    rw [strchr] at h
    split_ifs at h
    · cases h
      exact Nat.zero_lt_succ _
    · obtain ⟨r, hr, rfl⟩ := Option.map_eq_some_iff.mp h
      exact Nat.succ_lt_succ (ih hr)

/-- The inner loop from `p` on: what is written, and the text at `p` when no newline is found. -/
def grepLines (pattern p : List UInt8) : List UInt8 × List UInt8 :=
  match hq : strchr 10 p with
  | none => ([], p)
  | some q =>
    ((if matchRe pattern (p.take q) then p.take (q + 1) else []) ++ (grepLines pattern (p.drop (q + 1))).1,
      (grepLines pattern (p.drop (q + 1))).2)
termination_by p.length
decreasing_by
  all_goals
    have := strchr_lt hq
    rw [List.length_drop]
    omega

/-- The loop over the chunks that `read` returns, with the `m` bytes at the start of the buffer
in `held`. It is `none` when `read` cannot return the next chunk: it returns some bytes, and at
most as many as it was asked for. -/
def grep (pattern held : List UInt8) : List (List UInt8) → Option (List UInt8)
  | [] => some []
  | chunk :: chunks =>
    if chunk = [] ∨ 1024 - held.length - 1 < chunk.length then none else
    let r := grepLines pattern (held ++ chunk)
    -- `p == buf`: no newline was found, and everything read so far is dropped
    let held := if r.2.length = (held ++ chunk).length then [] else r.2
    (grep pattern held chunks).map (r.1 ++ ·)

/-- The newline-terminated lines of a text, without their newlines. -/
def lines : List UInt8 → List (List UInt8)
  | [] => []
  | x :: text =>
    if x = 10 then [] :: lines text else
    match lines text with
    | [] => []
    | l :: ls => (x :: l) :: ls

/-- What `grep` is to write: the lines for which `match` returns 1, in order. -/
def wanted (pattern text : List UInt8) : List UInt8 :=
  (lines text).flatMap fun l => if matchRe pattern (l.takeWhile (· ≠ 0)) then l ++ [10] else []

/-- Each chunk with a newline after it has a newline of its own. -/
def NewlineInEach : List (List UInt8) → Prop
  | [] => True
  | chunk :: chunks => (10 ∈ chunks.flatten → 10 ∈ chunk) ∧ NewlineInEach chunks

def Unbroken (chunks : List (List UInt8)) : Prop :=
  (∀ l ∈ lines chunks.flatten, 0 ∉ l) ∧ NewlineInEach chunks

section
variable {l t p held out pattern : List UInt8} {chunks : List (List UInt8)}

theorem lines_eq_nil : lines t = [] ↔ 10 ∉ t := by
  induction t with
  | nil => simp [lines]
  | cons x t ih =>
    rw [lines, List.mem_cons, not_or, ← ih]
    split_ifs with hx
    · simp [hx]
    · cases lines t <;> simp [Ne.symm hx]

theorem lines_append (hl : 10 ∉ l) : lines (l ++ 10 :: t) = l :: lines t := by
  induction l with
  | nil => rfl
  | cons x l ih =>
    rw [List.mem_cons, not_or] at hl
    rw [List.cons_append, lines, if_neg (Ne.symm hl.1), ih hl.2]

theorem cut_line (t : List UInt8) : 10 ∉ t ∨ ∃ l r, t = l ++ 10 :: r ∧ 10 ∉ l := by
  by_cases h : 10 ∈ t
  · obtain ⟨l, r, ht, hl⟩ := List.eq_append_cons_of_mem h
    exact Or.inr ⟨l, r, ht, hl⟩
  · exact Or.inl h

theorem strchr_line (hl : 10 ∉ l) : strchr 10 (l ++ 10 :: t) = if 0 ∈ l then none else some l.length := by
  induction l with
  | nil => rfl
  | cons x l ih =>
    rw [List.mem_cons, not_or] at hl
    rw [List.cons_append, strchr, ih hl.2]
    by_cases hx : x = 0
    · simp [hx]
    · rw [if_neg hx, if_neg (Ne.symm hl.1)]
      by_cases h0 : 0 ∈ l
      · simp [h0]
      · simp [h0, Ne.symm hx]

theorem strchr_none (h : 10 ∉ t) : strchr 10 t = none := by
  induction t with
  | nil => rfl
  | cons x t ih =>
    rw [List.mem_cons, not_or] at h
    simp [strchr, ih h.2, Ne.symm h.1]

theorem wanted_line (hl : 10 ∉ l) : wanted pattern (l ++ 10 :: t) =
    (if matchRe pattern (l.takeWhile (· ≠ 0)) then l ++ [10] else []) ++ wanted pattern t := by
  rw [wanted, lines_append hl, List.flatMap_cons, wanted]

/-- The inner loop takes whole lines without a NUL off the front of the buffer. -/
structure Taken (p done rest : List UInt8) : Prop where
  eq : p = done ++ rest
  stuck : strchr 10 rest = none
  nul : 0 ∉ done
  line : done ≠ [] → ∃ l r, done = l ++ 10 :: r ∧ 10 ∉ l
  lines : ∀ s, lines (done ++ s) = lines done ++ lines s

theorem grepLines_spec (pattern p : List UInt8) :
    ∃ done rest, Taken p done rest ∧ grepLines pattern p = (wanted pattern done, rest) := by
  fun_induction grepLines pattern p with
  | case1 p h => exact ⟨[], p, ⟨rfl, h, by simp, by simp, fun _ => rfl⟩, rfl⟩
  | case2 p q h ih =>
    rcases cut_line p with hp | ⟨l, r, rfl, hl⟩
    · rw [strchr_none hp] at h
      cases h
    rw [strchr_line hl] at h
    split_ifs at h with h0
    cases h
    have hdrop : (l ++ 10 :: r).drop (l.length + 1) = r := by simp [List.drop_append]
    have hfirst : (l ++ 10 :: r).take (l.length + 1) = l ++ [10] := by
      simp [List.take_append, List.take_of_length_le]
    have hline : l.takeWhile (· ≠ 0) = l := List.takeWhile_eq_self_iff.mpr fun x hx =>
      decide_eq_true fun hx0 => h0 (hx0 ▸ hx)
    rw [hdrop] at ih ⊢
    obtain ⟨done, rest, hd, hg⟩ := ih
    refine ⟨l ++ 10 :: done, rest, ⟨by simp [hd.eq], hd.stuck, by simp [h0, hd.nul],
      fun _ => ⟨l, done, rfl, hl⟩, fun s => ?_⟩, ?_⟩
    · rw [List.append_assoc, List.cons_append, lines_append hl, lines_append hl, hd.lines, List.cons_append]
    · rw [hg, hfirst, List.take_left, wanted_line hl, hline]

theorem grep_cons {chunk : List UInt8} (h : grep pattern held (chunk :: chunks) = some out) :
    ∃ done rest out', Taken (held ++ chunk) done rest ∧ chunk ≠ [] ∧ out = wanted pattern done ++ out' ∧
      grep pattern (if done = [] then [] else rest) chunks = some out' := by
  obtain ⟨done, rest, hd, hg⟩ := grepLines_spec pattern (held ++ chunk)
  rw [grep, hg] at h
  split_ifs at h with hread
  obtain ⟨out', hrest, rfl⟩ := Option.map_eq_some_iff.mp h
  refine ⟨done, rest, out', hd, fun hnil => hread (Or.inl hnil), rfl, ?_⟩
  have hlen : rest.length = (held ++ chunk).length ↔ done = [] := by
    rw [hd.eq, List.length_append, ← List.length_eq_zero_iff]
    omega
  simpa only [hlen] using hrest

theorem not_mem_of_stuck {s : List UInt8} (h : strchr 10 t = none) (hnul : ∀ l ∈ lines (t ++ s), 0 ∉ l) :
    10 ∉ t := by
  rcases cut_line t with ht | ⟨l, r, rfl, hl⟩
  · exact ht
  rw [strchr_line hl] at h
  rw [List.append_assoc, List.cons_append, lines_append hl] at hnul
  rw [if_neg (hnul l (List.mem_cons_self ..))] at h
  cases h

theorem wanted_append {s : List UInt8} (h : lines (t ++ s) = lines t ++ lines s) :
    wanted pattern (t ++ s) = wanted pattern t ++ wanted pattern s := by
  rw [wanted, h, List.flatMap_append, wanted, wanted]

theorem wanted_eq_nil (h : 10 ∉ t) : wanted pattern t = [] := by
  rw [wanted, lines_eq_nil.mpr h]
  rfl

theorem newlineInEach_of_not_mem (h : 10 ∉ chunks.flatten) : NewlineInEach chunks := by
  induction chunks with
  | nil => trivial
  | cons chunk chunks ih =>
    rw [List.flatten_cons, List.mem_append, not_or] at h
    exact ⟨fun hmem => (h.2 hmem).elim, ih h.2⟩

theorem grep_unbroken (hheld : strchr 10 held = none)
    (hnul : ∀ l ∈ lines (held ++ chunks.flatten), 0 ∉ l) (hc : NewlineInEach chunks)
    (h : grep pattern held chunks = some out) : out = wanted pattern (held ++ chunks.flatten) := by
  induction chunks generalizing held out with
  | nil =>
    cases h
    have hnone := not_mem_of_stuck hheld hnul
    rw [List.flatten_nil, List.append_nil, wanted_eq_nil hnone]
  | cons chunk chunks ih =>
    obtain ⟨done, rest, out', hd, -, rfl, hrest⟩ := grep_cons h
    have hsplit : held ++ (chunk :: chunks).flatten = done ++ (rest ++ chunks.flatten) := by
      rw [List.flatten_cons, ← List.append_assoc, hd.eq, List.append_assoc]
    rw [hsplit, hd.lines] at hnul
    rw [hsplit, wanted_append (hd.lines _), List.append_cancel_left_eq]
    have hnul' : ∀ l ∈ lines (rest ++ chunks.flatten), 0 ∉ l := fun l hl =>
      hnul l (List.mem_append_right _ hl)
    by_cases hdone : done = []
    · -- the buffer is dropped, but no newline comes after it
      subst hdone
      have hbuf : 10 ∉ rest := not_mem_of_stuck hd.stuck hnul'
      have hnone : 10 ∉ chunks.flatten := fun hmem => by
        have hin := List.mem_append_right held (hc.1 hmem)
        rw [hd.eq] at hin
        exact hbuf hin
      rw [if_pos rfl] at hrest
      rw [ih rfl (by simp [lines_eq_nil.mpr hnone]) hc.2 hrest, List.nil_append, wanted_eq_nil hnone,
        wanted_eq_nil (by simp [hbuf, hnone])]
    · rw [if_neg hdone] at hrest
      exact ih hd.stuck hnul' hc.2 hrest

theorem matchRe_nil (text : List UInt8) : matchRe [] text = true := by
  cases text <;> rfl

/-- With the empty pattern everything up to the last newline is to be written. -/
theorem length_wanted_cons (x : UInt8) (t : List UInt8) :
    (wanted [] (x :: t)).length = if 10 ∈ x :: t then (wanted [] t).length + 1 else 0 := by
  by_cases hmem : 10 ∈ x :: t
  · rw [if_pos hmem, wanted, wanted, lines]
    split_ifs with hx
    · simp [matchRe_nil, Nat.add_comm]
    · have hne : lines t ≠ [] := fun hnil => by
        rw [List.mem_cons, or_iff_right (Ne.symm hx)] at hmem
        exact lines_eq_nil.mp hnil hmem
      obtain ⟨l, ls, hl⟩ := List.exists_cons_of_ne_nil hne
      simp [hl, matchRe_nil]
  · rw [if_neg hmem, wanted_eq_nil hmem]
    rfl

theorem length_wanted_append (t s : List UInt8) :
    (wanted [] s).length ≤ (wanted [] (t ++ s)).length ∧
      (t ≠ [] → 10 ∈ t ++ s → (wanted [] s).length < (wanted [] (t ++ s)).length) := by
  induction t with
  | nil => exact ⟨le_rfl, fun h => (h rfl).elim⟩
  | cons x t ih =>
    rw [List.cons_append, length_wanted_cons]
    split_ifs with hmem
    · exact ⟨by omega, fun _ _ => by omega⟩
    · have hs : 10 ∉ s := fun hs => hmem (List.mem_cons_of_mem _ (List.mem_append_right _ hs))
      rw [wanted_eq_nil hs]
      exact ⟨le_rfl, fun _ hx => (hmem hx).elim⟩

theorem mem_of_mem_lines {x : UInt8} (hl : l ∈ lines t) (hx : x ∈ l) : x ∈ t := by
  induction t generalizing l with
  | nil => cases hl
  | cons y t ih =>
    rw [lines] at hl
    split_ifs at hl
    · rcases List.mem_cons.mp hl with rfl | hl
      · cases hx
      · exact List.mem_cons_of_mem _ (ih hl hx)
    · cases hls : lines t with
      | nil =>
        rw [hls] at hl
        cases hl
      | cons l' ls =>
        rw [hls] at hl ih
        rcases List.mem_cons.mp hl with rfl | hl
        · rcases List.mem_cons.mp hx with rfl | hx
          · exact List.mem_cons_self ..
          · exact List.mem_cons_of_mem _ (ih (List.mem_cons_self ..) hx)
        · exact List.mem_cons_of_mem _ (ih (List.mem_cons_of_mem _ hl) hx)

/-- With the empty pattern, what is written is as long as the lines of the text only if the text
and the chunks are unbroken. -/
theorem length_grep (hheld : strchr 10 held = none) (h : grep [] held chunks = some out) :
    out.length ≤ (wanted [] (held ++ chunks.flatten)).length ∧
      (out.length = (wanted [] (held ++ chunks.flatten)).length →
        (∀ l ∈ lines (held ++ chunks.flatten), 0 ∉ l) ∧ NewlineInEach chunks) := by
  induction chunks generalizing held out with
  | nil =>
    cases h
    rw [List.flatten_nil, List.append_nil]
    refine ⟨Nat.zero_le _, fun heq => ⟨?_, trivial⟩⟩
    have hnone : 10 ∉ held := fun hmem => by
      have hlt := (length_wanted_append held []).2 (List.ne_nil_of_mem hmem) (by simpa using hmem)
      rw [List.append_nil, ← heq] at hlt
      exact Nat.not_lt_zero _ hlt
    rw [lines_eq_nil.mpr hnone]
    nofun
  | cons chunk chunks ih =>
    obtain ⟨done, rest, out', hd, hchunk, rfl, hrest⟩ := grep_cons h
    have hsplit : held ++ (chunk :: chunks).flatten = done ++ (rest ++ chunks.flatten) := by
      rw [List.flatten_cons, ← List.append_assoc, hd.eq, List.append_assoc]
    rw [hsplit, wanted_append (hd.lines _), List.length_append, List.length_append, hd.lines]
    by_cases hdone : done = []
    · subst hdone
      rw [if_pos rfl] at hrest
      obtain ⟨hle, -⟩ := ih rfl hrest
      rw [List.nil_append] at hle
      obtain ⟨hle', hlt⟩ := length_wanted_append rest chunks.flatten
      have hne : rest ≠ [] := fun hnil => by
        have heq := hd.eq
        rw [hnil, List.append_nil, List.append_eq_nil_iff] at heq
        exact hchunk heq.2
      refine ⟨by omega, fun heq => ?_⟩
      have hnone : 10 ∉ rest ++ chunks.flatten := fun hmem => by
        have := hlt hne hmem
        omega
      rw [lines_eq_nil.mpr hnone]
      rw [List.mem_append, not_or] at hnone
      exact ⟨by simp [lines], fun hmem => (hnone.2 hmem).elim, newlineInEach_of_not_mem hnone.2⟩
    · rw [if_neg hdone] at hrest
      obtain ⟨hle, hiff⟩ := ih hd.stuck hrest
      refine ⟨by omega, fun heq => ?_⟩
      obtain ⟨hnul, hc⟩ := hiff (by omega)
      refine ⟨fun l hl hz => ?_, fun _ => ?_, hc⟩
      · rcases List.mem_append.mp hl with hl | hl
        · exact hd.nul (mem_of_mem_lines hl hz)
        · exact hnul l hl hz
      · -- the first line that was taken ends in the new chunk
        obtain ⟨l, r, hline, hl⟩ := hd.line hdone
        have heq : held ++ chunk = l ++ 10 :: (r ++ rest) := by rw [hd.eq, hline]; simp
        rcases List.append_eq_append_iff.mp heq with ⟨u, rfl, hu⟩ | ⟨u, rfl, hu⟩
        · rw [hu]
          simp
        · cases u with
          | nil =>
            rw [show chunk = 10 :: (r ++ rest) by simpa using hu.symm]
            exact List.mem_cons_self ..
          | cons y u =>
            obtain ⟨rfl, -⟩ := List.cons_eq_cons.mp hu
            have hz : 0 ∉ l := fun hz => hd.nul (by rw [hline]; exact List.mem_append_left _ hz)
            rw [strchr_line hl, if_neg hz] at hheld
            cases hheld

theorem grepLines_rest (pattern pattern' p : List UInt8) :
    (grepLines pattern p).2 = (grepLines pattern' p).2 := by
  fun_induction grepLines pattern p with
  | case1 p h =>
    rw [grepLines]
    split
    · rfl
    · simp_all
  | case2 p q h ih =>
    rw [ih]
    conv_rhs => rw [grepLines]
    split
    · simp_all
    · simp_all

theorem isSome_grep (pattern pattern' : List UInt8) :
    (grep pattern held chunks).isSome = (grep pattern' held chunks).isSome := by
  induction chunks generalizing held with
  | nil => rfl
  | cons chunk chunks ih =>
    rw [grep, grep]
    split_ifs
    · rfl
    all_goals
      rw [Option.isSome_map, Option.isSome_map, grepLines_rest pattern pattern']
      exact ih

end

/-- For every pattern `grep` writes the matching lines of the text, if and only if the reads
break no line off. -/
theorem grep_reads_iff {chunks : List (List UInt8)} (hread : (grep [] [] chunks).isSome) :
    (∀ pattern, grep pattern [] chunks = some (wanted pattern chunks.flatten)) ↔ Unbroken chunks := by
  constructor
  · intro h
    have hlen := length_grep rfl (h [])
    exact hlen.2 rfl
  · rintro ⟨hnul, hc⟩ pattern
    rw [isSome_grep [] pattern] at hread
    obtain ⟨out, hout⟩ := Option.isSome_iff_exists.mp hread
    rw [hout, grep_unbroken rfl hnul hc hout]
    rfl

theorem grep_two_lines : grep [97] [] [[97, 10], [98, 10]] = some (wanted [97] [97, 10, 98, 10]) := by
  have hread : (grep [] [] [[97, 10], [98, 10]]).isSome := by
    simp [grep, grepLines, strchr, matchRe, matchAnywhere, matchhere]
  exact (grep_reads_iff hread).mpr ⟨by simp [lines], by simp [NewlineInEach]⟩ [97]

/-- The line `ab` is found when it is read at once, and lost when its first character is read
before the rest. -/
theorem grep_broken_line : grep [97] [] [[97, 98, 10]] = some [97, 98, 10] ∧
    grep [97] [] [[97], [98, 10]] = some [] := by
  simp [grep, grepLines, strchr, matchRe, matchAnywhere, matchhere]

end Xv6
