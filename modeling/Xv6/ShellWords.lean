import Xv6.ShellParser

/-!
`nulterminate` makes a C string of every word that a parsed command points to.
-/

namespace Xv6.Shell

open Function

/-- The characters of the line by their distance from its end, with the zero byte there. -/
def lineBuffer : List UInt8 → Nat → UInt8
  | [] => fun _ => 0
  | c :: s => update (lineBuffer s) (s.length + 1) c

def nulterminate : Cmd → (Nat → UInt8) → Nat → UInt8
  | .exec argv, buf => argv.foldl (fun b w => update b w.2 0) buf
  | .redir cmd r, buf => update (nulterminate cmd buf) r.efile 0
  | .pipe left right, buf | .list left right, buf => nulterminate right (nulterminate left buf)
  | .back cmd, buf => nulterminate cmd buf

/-- The pointers to words in a command, with their ends. -/
def Cmd.words : Cmd → List (Nat × Nat)
  | exec argv => argv
  | redir cmd r => (r.file, r.efile) :: cmd.words
  | pipe left right | list left right => left.words ++ right.words
  | back cmd => cmd.words

/-- The C string at `p`. -/
def cstringAt (buf : Nat → UInt8) : Nat → List UInt8
  | 0 => []
  | p + 1 => if buf (p + 1) = 0 then [] else buf (p + 1) :: cstringAt buf p

/-- A run of word characters that no word character follows. -/
structure WordAt (s : List UInt8) (q e : Nat) : Prop where
  le : q ≤ s.length
  lt : e < q
  word : ∀ p, e < p → p ≤ q → isWord (lineBuffer s p) = true
  ends : e = 0 ∨ isWord (lineBuffer s e) = false

section
variable {s r : List UInt8} {q e : Nat} {cmd : Cmd} {ts : List Token} {f : Phrase} {rs : List Redir}
  {w : Nat × Nat}

theorem lineBuffer_append (a : List UInt8) {p : Nat} (hp : p ≤ r.length) :
    lineBuffer (a ++ r) p = lineBuffer r p := by
  induction a with
  | nil => rfl
  | cons c a ih => rw [List.cons_append, lineBuffer, update_of_ne (by simp; omega), ih]

theorem WordAt.suffix (h : WordAt r q e) (hs : r <:+ s) : WordAt s q e := by
  obtain ⟨a, rfl⟩ := hs
  have heq : ∀ p ≤ q, lineBuffer (a ++ r) p = lineBuffer r p := fun p hp =>
    lineBuffer_append a (hp.trans h.le)
  refine ⟨h.le.trans (by simp), h.lt, fun p hp hq => ?_, ?_⟩
  · exact heq p hq ▸ h.word p hp hq
  · exact heq e h.lt.le ▸ h.ends

theorem wordAt_run (s : List UInt8) :
    (∀ p, (s.dropWhile isWord).length < p → p ≤ s.length → isWord (lineBuffer s p) = true) ∧
    ((s.dropWhile isWord).length = 0 ∨ isWord (lineBuffer s (s.dropWhile isWord).length) = false) := by
  induction s with
  | nil => exact ⟨fun p _ _ => by rfl, .inl rfl⟩
  | cons c s ih =>
    have hle := List.length_dropWhile_le isWord s
    simp only [List.dropWhile_cons, lineBuffer, update_apply]
    grind

theorem wordAt_of_mem (h : .word q e ∈ tokens s) : WordAt s q e := by
  fun_induction tokens s with
  | case1 => cases h
  | case2 c s _ ih => exact (ih h).suffix (List.suffix_cons ..)
  | case3 c s _ _ ih =>
    exact (ih (by simpa using h)).suffix ((List.tail_suffix s).trans (List.suffix_cons ..))
  | case4 c s _ _ _ ih => exact (ih (by simpa using h)).suffix (List.suffix_cons ..)
  | case5 c s hblank _ hsym ih =>
    have hsuffix := List.dropWhile_suffix isWord (l := s)
    cases h with
    | head =>
      have hrun := wordAt_run (c :: s)
      rw [List.dropWhile_cons_of_pos (by simp_all [isWord])] at hrun
      exact ⟨Nat.le_refl _, Nat.lt_succ_of_le hsuffix.length_le, hrun.1, hrun.2⟩
    | tail _ h => exact (ih h).suffix (hsuffix.trans (List.suffix_cons ..))

theorem mem_words_redirs (h : w ∈ (rs.foldl Cmd.redir cmd).words) :
    w ∈ cmd.words ∨ ∃ r ∈ rs, w = (r.file, r.efile) := by
  induction rs generalizing cmd with
  | nil => exact .inl h
  | cons r rs ih =>
    have := ih h
    grind [Cmd.words]

theorem Redirs.mem (h : Redirs ts rs) : ∀ r ∈ rs, .word r.file r.efile ∈ ts := by
  induction h with
  | nil => simp
  | cons _ _ ih => grind [redircmd]

theorem Words.mem {argv : List (Nat × Nat)} (h : Words ts argv rs) :
    (∀ w ∈ argv, .word w.1 w.2 ∈ ts) ∧ ∀ r ∈ rs, .word r.file r.efile ∈ ts := by
  induction h with
  | nil => simp
  | cons hredirs _ ih =>
    have := hredirs.mem
    grind

theorem words_backs (n : Nat) (c : Cmd) : (Cmd.back^[n] c).words = c.words := by
  induction n generalizing c with
  | zero => rfl
  | succ n ih => exact ih (.back c)

/-- The pointers of a command are tokens. -/
theorem Derives.words_mem (h : Derives f ts cmd) : ∀ w ∈ cmd.words, .word w.1 w.2 ∈ ts := by
  induction h with
  | line m _ ih => grind [words_backs]
  | list m _ _ ih ih' => grind [Cmd.words, words_backs]
  | last _ ih => exact ih
  | pipe _ _ ih ih' => grind [Cmd.words]
  | block _ hredirs ih =>
    intro w hw
    have := hredirs.mem
    grind [mem_words_redirs hw]
  | exec hredirs hwords _ =>
    intro w hw
    have := hredirs.mem
    have := hwords.mem
    grind [mem_words_redirs hw, Cmd.words]

/-- `nulterminate` writes at the ends of the words only. -/
theorem nulterminate_apply (cmd : Cmd) (buf : Nat → UInt8) (p : Nat) :
    nulterminate cmd buf p = if p ∈ cmd.words.map Prod.snd then 0 else buf p := by
  induction cmd generalizing buf with
  | exec argv =>
    unfold nulterminate Cmd.words
    induction argv generalizing buf with
    | nil => rfl
    | cons w argv ih =>
      simp only [List.foldl_cons, ih, update_apply, List.map_cons, List.mem_cons]
      grind
  | redir cmd r ih =>
    simp only [nulterminate, update_apply, ih, Cmd.words, List.map_cons, List.mem_cons]
    grind
  | pipe left right ih ih' | list left right ih ih' =>
    simp only [nulterminate, ih', ih, Cmd.words, List.map_append, List.mem_append]
    grind
  | back cmd ih => exact ih buf

theorem cstringAt_eq {buf : Nat → UInt8} (h0 : 0 ∉ r) (hle : e ≤ r.length)
    (hkept : ∀ p, e < p → p ≤ r.length → buf p = lineBuffer r p) (hend : buf e = 0) :
    cstringAt buf r.length = r.take (r.length - e) := by
  induction r with
  | nil => simp [cstringAt]
  | cons c r ih =>
    rw [List.length_cons] at hle hkept ⊢
    by_cases he : e = r.length + 1
    · rw [← he, cstringAt.eq_def]
      simp [he ▸ hend, he]
    · have hc := hkept (r.length + 1) (by omega) (Nat.le_refl _)
      rw [lineBuffer, update_self] at hc
      rw [cstringAt, hc, if_neg (by grind), ih (by grind) (by omega) fun p hp hq => ?_,
        show r.length + 1 - e = r.length - e + 1 by omega, List.take_succ_cons]
      rw [hkept p hp (by omega), lineBuffer, update_of_ne (by omega)]

/-- Every pointer of a parsed command is a word of the line, and after `nulterminate` the C string
there is that word. -/
theorem nulterminate_word (hs : 0 ∉ s) (h : parsecmd s = .ok cmd) (hw : w ∈ cmd.words) :
    .word w.1 w.2 ∈ tokens s ∧ cstringAt (nulterminate cmd (lineBuffer s)) w.1 =
      (s.drop (s.length - w.1)).take (w.1 - w.2) := by
  have hmem := (derives_of_parsecmd h).words_mem
  have hat : ∀ w ∈ cmd.words, WordAt s w.1 w.2 := fun w hw => wordAt_of_mem (hmem w hw)
  have hw' := hat w hw
  have hlen : (s.drop (s.length - w.1)).length = w.1 := by
    have := hw'.le
    simp
    omega
  have hkept : ∀ p, w.2 < p → p ≤ w.1 → nulterminate cmd (lineBuffer s) p = lineBuffer s p := by
    -- no word ends inside another one
    intro p hp hq
    rw [nulterminate_apply, if_neg]
    intro hmem
    obtain ⟨v, hv, rfl⟩ := List.mem_map.mp hmem
    rcases (hat v hv).ends with h0 | hnot
    · omega
    · rw [hw'.word _ hp hq] at hnot
      cases hnot
  refine ⟨hmem w hw, ?_⟩
  generalize hr : s.drop (s.length - w.1) = r at hlen
  rw [← hlen]
  refine cstringAt_eq (fun h0 => hs (List.mem_of_mem_drop (hr ▸ h0))) (hlen ▸ hw'.lt.le) (fun p hp hq => ?_) ?_
  · rw [hkept p hp (hlen ▸ hq), ← lineBuffer_append (s.take (s.length - w.1)) hq, ← hr, List.take_append_drop]
  · rw [nulterminate_apply, if_pos (List.mem_map.mpr ⟨w, hw, rfl⟩)]

end

/-- The line `a>b`. -/
theorem nulterminate_redirection : ∃ cmd, parsecmd [97, 62, 98] = .ok cmd ∧
    cstringAt (nulterminate cmd (lineBuffer [97, 62, 98])) 3 = [97] :=
  ⟨_, rfl, (nulterminate_word (w := (3, 2)) (by decide) rfl (by decide)).2⟩

end Xv6.Shell
