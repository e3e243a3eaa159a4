import Mathlib.Data.List.TakeWhile
import Xv6.Lib.Outcome
import Xv6.Machine

/-!
The shell's parser. A cursor is the part of the line that is still ahead; a pointer that is kept
in a command is the number of characters from it to the end of the line.
-/

namespace Xv6.Shell

open Lib

def whitespace : List UInt8 := [32, 9, 13, 10, 11]

/-- The characters `<|>&;()`. -/
def symbols : List UInt8 := [60, 124, 62, 38, 59, 40, 41]

def isWord (c : UInt8) : Bool := !whitespace.contains c && !symbols.contains c

def skip (s : List UInt8) : List UInt8 := s.dropWhile whitespace.contains

/-- What `gettoken` returns: `+` stands for `>>` and `a` for a word, from `q` up to `eq`. -/
structure Scan where
  ret : UInt8
  q : Nat
  eq : Nat
  rest : List UInt8

/-- The switch of `gettoken`. -/
def scanToken : List UInt8 → UInt8 × List UInt8
  | [] => (0, [])
  | c :: s =>
    if [124, 40, 41, 59, 38, 60].contains c then (c, s)
    else if c = 62 then if s.head? = some 62 then (43, s.tail) else (62, s)
    else (97, (c :: s).dropWhile isWord)

def gettoken (s : List UInt8) : Scan :=
  let s := skip s
  let (ret, e) := scanToken s
  ⟨ret, s.length, e.length, skip e⟩

def peek (s toks : List UInt8) : Bool × List UInt8 :=
  ((skip s).head?.any toks.contains, skip s)

structure Redir where
  file : Nat
  efile : Nat
  mode : Nat
  fd : Nat

inductive Cmd where
  | exec (argv : List (Nat × Nat))
  | redir (cmd : Cmd) (r : Redir)
  | pipe (left right : Cmd)
  | list (left right : Cmd)
  | back (cmd : Cmd)

def redircmd (tok : UInt8) (q eq : Nat) : Redir :=
  if tok = 60 then ⟨q, eq, 0, 0⟩ else ⟨q, eq, 0x201, 1⟩

/-- `parseredirs`: the redirections, from the inside out. -/
def parseredirs : Nat → List UInt8 → Except Halt (List Redir × List UInt8)
  | 0, _ => throw .diverges
  | n + 1, s =>
    let (b, s) := peek s [60, 62]
    if b then
      let tok := gettoken s
      let w := gettoken tok.rest
      if w.ret ≠ 97 then throw (.panic "missing file for redirection")
      else do
        let (rs, s) ← parseredirs n w.rest
        pure (redircmd tok.ret w.q w.eq :: rs, s)
    else pure ([], s)

/-- The loop of `parseexec`. The arguments are put into the command inside the redirections. -/
def parseargs : Nat → List UInt8 → List (Nat × Nat) → List Redir → Except Halt (Cmd × List UInt8)
  | 0, _, _, _ => throw .diverges
  | n + 1, s, argv, rs =>
    let (b, s) := peek s [124, 41, 38, 59]
    if b then pure (rs.foldl .redir (.exec argv), s)
    else
      let tok := gettoken s
      if tok.ret = 0 then pure (rs.foldl .redir (.exec argv), tok.rest)
      else if tok.ret ≠ 97 then throw (.panic "syntax")
      else if 10 ≤ argv.length + 1 then throw (.panic "too many args")
      else do
        let (rs', s) ← parseredirs n tok.rest
        parseargs n s (argv ++ [(tok.q, tok.eq)]) (rs ++ rs')

/-- The loop of `parseline`. -/
def parsebacks : Nat → List UInt8 → Cmd → Except Halt (Cmd × List UInt8)
  | 0, _, _ => throw .diverges
  | n + 1, s, cmd =>
    let (b, s) := peek s [38]
    if b then parsebacks n (gettoken s).rest (.back cmd) else pure (cmd, s)

mutual

def parseline : Nat → List UInt8 → Except Halt (Cmd × List UInt8)
  | 0, _ => throw .diverges
  | n + 1, s => do
    let (cmd, s) ← parsepipe n s
    let (cmd, s) ← parsebacks n s cmd
    let (b, s) := peek s [59]
    if b then do
      let (right, s) ← parseline n (gettoken s).rest
      pure (.list cmd right, s)
    else pure (cmd, s)

def parsepipe : Nat → List UInt8 → Except Halt (Cmd × List UInt8)
  | 0, _ => throw .diverges
  | n + 1, s => do
    let (cmd, s) ← parseexec n s
    let (b, s) := peek s [124]
    if b then do
      let (right, s) ← parsepipe n (gettoken s).rest
      pure (.pipe cmd right, s)
    else pure (cmd, s)

def parseblock : Nat → List UInt8 → Except Halt (Cmd × List UInt8)
  | 0, _ => throw .diverges
  | n + 1, s =>
    let (b, s) := peek s [40]
    if b = false then throw (.panic "parseblock")
    else do
      let (cmd, s) ← parseline n (gettoken s).rest
      let (b, s) := peek s [41]
      if b = false then throw (.panic "syntax - missing )")
      else do
        let (rs, s) ← parseredirs n (gettoken s).rest
        pure (rs.foldl .redir cmd, s)

def parseexec : Nat → List UInt8 → Except Halt (Cmd × List UInt8)
  | 0, _ => throw .diverges
  | n + 1, s =>
    let (b, s) := peek s [40]
    if b then parseblock n s
    else do
      let (rs, s) ← parseredirs n s
      parseargs n s [] rs

end

/-- `parsecmd` up to `nulterminate`. -/
def parsecmd (s : List UInt8) : Except Halt Cmd := do
  let (cmd, r) ← parseline (4 * s.length + 4) s
  let (_, r) := peek r []
  if r ≠ [] then throw (.panic "syntax") else pure cmd

/-- The tokens: words, given by their two ends, and symbols, with `+` for `>>`. -/
inductive Token where
  | word (q eq : Nat)
  | sym (c : UInt8)

def tokens : List UInt8 → List Token
  | [] => []
  | c :: s =>
    if whitespace.contains c then tokens s
    else if c = 62 ∧ s.head? = some 62 then .sym 43 :: tokens s.tail
    else if symbols.contains c then .sym c :: tokens s
    else .word (s.length + 1) (s.dropWhile isWord).length :: tokens (s.dropWhile isWord)
termination_by s => s.length
decreasing_by all_goals grind [List.length_dropWhile_le]

/-- `redir ::= ('<' | '>' | '>>') word`, any number of times. -/
inductive Redirs : List Token → List Redir → Prop where
  | nil : Redirs [] []
  | cons {c : UInt8} {q eq : Nat} {ts : List Token} {rs : List Redir} : c ∈ [60, 62, 43] → Redirs ts rs →
      Redirs (.sym c :: .word q eq :: ts) (redircmd c q eq :: rs)

/-- `(word redir*)*`. -/
inductive Words : List Token → List (Nat × Nat) → List Redir → Prop where
  | nil : Words [] [] []
  | cons {q eq : Nat} {ts us : List Token} {rs rs' : List Redir} {argv : List (Nat × Nat)} : Redirs ts rs →
      Words us argv rs' → Words (.word q eq :: (ts ++ us)) ((q, eq) :: argv) (rs ++ rs')

inductive Phrase where
  | line
  | pipe
  | exec

/-- The grammar of the shell. -/
inductive Derives : Phrase → List Token → Cmd → Prop where
  | line {ts : List Token} {c : Cmd} (n : Nat) : Derives .pipe ts c →
      Derives .line (ts ++ List.replicate n (.sym 38)) (Cmd.back^[n] c)
  | list {ts us : List Token} {c d : Cmd} (n : Nat) : Derives .pipe ts c → Derives .line us d →
      Derives .line (ts ++ List.replicate n (.sym 38) ++ .sym 59 :: us) (.list (Cmd.back^[n] c) d)
  | last {ts : List Token} {c : Cmd} : Derives .exec ts c → Derives .pipe ts c
  | pipe {ts us : List Token} {c d : Cmd} : Derives .exec ts c → Derives .pipe us d →
      Derives .pipe (ts ++ .sym 124 :: us) (.pipe c d)
  | block {ts us : List Token} {c : Cmd} {rs : List Redir} : Derives .line ts c → Redirs us rs →
      Derives .exec (.sym 40 :: (ts ++ .sym 41 :: us)) (rs.foldl .redir c)
  | exec {ts us : List Token} {argv : List (Nat × Nat)} {rs rs' : List Redir} : Redirs ts rs →
      Words us argv rs' → argv.length ≤ 9 →
      Derives .exec (ts ++ us) ((rs ++ rs').foldl .redir (.exec argv))

/-- Whether the first token is one of the symbols; `>>` begins like `>`. -/
def starts (toks : List UInt8) : List Token → Bool
  | .sym c :: _ => toks.contains (if c = 43 then 62 else c)
  | _ => false

section
variable {s toks : List UInt8} {ts us : List Token} {c : UInt8} {q e : Nat}

theorem tokens_skip (s : List UInt8) : tokens (skip s) = tokens s := by
  induction s with
  | nil => rfl
  | cons c s ih =>
    rw [skip, List.dropWhile_cons]
    split <;> simp_all [tokens, skip]

theorem scanToken_cases {r : List UInt8} (h : skip s = c :: r) :
    c = 62 ∧ scanToken (c :: r) = (43, r.tail) ∧ tokens s = .sym 43 :: tokens r.tail ∨
    c ∈ symbols ∧ scanToken (c :: r) = (c, r) ∧ tokens s = .sym c :: tokens r ∨
    c ∉ symbols ∧ scanToken (c :: r) = (97, r.dropWhile isWord) ∧
      tokens s = .word (skip s).length (r.dropWhile isWord).length :: tokens (r.dropWhile isWord) := by
  have hblank : whitespace.contains c = false := by
    have := List.head?_dropWhile_not whitespace.contains s
    simp_all [skip]
  rw [← tokens_skip s, h, tokens, scanToken, hblank, List.dropWhile_cons, isWord, hblank]
  by_cases hc : c ∈ symbols
  · simp only [symbols, List.mem_cons, List.not_mem_nil, or_false] at hc
    rcases hc with rfl | rfl | rfl | rfl | rfl | rfl | rfl <;> by_cases hr : r.head? = some 62 <;> simp [symbols, hr]
  · simp_all [symbols]

/-- `gettoken` takes the first token. -/
theorem gettoken_cases (s : List UInt8) :
    tokens s = [] ∧ (gettoken s).ret = 0 ∧ tokens (gettoken s).rest = [] ∨
    ((gettoken s).ret ∉ [0, 97] ∧ tokens s = .sym (gettoken s).ret :: tokens (gettoken s).rest) ∨
    ((gettoken s).ret = 97 ∧
      tokens s = .word (gettoken s).q (gettoken s).eq :: tokens (gettoken s).rest) := by
  unfold gettoken
  cases h : skip s with
  | nil => exact .inl ⟨by rw [← tokens_skip, h, tokens], rfl, by rw [tokens_skip]; exact tokens.eq_1⟩
  | cons c r =>
    rcases scanToken_cases h with ⟨rfl, hs, ht⟩ | ⟨hc, hs, ht⟩ | ⟨-, hs, ht⟩
    all_goals
      dsimp only
      rw [hs, ht, tokens_skip]
    · exact .inr (.inl ⟨by simp, rfl⟩)
    · have hset : ∀ d ∈ symbols, d ∉ [0, 97] := by simp [symbols]
      exact .inr (.inl ⟨hset c hc, rfl⟩)
    · exact .inr (.inr ⟨rfl, by rw [h]⟩)

theorem peek_eq (toks : List UInt8) (hset : toks.all symbols.contains = true) :
    peek s toks = (starts toks (tokens s), skip s) := by
  unfold peek
  cases h : skip s with
  | nil => rw [← tokens_skip, h, tokens]; rfl
  | cons c r =>
    have h43 : (43 : UInt8) ∉ symbols := by decide
    rw [List.all_eq_true] at hset
    rcases scanToken_cases h with ⟨rfl, -, ht⟩ | ⟨hc, -, ht⟩ | ⟨hc, -, ht⟩ <;> rw [ht] <;> grind [starts]

theorem gettoken_sym (h : tokens s = .sym c :: ts) :
    (gettoken (skip s)).ret = c ∧ tokens (gettoken (skip s)).rest = ts := by
  rw [← tokens_skip] at h
  rcases gettoken_cases (skip s) with ⟨ht, -⟩ | ⟨-, ht⟩ | ⟨-, ht⟩ <;> simp_all

theorem gettoken_word (h : tokens s = .word q e :: ts) : (gettoken s).ret = 97 ∧
    (gettoken s).q = q ∧ (gettoken s).eq = e ∧ tokens (gettoken s).rest = ts := by
  rcases gettoken_cases s with ⟨ht, -⟩ | ⟨-, ht⟩ | ⟨hr, ht⟩ <;> simp_all

theorem tokens_of_starts (h : starts toks (tokens s) = true) :
    toks.contains (if (gettoken (skip s)).ret = 43 then 62 else (gettoken (skip s)).ret) = true ∧
      tokens s = .sym (gettoken (skip s)).ret :: tokens (gettoken (skip s)).rest := by
  rw [← tokens_skip] at h ⊢
  rcases gettoken_cases (skip s) with ⟨ht, -⟩ | ⟨-, ht⟩ | ⟨-, ht⟩ <;> rw [ht] at h
  · cases h
  · exact ⟨h, ht⟩
  · cases h

theorem tokens_symbol (hc : c ≠ 62) (h : starts [c] (tokens s) = true) :
    tokens s = .sym c :: tokens (gettoken (skip s)).rest := by
  obtain ⟨hd, hs⟩ := tokens_of_starts h
  grind

end

def syntaxErrors : List String :=
  ["syntax", "syntax - missing )", "too many args", "missing file for redirection"]

/-- The outcome of a parser on `s`: it has taken tokens that make up what it returns, or it has
stopped with a syntax error. -/
def Parsed {α : Type} (Q : List Token → α → Prop) (s : List UInt8)
    (r : Except Halt (α × List UInt8)) : Prop :=
  (∃ x rest ts, r = .ok (x, rest) ∧ tokens s = ts ++ tokens rest ∧ Q ts x) ∨
    ∃ msg ∈ syntaxErrors, r = .error (.panic msg)

/-- The parser returns `x`, with `us` ahead. -/
def Yields {α : Type} (r : Except Halt (α × List UInt8)) (x : α) (us : List Token) : Prop :=
  ∃ rest, r = .ok (x, rest) ∧ tokens rest = us

section
variable {α β : Type} {Q : List Token → α → Prop} {R : List Token → β → Prop} {s : List UInt8} {n : Nat}
  {r : Except Halt (α × List UInt8)} {f : α × List UInt8 → Except Halt (β × List UInt8)}

theorem Parsed.pure {x : α} {rest : List UInt8} (hr : tokens rest = tokens s) (h : Q [] x) :
    Parsed Q s (pure (x, rest)) :=
  .inl ⟨x, rest, [], rfl, hr.symm, h⟩

theorem Parsed.bind (h : Parsed Q s r) (hf : ∀ x rest ts, (tokens rest).length ≤ (tokens s).length →
      Q ts x → Parsed (fun us => R (ts ++ us)) rest (f (x, rest))) : Parsed R s (r >>= f) := by
  rcases h with ⟨x, rest, ts, rfl, hs, hq⟩ | ⟨msg, hm, rfl⟩
  · rcases hf x rest ts (by simp [hs]) hq with ⟨y, rest', us, hy, hr, hR⟩ | hbad
    · exact .inl ⟨y, rest', ts ++ us, hy, by rw [hs, hr, List.append_assoc], hR⟩
    · exact .inr hbad
  · exact .inr ⟨msg, hm, rfl⟩

theorem Parsed.mono {P : List Token → α → Prop} (h : Parsed Q s r) (hP : ∀ ts x, Q ts x → P ts x) :
    Parsed P s r := by
  rcases h with ⟨x, rest, ts, hr, hs, hq⟩ | hbad
  · exact .inl ⟨x, rest, ts, hr, hs, hP ts x hq⟩
  · exact .inr hbad

theorem Parsed.skip (h : Parsed Q (skip s) r) : Parsed Q s r := by
  unfold Parsed at h
  rwa [tokens_skip] at h

theorem Parsed.behind {t : Token} {s' : List UInt8} (hs : tokens s = t :: tokens s')
    (h : (tokens s').length < (tokens s).length → Parsed (fun ts => Q (t :: ts)) s' r) : Parsed Q s r := by
  rcases h (by simp [hs]) with ⟨x, rest, ts, hr, hts, hq⟩ | hbad
  · exact .inl ⟨x, rest, t :: ts, hr, by rw [hs, hts]; rfl, hq⟩
  · exact .inr hbad

theorem Yields.bind {x : α} {y : β} {us ws : List Token} (h : Yields r x us)
    (hf : ∀ rest, tokens rest = us → Yields (f (x, rest)) y ws) : Yields (r >>= f) y ws := by
  obtain ⟨rest, rfl, hrest⟩ := h
  exact hf rest hrest

theorem parseredirs_parsed (hn : (tokens s).length < n) : Parsed Redirs s (parseredirs n s) := by
  induction n generalizing s with
  | zero => omega
  | succ n ih =>
    rw [parseredirs, peek_eq _ (by rfl)]
    dsimp only
    split
    · rename_i hb
      obtain ⟨hc, ht⟩ := tokens_of_starts hb
      have hset : (gettoken (skip s)).ret ∈ [60, 62, 43] := by grind
      rcases gettoken_cases (gettoken (skip s)).rest with ⟨-, hw, -⟩ | ⟨hw, -⟩ | ⟨hw, hts⟩
      · rw [hw, if_pos (by decide)]
        exact .inr ⟨_, by decide, rfl⟩
      · rw [if_pos (by simp_all)]
        exact .inr ⟨_, by decide, rfl⟩
      · rw [hw, if_neg (by decide)]
        refine .behind ht fun hlt => .behind hts fun hlt' => (ih (by omega)).bind fun rs r ts _ h => ?_
        exact .pure rfl (by simpa using .cons hset h)
    · exact .pure (tokens_skip s) .nil

theorem parsebacks_parsed {cmd : Cmd} (hn : (tokens s).length < n) :
    Parsed (fun ts c => ∃ m, ts = List.replicate m (.sym 38) ∧ c = Cmd.back^[m] cmd) s
      (parsebacks n s cmd) := by
  induction n generalizing s cmd with
  | zero => omega
  | succ n ih =>
    rw [parsebacks, peek_eq _ (by rfl)]
    dsimp only
    split
    · rename_i hb
      refine .behind (tokens_symbol (by decide) hb) fun hlt => (ih (by omega)).mono ?_
      rintro _ _ ⟨m, rfl, rfl⟩
      exact ⟨m + 1, rfl, rfl⟩
    · exact .pure (tokens_skip s) ⟨0, rfl, rfl⟩

theorem parseargs_parsed {argv : List (Nat × Nat)} {rs : List Redir} (hargs : argv.length ≤ 9)
    (hn : (tokens s).length < n) :
    Parsed (fun ts c => ∃ argv' rs', Words ts argv' rs' ∧ (argv ++ argv').length ≤ 9 ∧
      c = (rs ++ rs').foldl .redir (.exec (argv ++ argv'))) s (parseargs n s argv rs) := by
  induction n generalizing s argv rs with
  | zero => omega
  | succ n ih =>
    rw [parseargs, peek_eq _ (by rfl)]
    dsimp only
    split
    · exact .pure (tokens_skip s) ⟨[], [], .nil, by simpa using hargs, by simp⟩
    rw [← tokens_skip] at hn
    refine .skip ?_
    rcases gettoken_cases (skip s) with ⟨ht, hr, hrest⟩ | ⟨hr, -⟩ | ⟨hr, ht⟩
    · rw [hr, if_pos rfl]
      exact .pure (hrest.trans ht.symm) ⟨[], [], .nil, by simpa using hargs, by simp⟩
    · rw [if_neg (by simp_all), if_pos (by simp_all)]
      exact .inr ⟨_, by decide, rfl⟩
    · rw [hr, if_neg (by decide), if_neg (by decide)]
      split
      · exact .inr ⟨_, by decide, rfl⟩
      · refine .behind ht fun hlt => (parseredirs_parsed (by omega)).bind fun rs' r ts hle hredirs => ?_
        refine (ih (by simp; omega) (by omega)).mono ?_
        rintro us _ ⟨argv', rs'', hwords, hlen, rfl⟩
        exact ⟨_, _, .cons hredirs hwords, by simpa using hlen, by simp⟩

/-- What is parsed is derived, and there is fuel enough. -/
theorem parse_parsed (n : Nat) (s : List UInt8) :
    (4 * (tokens s).length + 4 ≤ n → Parsed (Derives .line) s (parseline n s)) ∧
    (4 * (tokens s).length + 3 ≤ n → Parsed (Derives .pipe) s (parsepipe n s)) ∧
    (4 * (tokens s).length + 1 ≤ n → starts [40] (tokens s) = true →
      Parsed (Derives .exec) s (parseblock n s)) ∧
    (4 * (tokens s).length + 2 ≤ n → Parsed (Derives .exec) s (parseexec n s)) := by
  induction n generalizing s with
  | zero => exact ⟨by omega, by omega, by omega, by omega⟩
  | succ n ih =>
    refine ⟨fun hn => ?_, fun hn => ?_, fun hn hb => ?_, fun hn => ?_⟩
    · rw [parseline]
      refine ((ih s).2.1 (by omega)).bind fun c s1 ts hle hpipe => ?_
      refine (parsebacks_parsed (by omega)).bind fun c' s2 us hle' hback => ?_
      obtain ⟨m, rfl, rfl⟩ := hback
      simp only [peek_eq [59] (by rfl)]
      split
      · rename_i hb
        refine .behind (tokens_symbol (by decide) hb) fun hlt => ((ih _).1 (by omega)).bind
          fun d s3 ws _ hline => .pure rfl ?_
        simpa using Derives.list m hpipe hline
      · exact .pure (tokens_skip s2) (by simpa using Derives.line m hpipe)
    · rw [parsepipe]
      refine ((ih s).2.2.2 (by omega)).bind fun c s1 ts hle hexec => ?_
      simp only [peek_eq [124] (by rfl)]
      split
      · rename_i hb
        refine .behind (tokens_symbol (by decide) hb) fun hlt => ((ih _).2.1 (by omega)).bind
          fun d s2 us _ hpipe => .pure rfl ?_
        simpa using Derives.pipe hexec hpipe
      · exact .pure (tokens_skip s1) (by simpa using Derives.last hexec)
    · rw [parseblock, peek_eq _ (by rfl), hb]
      dsimp only
      rw [if_neg (by decide)]
      refine .behind (tokens_symbol (by decide) hb) fun hlt => ((ih _).1 (by omega)).bind
        fun c s1 ts hle hline => ?_
      simp only [peek_eq [41] (by rfl)]
      split
      · exact .inr ⟨_, by decide, rfl⟩
      · rename_i hb
        refine .behind (tokens_symbol (s := s1) (by decide) (Bool.eq_true_of_not_eq_false hb)) fun hlt' =>
          (parseredirs_parsed (by omega)).bind fun rs s2 us _ hredirs => .pure rfl ?_
        simpa using Derives.block hline hredirs
    · rw [parseexec, peek_eq _ (by rfl)]
      dsimp only
      rw [← tokens_skip] at hn
      refine .skip ?_
      split
      · rename_i hb
        rw [← tokens_skip] at hb
        exact (ih _).2.2.1 (by omega) hb
      · refine (parseredirs_parsed (by omega)).bind fun rs s1 ts hle hredirs => ?_
        refine (parseargs_parsed (by simp) (by omega)).mono ?_
        rintro us _ ⟨argv, rs', hwords, hlen, rfl⟩
        exact .exec hredirs hwords hlen

end

/-- The symbols that can come behind a phrase. -/
def Phrase.follow : Phrase → List UInt8
  | line => [41]
  | pipe => [41, 38, 59]
  | exec => [124, 41, 38, 59]

def Phrase.parse : Phrase → Nat → List UInt8 → Except Halt (Cmd × List UInt8)
  | line => parseline
  | pipe => parsepipe
  | exec => parseexec

def Phrase.fuel : Phrase → Nat
  | line => 4
  | pipe => 3
  | exec => 2

def Phrase.Ends (f : Phrase) (us : List Token) : Prop := us = [] ∨ starts f.follow us = true

section
variable {s toks : List UInt8} {ts us : List Token} {n : Nat} {f : Phrase} {cmd : Cmd} {rs : List Redir}

theorem Phrase.Ends.not_starts (h : f.Ends us) (hd : f.follow.all (!toks.contains ·) = true) :
    starts toks us = false := by
  rw [List.all_eq_true] at hd
  rcases us with - | ⟨⟨q, e⟩ | c, us⟩ <;> grind [Ends, starts]

theorem Redirs.not_starts (h : Redirs ts rs) (hd : 60 ∉ toks ∧ 62 ∉ toks) (hus : starts toks us = false) :
    starts toks (ts ++ us) = false := by
  cases h <;> grind [starts]

theorem Words.not_starts {argv : List (Nat × Nat)} (h : Words ts argv rs) (hus : starts toks us = false) :
    starts toks (ts ++ us) = false := by
  cases h <;> simp_all [starts]

theorem parseredirs_complete (h : Redirs ts rs) (hs : tokens s = ts ++ us)
    (hus : starts [60, 62] us = false) (hn : ts.length < n) : Yields (parseredirs n s) rs us := by
  induction h generalizing s n with
  | nil =>
    obtain - | n := n
    · omega
    rw [parseredirs, peek_eq _ (by rfl), hs, List.nil_append, hus]
    exact ⟨_, rfl, (tokens_skip s).trans hs⟩
  | cons hc _ ih =>
    obtain - | n := n
    · omega
    have hb : starts [60, 62] (tokens s) = true := by grind [starts]
    obtain ⟨hret, hrest⟩ := gettoken_sym hs
    obtain ⟨hret', hq, he, hrest'⟩ := gettoken_word hrest
    rw [parseredirs, peek_eq _ (by rfl), hb]
    dsimp only
    rw [if_pos rfl, hret', if_neg (by decide), hret, hq, he]
    exact (ih hrest' (by simp at hn; omega)).bind fun r hr => ⟨r, rfl, hr⟩

theorem parsebacks_complete {m : Nat} (hs : tokens s = List.replicate m (.sym 38) ++ us)
    (hus : starts [38] us = false) (hn : m < n) : Yields (parsebacks n s cmd) (Cmd.back^[m] cmd) us := by
  induction m generalizing s n cmd with
  | zero =>
    obtain - | n := n
    · omega
    rw [parsebacks, peek_eq _ (by rfl), hs, List.replicate_zero, List.nil_append, hus]
    exact ⟨_, rfl, (tokens_skip s).trans hs⟩
  | succ m ih =>
    obtain - | n := n
    · omega
    rw [parsebacks, peek_eq _ (by rfl), hs]
    exact ih (gettoken_sym hs).2 (by omega)

theorem parseargs_complete {argv argv' : List (Nat × Nat)} {rs' : List Redir} (h : Words ts argv' rs')
    (hs : tokens s = ts ++ us) (hlen : (argv ++ argv').length ≤ 9) (hus : Phrase.exec.Ends us)
    (hn : ts.length < n) :
    Yields (parseargs n s argv rs) ((rs ++ rs').foldl .redir (.exec (argv ++ argv'))) us := by
  induction h generalizing s n argv rs with
  | nil =>
    obtain - | n := n
    · omega
    rw [List.nil_append] at hs
    rw [parseargs, peek_eq _ (by rfl), hs, List.append_nil, List.append_nil]
    dsimp only
    rcases hus with rfl | hus
    · rcases gettoken_cases (skip s) with ⟨-, hr, hrest⟩ | ⟨-, ht⟩ | ⟨-, ht⟩
      · rw [if_neg (by decide), hr, if_pos rfl]
        exact ⟨_, rfl, hrest⟩
      all_goals simp_all [tokens_skip]
    · rw [if_pos (show starts [124, 41, 38, 59] us = true from hus)]
      exact ⟨_, rfl, (tokens_skip s).trans hs⟩
  | @cons _ _ _ _ _ _ argv2 hredirs hwords ih =>
    obtain - | n := n
    · omega
    rw [List.cons_append, List.append_assoc] at hs
    obtain ⟨hret, hq, he, hrest⟩ := gettoken_word ((tokens_skip s).trans hs)
    rw [List.length_cons, List.length_append] at hn
    rw [List.length_append, List.length_cons] at hlen
    rw [parseargs, peek_eq _ (by rfl), hs]
    dsimp only [starts, List.cons_append]
    rw [if_neg (by decide), hret, if_neg (by decide), if_neg (by decide), if_neg (by omega), hq, he]
    refine (parseredirs_complete hredirs hrest (hwords.not_starts (hus.not_starts (by rfl)))
      (by omega)).bind fun r hr => ?_
    dsimp only
    rw [List.append_cons _ _ argv2, ← List.append_assoc rs]
    exact ih hr (by simp; omega) (by omega)

theorem Phrase.Ends.mono {g : Phrase} (h : f.Ends us) (hfg : f.follow.all g.follow.contains = true) : g.Ends us := by
  rw [List.all_eq_true] at hfg
  rcases us with - | ⟨⟨q, e⟩ | c, us⟩ <;> grind [Ends, starts]

/-- A phrase in front of something that ends it is parsed. -/
theorem Derives.complete (h : Derives f ts cmd) (hs : tokens s = ts ++ us) (hus : f.Ends us)
    (hn : 4 * ts.length + f.fuel ≤ n) : Yields (f.parse n s) cmd us := by
  induction h generalizing s us n with
  | line m _ ih =>
    simp only [Phrase.fuel, Phrase.parse, List.length_append, List.length_replicate] at hn ih ⊢
    obtain - | n := n
    · omega
    rw [List.append_assoc] at hs
    rw [parseline]
    refine (ih hs (by cases m; exacts [hus.mono (by rfl), .inr rfl]) (by omega)).bind fun r hr =>
      (parsebacks_complete hr (hus.not_starts (by rfl)) (by omega)).bind fun r' hr' => ?_
    dsimp only
    rw [peek_eq _ (by rfl), hr', hus.not_starts (by rfl)]
    exact ⟨_, rfl, (tokens_skip r').trans hr'⟩
  | list m _ _ ih ih' =>
    simp only [Phrase.fuel, Phrase.parse, List.length_append, List.length_replicate, List.length_cons] at hn ih ih' ⊢
    obtain - | n := n
    · omega
    rw [List.append_assoc, List.append_assoc] at hs
    rw [parseline]
    refine (ih hs (by cases m <;> exact .inr rfl) (by omega)).bind fun r hr =>
      (parsebacks_complete hr rfl (by omega)).bind fun r' hr' => ?_
    simp only [peek_eq [59] (by rfl), hr']
    exact (ih' (gettoken_sym hr').2 hus (by omega)).bind fun _ h => ⟨_, rfl, h⟩
  | last _ ih =>
    simp only [Phrase.fuel, Phrase.parse] at hn ih ⊢
    obtain - | n := n
    · omega
    rw [parsepipe]
    refine (ih hs (hus.mono (by rfl)) (by omega)).bind fun r hr => ?_
    dsimp only
    rw [peek_eq _ (by rfl), hr, hus.not_starts (by rfl)]
    exact ⟨_, rfl, (tokens_skip r).trans hr⟩
  | pipe _ _ ih ih' =>
    simp only [Phrase.fuel, Phrase.parse, List.length_append, List.length_cons] at hn ih ih' ⊢
    obtain - | n := n
    · omega
    rw [List.append_assoc] at hs
    rw [parsepipe]
    refine (ih hs (.inr rfl) (by omega)).bind fun r hr => ?_
    simp only [peek_eq [124] (by rfl), hr]
    exact (ih' (gettoken_sym hr).2 hus (by omega)).bind fun _ h => ⟨_, rfl, h⟩
  | block _ hredirs ih =>
    simp only [Phrase.fuel, Phrase.parse, List.length_append, List.length_cons] at hn ih ⊢
    obtain - | - | n := n
    · omega
    · omega
    rw [List.cons_append, List.append_assoc] at hs
    have hrest := (gettoken_sym ((tokens_skip s).trans hs)).2
    rw [parseexec, peek_eq _ (by rfl), hs]
    dsimp only
    rw [if_pos (by rfl), parseblock, peek_eq _ (by rfl), tokens_skip, hs]
    dsimp only
    rw [if_neg (by simp [starts])]
    refine (ih hrest (.inr rfl) (by omega)).bind fun r hr => ?_
    dsimp only
    rw [peek_eq _ (by rfl), hr]
    exact (parseredirs_complete hredirs (gettoken_sym hr).2 (hus.not_starts (by rfl))
      (by omega)).bind fun _ h => ⟨_, rfl, h⟩
  | exec hredirs hwords hlen =>
    simp only [Phrase.fuel, Phrase.parse, List.length_append] at hn ⊢
    obtain - | n := n
    · omega
    rw [List.append_assoc] at hs
    rw [parseexec, peek_eq _ (by rfl), hs,
      hredirs.not_starts (by decide) (hwords.not_starts (hus.not_starts (by rfl)))]
    dsimp only
    rw [if_neg (by decide)]
    exact (parseredirs_complete hredirs ((tokens_skip s).trans hs) (hwords.not_starts (hus.not_starts (by rfl)))
      (by omega)).bind fun r hr => parseargs_complete hwords hr hlen hus (by omega)

end

theorem length_tokens_le (s : List UInt8) : (tokens s).length ≤ s.length := by
  fun_induction tokens s <;> grind [List.length_dropWhile_le]

theorem skip_eq_nil {s : List UInt8} : skip s = [] ↔ tokens s = [] := by
  cases h : skip s with
  | nil =>
    simp [← tokens_skip s, h, tokens]
  | cons c r =>
    rcases scanToken_cases h with ⟨-, -, ht⟩ | ⟨-, -, ht⟩ | ⟨-, -, ht⟩ <;> simp [ht]

theorem parsecmd_eq {s r : List UInt8} {t : Cmd} (h : parseline (4 * s.length + 4) s = .ok (t, r)) :
    parsecmd s = if tokens r = [] then .ok t else .error (.panic "syntax") := by
  have hcmd : parsecmd s = if skip r ≠ [] then throw (.panic "syntax") else pure t := bind_of_ok h
  by_cases hr : tokens r = [] <;> simp [hcmd, hr, skip_eq_nil] <;> rfl

theorem parsecmd_parsed (s : List UInt8) : (∃ t, parsecmd s = .ok t ∧ Derives .line (tokens s) t) ∨
    ∃ msg ∈ syntaxErrors, parsecmd s = .error (.panic msg) := by
  have hlen := length_tokens_le s
  rcases (parse_parsed (4 * s.length + 4) s).1 (by omega) with ⟨c, r, ts, hr, hts, hd⟩ | ⟨msg, hm, hr⟩
  · rw [parsecmd_eq hr]
    split
    · rename_i hrest
      rw [hrest, List.append_nil] at hts
      exact .inl ⟨c, rfl, hts ▸ hd⟩
    · exact .inr ⟨_, by decide, rfl⟩
  · exact .inr ⟨msg, hm, by rw [parsecmd, hr]; rfl⟩

theorem Derives.parsecmd {s : List UInt8} {t : Cmd} (h : Derives .line (tokens s) t) :
    parsecmd s = .ok t := by
  have hlen := length_tokens_le s
  obtain ⟨r, hr, hnil⟩ := h.complete (n := 4 * s.length + 4) (List.append_nil _).symm (.inl rfl)
    (by simp only [Phrase.fuel]; omega)
  rw [parsecmd_eq hr, if_pos hnil]

theorem derives_of_parsecmd {s : List UInt8} {t : Cmd} (h : parsecmd s = .ok t) :
    Derives .line (tokens s) t := by
  rcases parsecmd_parsed s with ⟨u, hu, hd⟩ | ⟨msg, -, hu⟩ <;> cases h.symm.trans hu
  exact hd

/-- `parsecmd` returns the tree that the grammar gives to the tokens, and stops with a syntax
error when there is none. -/
theorem parsecmd_iff (s : List UInt8) :
    (∀ t, parsecmd s = .ok t ↔ Derives .line (tokens s) t) ∧
    ((¬ ∃ t, Derives .line (tokens s) t) → ∃ msg ∈ syntaxErrors, parsecmd s = .error (.panic msg)) :=
  ⟨fun _ => ⟨derives_of_parsecmd, Derives.parsecmd⟩, fun hno =>
    (parsecmd_parsed s).resolve_left fun h => hno (h.imp fun _ h => h.2)⟩

end Xv6.Shell
