import Mathlib.Data.List.Induction
import Mathlib.Tactic.SplitIfs
import Xv6.Console

/-!
The console as its users see it. What is typed is a line that can be edited, and lines that
can not; reads take the characters of those in order, up to a line end or a `^D`. It is told
from the steps of a run alone, that is from what `getc` returned and what calls of
`consoleread` took and returned.
-/

namespace Xv6.Console

open Function

/-- A call of `consoleread` that has ended: the characters it has taken, and the character
that was next when it ended. -/
structure Call where
  size : Nat
  taken : List UInt8
  result : Result
  left : Option UInt8

/-- What has been typed and read. `hand p` is the call process `p` is in, with its size and the
characters it has taken. -/
structure Tty where
  done : List UInt8
  line : List UInt8
  eaten : List UInt8
  hand : Nat → Option (Nat × List UInt8)
  finished : List Call

namespace Tty

def waiting (t : Tty) : List UInt8 := t.done.drop t.eaten.length

/-- A character is typed. A line is complete with a line end or a `^D`, and when the buffer is
full. -/
def type (t : Tty) (c : UInt8) : Tty :=
  if c = ctrlP ∨ c = 0 then t
  else if c = ctrlU then { t with line := [] }
  else if c = ctrlH ∨ c = delete then { t with line := t.line.dropLast }
  else if (t.waiting ++ t.line).length = INPUT_BUF then t
  else
    let c := if c = carriageReturn then newline else c
    let line := t.line ++ [c]
    if c = newline ∨ c = ctrlD ∨ (t.waiting ++ line).length = INPUT_BUF then
      { t with done := t.done ++ line, line := [] }
    else { t with line := line }

/-- The call of process `p`, which has taken `hand`, goes on. -/
def take (t : Tty) (p size : Nat) (hand : List UInt8) (e : Event) : Tty :=
  let t := { t with eaten := t.eaten ++ e.ate }
  match e.result with
  | none => { t with hand := update t.hand p (some (size, hand ++ e.ate)) }
  | some res =>
    { t with
      hand := update t.hand p none
      finished := t.finished ++ [⟨size, hand ++ e.ate, res, t.waiting.head?⟩] }

def next (t : Tty) (l : Act × Event) : Tty :=
  match l.1 with
  | .intr cs => cs.foldl type t
  | .read p n => t.take p n [] l.2
  | .resume p =>
    match t.hand p with
    | some (n, hand) => t.take p n hand l.2
    | none => t
  | .kill _ => t

def empty : Tty := ⟨[], [], [], fun _ => none, []⟩

def after (ls : List (Act × Event)) : Tty := ls.foldl next empty

end Tty

/-- A call takes characters up to a line end, its size or a `^D`, which it leaves. A call that
finds the `^D` first takes it and returns 0. -/
def Call.Ok (c : Call) : Prop :=
  match c.result with
  | .failed => ctrlD ∉ c.taken
  | .returned value dst =>
    value = dst.length ∧ value ≤ c.size ∧ newline ∉ dst.dropLast ∧
    ((c.taken = [ctrlD] ∧ dst = [] ∧ 0 < c.size) ∨
     (c.taken = dst ∧ ctrlD ∉ dst ∧
      (value = c.size ∨ dst.getLast? = some newline ∨ (dst ≠ [] ∧ c.left = some ctrlD))))

section
variable {t : Tty} {ls : List (Act × Event)}

theorem Tty.after_snoc (ls : List (Act × Event)) (l : Act × Event) : Tty.after (ls ++ [l]) = (Tty.after ls).next l := by
  rw [Tty.after, Tty.after, List.foldl_append]
  rfl

theorem Tty.waiting_commit (hle : t.eaten <+: t.done) (line : List UInt8) :
    { t with done := t.done ++ line, line := [] }.waiting = t.waiting ++ line :=
  List.drop_append_of_le_length hle.length_le

theorem Tty.done_eq (h : t.eaten <+: t.done) : t.done = t.eaten ++ t.waiting :=
  List.prefix_iff_eq_append.mp h |>.symm

theorem Tty.type_frame (t : Tty) (c : UInt8) : (t.type c).eaten = t.eaten ∧ (t.type c).hand = t.hand ∧
    (t.type c).finished = t.finished ∧ t.done <+: (t.type c).done := by
  unfold Tty.type
  dsimp only
  split_ifs <;> exact ⟨rfl, rfl, rfl, by simp⟩

theorem Tty.typed_frame (t : Tty) (cs : List UInt8) :
    (cs.foldl Tty.type t).eaten = t.eaten ∧ t.done <+: (cs.foldl Tty.type t).done := by
  induction cs generalizing t with
  | nil => exact ⟨rfl, List.prefix_rfl⟩
  | cons c cs ih =>
    obtain ⟨heaten, -, -, hdone⟩ := t.type_frame c
    obtain ⟨hih, hdone'⟩ := ih (t.type c)
    exact ⟨hih.trans heaten, hdone.trans hdone'⟩

theorem Tty.take_frame (t : Tty) (p n : Nat) (hand : List UInt8) (e : Event) :
    (t.take p n hand e).eaten = t.eaten ++ e.ate ∧ (t.take p n hand e).done = t.done := by
  unfold Tty.take
  cases e.result <;> exact ⟨rfl, rfl⟩

def Successive (ls : List (Act × Event)) : Prop :=
  ∀ pre p n e post, ls = pre ++ (.read p n, e) :: post → ∀ q, (Tty.after pre).hand q = none

theorem Successive.init {l : Act × Event} (h : Successive (ls ++ [l])) : Successive ls := by
  rintro pre p n e post rfl
  exact h pre p n e (post ++ [l]) (by simp)

/-- One call at most is under way, and what it has taken comes behind what the calls before it
have taken. -/
inductive Tty.InOrder (t : Tty) : Prop where
  | idle (heaten : t.eaten = (t.finished.map Call.taken).flatten) (hnone : ∀ p, t.hand p = none)
  | under (p n : Nat) (hand : List UInt8) (heaten : t.eaten = (t.finished.map Call.taken).flatten ++ hand)
      (hhand : t.hand = update (fun _ => none) p (some (n, hand)))

theorem Tty.InOrder.take {p n : Nat} {hand : List UInt8} (e : Event)
    (heaten : t.eaten = (t.finished.map Call.taken).flatten ++ hand) (hother : ∀ q, q ≠ p → t.hand q = none) :
    (t.take p n hand e).InOrder := by
  have hhand : ∀ x : Option (Nat × List UInt8),
      update t.hand p x = update (fun _ => none) p x := by
    intro x
    funext q
    by_cases hq : q = p
    · rw [hq, update_self, update_self]
    · rw [update_of_ne hq, update_of_ne hq, hother q hq]
  unfold Tty.take
  cases e.result with
  | none =>
    refine .under p n (hand ++ e.ate) ?_ (hhand _)
    dsimp only
    rw [heaten, List.append_assoc]
  | some res =>
    refine .idle ?_ fun q => ?_
    · dsimp only
      rw [heaten, List.map_append, List.flatten_append, List.append_assoc]
      simp
    · dsimp only
      rw [hhand]
      by_cases hq : q = p
      · rw [hq, update_self]
      · rw [update_of_ne hq]

theorem Tty.InOrder.typed (h : t.InOrder) (cs : List UInt8) : (cs.foldl Tty.type t).InOrder := by
  induction cs generalizing t with
  | nil => exact h
  | cons c cs ih =>
    refine ih ?_
    obtain ⟨heaten, hhand, hfinished, -⟩ := t.type_frame c
    cases h with
    | idle he hnone => exact .idle (by rw [heaten, hfinished, he]) (by rwa [hhand])
    | under p n hand he hh => exact .under p n hand (by rw [heaten, hfinished, he]) (by rw [hhand, hh])

theorem Tty.InOrder.next {l : Act × Event} (h : t.InOrder) (hread : ∀ p n, l.1 = .read p n → ∀ q, t.hand q = none) :
    (t.next l).InOrder := by
  obtain ⟨a, e⟩ := l
  cases a with
  | intr cs => exact h.typed cs
  | read p n =>
    have hnone := hread p n rfl
    refine .take e ?_ fun q _ => hnone q
    cases h with
    | idle heaten _ => rw [heaten, List.append_nil]
    | under q m hand _ hhand =>
      have hq := hnone q
      rw [hhand, update_self] at hq
      cases hq
  | resume p =>
    unfold Tty.next
    dsimp only
    cases hp : t.hand p with
    | none => exact h
    | some call =>
      cases h with
      | idle _ hnone =>
        rw [hnone p] at hp
        cases hp
      | under q m hand heaten hhand =>
        have hpq : p = q := by
          by_contra hne
          rw [hhand, update_of_ne hne] at hp
          cases hp
        subst hpq
        rw [hhand, update_self] at hp
        cases hp
        refine .take e heaten fun q hq => ?_
        rw [hhand, update_of_ne hq]
  | kill p => exact h

theorem Successive.inOrder (h : Successive ls) : (Tty.after ls).InOrder := by
  induction ls using List.reverseRecOn with
  | nil => exact .idle rfl fun _ => rfl
  | append_singleton ls l ih =>
    rw [Tty.after_snoc]
    refine (ih h.init).next fun p n hl => ?_
    exact h ls p n l.2 [] (by rw [← hl])

end

end Xv6.Console
