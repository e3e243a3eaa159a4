import Xv6.Lib.Cyclic
import Xv6.Lib.Run

/-!
The input side of the console. `consoleintr` runs from its `acquire` to its `release` as one
step; a call of `consoleread` is cut at its `sleep`, which gives up `cons.lock`. Any number of
processes read, and any of them can be killed. The echo and the process listing of `^P` are
left out.
-/

namespace Xv6.Console

open Function

abbrev INPUT_BUF : Nat := 128

def ctrlD : UInt8 := 0x04
def ctrlH : UInt8 := 0x08
def ctrlP : UInt8 := 0x10
def ctrlU : UInt8 := 0x15
def delete : UInt8 := 0x7f
def newline : UInt8 := 0x0a
def carriageReturn : UInt8 := 0x0d

/-- The indices are 32-bit words. -/
structure Input where
  buf : Nat → UInt8
  /-- read, write and edit index -/
  r : Nat
  w : Nat
  e : Nat

/-- `input.e--` -/
def Input.back (i : Input) : Input := { i with e := (i.e + 0x100000000 - 1) % 0x100000000 }

/-- The loop of `^U`, which makes at most `e - w` turns. -/
def Input.killLoop : Nat → Input → Input
  | 0, i => i
  | k + 1, i =>
    if i.e ≠ i.w ∧ i.buf ((i.e + 0x100000000 - 1) % 0x100000000 % 128) ≠ newline then
      killLoop k i.back
    else i

def Input.killLine (i : Input) : Input :=
  killLoop ((i.e + 0x100000000 - i.w) % 0x100000000) i

def Input.put (i : Input) (c : UInt8) : Input :=
  { i with buf := update i.buf (i.e % 128) c, e := (i.e + 1) % 0x100000000 }

/-- The `switch` of `consoleintr` for one character, and whether it calls `wakeup`. -/
def Input.key (i : Input) (c : UInt8) : Bool × Input :=
  if c = ctrlP then (false, i)
  else if c = ctrlU then (false, i.killLine)
  else if c = ctrlH ∨ c = delete then (false, if i.e ≠ i.w then i.back else i)
  else if c ≠ 0 ∧ (i.e + 0x100000000 - i.r) % 0x100000000 < 128 then
    let c := if c = carriageReturn then newline else c
    let i := i.put c
    if c = newline ∨ c = ctrlD ∨ i.e = (i.r + 128) % 0x100000000 then (true, { i with w := i.e })
    else (false, i)
  else (false, i)

/-- What a call of `consoleread` returns, with the bytes it has stored. -/
inductive Result where
  | returned (value : Nat) (dst : List UInt8)
  /-- -1, for a process that has been killed -/
  | failed
deriving DecidableEq

inductive Exit where
  | sleeps (n : Nat) (dst : List UInt8)
  | returns (res : Result)
deriving DecidableEq

/-- The loop of `consoleread` with `n` bytes to go, up to the next `sleep`. -/
def Input.read (killed : Bool) (target : Nat) : Nat → List UInt8 → Input → Exit × Input
  | 0, dst, i => (.returns (.returned (target - 0) dst), i)
  | n + 1, dst, i =>
    if i.r = i.w then
      if killed then (.returns .failed, i) else (.sleeps (n + 1) dst, i)
    else
      let c := i.buf (i.r % 128)
      let i' := { i with r := (i.r + 1) % 0x100000000 }
      if c = ctrlD then
        (.returns (.returned (target - (n + 1)) dst),
          if n + 1 < target then { i' with r := (i'.r + 0x100000000 - 1) % 0x100000000 } else i')
      else if c = newline then (.returns (.returned (target - n) (dst ++ [c])), i')
      else read killed target n (dst ++ [c]) i'

/-- Where a process is: outside, asleep in a call, or awake again. -/
inductive Pc where
  | out
  | asleep (target n : Nat) (dst : List UInt8)
  | awake (target n : Nat) (dst : List UInt8)
deriving DecidableEq

def Pc.woken : Pc → Pc
  | asleep target n dst => awake target n dst
  | pc => pc

structure Sys where
  input : Input
  pc : Nat → Pc
  killed : Nat → Bool

def Sys.fresh (buf : Nat → UInt8) : Sys := ⟨⟨buf, 0, 0, 0⟩, fun _ => .out, fun _ => false⟩

def Sys.key (s : Sys) (c : UInt8) : Sys :=
  let r := s.input.key c
  { s with input := r.2, pc := if r.1 then fun p => (s.pc p).woken else s.pc }

/-- `consoleintr`, for the characters that `getc` returns. -/
def Sys.consoleintr (s : Sys) (cs : List UInt8) : Sys := cs.foldl key s

inductive Act where
  | intr (cs : List UInt8)
  /-- `consoleread(n)`; a negative size reads nothing, as 0 does -/
  | read (p n : Nat)
  /-- a process that is awake again goes on -/
  | resume (p : Nat)
  | kill (p : Nat)

/-- What is seen of a step: the characters the read index has passed, and the result of a call
that ends. -/
structure Event where
  ate : List UInt8
  result : Option Result

def Input.window (i : Input) (head tail : Nat) : List UInt8 :=
  Lib.Cyclic.toList 128 0x100000000 ⟨i.buf, head, tail⟩

/-- A call of `consoleread` runs until it sleeps or returns. -/
def Sys.consoleread (s : Sys) (p target n : Nat) (dst : List UInt8) : Event × Sys :=
  let x := s.input.read (s.killed p) target n dst
  let ate := s.input.window s.input.r x.2.r
  match x.1 with
  | .sleeps n dst => (⟨ate, none⟩, { s with input := x.2, pc := update s.pc p (.asleep target n dst) })
  | .returns res => (⟨ate, some res⟩, { s with input := x.2, pc := update s.pc p .out })

def Sys.step (s : Sys) : Act → Option (Event × Sys)
  | .intr cs => some (⟨[], none⟩, s.consoleintr cs)
  | .read p n => if s.pc p = .out then some (s.consoleread p n n []) else none
  | .resume p =>
    match s.pc p with
    | .awake target n dst => some (s.consoleread p target n dst)
    | _ => none
  | .kill p =>
    some (⟨[], none⟩, { s with killed := update s.killed p true,
                               pc := update s.pc p (s.pc p).woken })

def Step (s : Sys) (l : Act × Event) (t : Sys) : Prop := s.step l.1 = some (l.2, t)

end Xv6.Console
