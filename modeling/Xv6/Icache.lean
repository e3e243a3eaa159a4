import Xv6.Inodes
import Mathlib.Data.Fin.Basic

/-!
The inode cache, with the steps of processes between which others can run: the critical
sections of `icache.lock`, and what is done under the sleep-lock of an inode. Which references
a process holds is recorded; a reference can be for another process (`fork`) or pass to one
(the file table is shared). There is one device.
-/

namespace Xv6

open Function

abbrev NINODE : Nat := 50

/-- An entry of the cache: a `struct inode`, with the holder of its sleep-lock. -/
structure Ientry (P : Type) where
  inum : Nat := 0
  ref : Nat := 0
  valid : Bool := false
  copy : Dinode := {}
  holder : Option P := none

/-- Where a process is inside `ialloc` or `iput`. -/
inductive IPc where
  | idle
  | alloced (inum : Nat)
  | locked (e : Fin NINODE)
  | tested (e : Fin NINODE) (last : Bool)
  | unlocking (e : Fin NINODE)
  | dropping (e : Fin NINODE)
deriving DecidableEq

structure Icache (P : Type) where
  fs : Fs
  entry : Fin NINODE → Ientry P := fun _ => {}
  held : P → Fin NINODE → Nat := fun _ _ => 0
  pc : P → IPc := fun _ => .idle

inductive IAct (P : Type) where
  | iget (p : P) (inum : Nat)
  | idup (p q : P) (e : Fin NINODE)
  | pass (p q : P) (e : Fin NINODE)
  | ilock (p : P) (e : Fin NINODE)
  | iunlock (p : P) (e : Fin NINODE)
  | readi (p : P) (e : Fin NINODE) (off n : Nat) (dev : Option (List UInt8))
  | writei (p : P) (e : Fin NINODE) (src : List UInt8) (off : Nat) (dev : Option Nat)
  | update (p : P) (e : Fin NINODE) (major minor nlink : Nat)
  | itrunc (p : P) (e : Fin NINODE)
  | ialloc (p : P) (type : Nat)
  | allocGet (p : P)
  | putLock (p : P) (e : Fin NINODE)
  | putTest (p : P)
  | putFree (p : P)
  | putUnlock (p : P)
  | putDrop (p : P)

namespace Icache

section
variable {P : Type} [DecidableEq P] (s : Icache P)

def setEntry (e : Fin NINODE) (x : Ientry P) : Icache P :=
  { s with entry := Function.update s.entry e x }

def setHeld (p : P) (e : Fin NINODE) (n : Nat) : Icache P :=
  { s with held := Function.update s.held p (Function.update (s.held p) e n) }

def setPc (p : P) (pc : IPc) : Icache P := { s with pc := Function.update s.pc p pc }

def addRef (p : P) (e : Fin NINODE) : Icache P :=
  (s.setEntry e { s.entry e with ref := (s.entry e).ref + 1 }).setHeld p e (s.held p e + 1)

def cached (inum : Nat) : Option (Fin NINODE) :=
  (List.finRange NINODE).find? fun e => 0 < (s.entry e).ref ∧ (s.entry e).inum = inum

def empty : Option (Fin NINODE) := (List.finRange NINODE).find? fun e => (s.entry e).ref = 0

def iget (p : P) (inum : Nat) : Except Halt (Icache P) :=
  match s.cached inum with
  | some e => pure (s.addRef p e)
  | none =>
    match s.empty with
    | none => throw (.panic "iget: no inodes")
    | some e =>
      pure ((s.setEntry e { s.entry e with inum := inum, ref := 0, valid := false }).addRef p e)

/-- `ilock` once the sleep-lock is free. -/
def ilock (p : P) (e : Fin NINODE) : Except Halt (Icache P) :=
  if (s.entry e).valid then pure (s.setEntry e { s.entry e with holder := some p })
  else do
    let d ← s.fs.load (s.entry e).inum
    pure (s.setEntry e { s.entry e with valid := true, copy := d, holder := some p })

/-- The blocks and the copy of an inode in memory have changed. -/
def setInode (e : Fin NINODE) (fs : Fs) (ip : Dinode) : Icache P :=
  { s with fs := fs, entry := Function.update s.entry e { s.entry e with copy := ip } }

/-- A change of the link count, or of the other fields that `create` sets, with the `iupdate`
behind it. -/
def update (e : Fin NINODE) (major minor nlink : Nat) : Icache P :=
  let ip := { (s.entry e).copy with
    major := major % 65536, minor := minor % 65536, nlink := nlink % 65536 }
  s.setInode e (s.fs.iupdate (s.entry e).inum ip) ip

def freeInode : Option Nat :=
  (List.range' 1 (s.fs.sb.ninodes - 1)).find? fun i => (s.fs.dinode i).type = 0

/-- `ialloc` up to its call of `iget`. -/
def ialloc (p : P) (type : Nat) : Except Halt (Icache P) :=
  match s.freeInode with
  | none => throw (.panic "ialloc: no inodes")
  | some i => pure ({ s with fs := s.fs.iupdate i { type := type } }.setPc p (.alloced i))

/-- The part of `iput` that frees the inode. -/
def free (e : Fin NINODE) : Except Halt (Icache P) := do
  let (fs, ip) ← s.fs.itrunc (s.entry e).inum (s.entry e).copy
  let ip := { ip with type := 0 }
  pure { s with
    fs := fs.iupdate (s.entry e).inum ip
    entry := Function.update s.entry e { s.entry e with copy := ip, valid := false } }

/-- The outcome of a step, none when the process cannot take it. -/
def act : IAct P → Option (Except Halt (Icache P))
  | .iget p inum => if s.pc p = .idle ∧ inum < s.fs.sb.ninodes then some (s.iget p inum) else none
  | .idup p q e => if s.pc p = .idle ∧ 0 < s.held p e then some (pure (s.addRef q e)) else none
  | .pass p q e =>
    -- a process keeps a reference to an inode it has locked
    if s.pc p = .idle ∧ p ≠ q ∧ (if (s.entry e).holder = some p then 1 else 0) < s.held p e then
      some (pure ((s.setHeld p e (s.held p e - 1)).setHeld q e (s.held q e + 1)))
    else none
  | .ilock p e =>
    if s.pc p = .idle ∧ 0 < s.held p e ∧ (s.entry e).holder = none then some (s.ilock p e) else none
  | .iunlock p e =>
    if s.pc p = .idle ∧ (s.entry e).holder = some p then
      some (pure (s.setEntry e { s.entry e with holder := none }))
    else none
  | .readi p e off n dev =>
    if s.pc p = .idle ∧ (s.entry e).holder = some p then
      some do
        let (_, fs, ip) ← s.fs.readi (s.entry e).copy off n dev
        pure (s.setInode e fs ip)
    else none
  | .writei p e src off dev =>
    if s.pc p = .idle ∧ (s.entry e).holder = some p then
      some do
        let (_, fs, ip) ← s.fs.writei (s.entry e).inum (s.entry e).copy src off dev
        pure (s.setInode e fs ip)
    else none
  | .update p e major minor nlink =>
    if s.pc p = .idle ∧ (s.entry e).holder = some p then some (pure (s.update e major minor nlink))
    else none
  | .itrunc p e =>
    if s.pc p = .idle ∧ (s.entry e).holder = some p then
      some do
        let (fs, ip) ← s.fs.itrunc (s.entry e).inum (s.entry e).copy
        pure (s.setInode e fs ip)
    else none
  | .ialloc p type =>
    if s.pc p = .idle ∧ 0 < type ∧ type < 65536 then some (s.ialloc p type) else none
  | .allocGet p =>
    match s.pc p with
    | .alloced i => some ((s.iget p i).map (·.setPc p .idle))
    | _ => none
  | .putLock p e =>
    if s.pc p = .idle ∧ 0 < s.held p e ∧ (s.entry e).holder = none then
      some (pure ((s.setEntry e { s.entry e with holder := some p }).setPc p (.locked e)))
    else none
  | .putTest p =>
    match s.pc p with
    | .locked e =>
      if (s.entry e).valid ∧ (s.entry e).copy.nlink = 0 then
        some (pure (s.setPc p (.tested e ((s.entry e).ref == 1))))
      else some (pure (s.setPc p (.unlocking e)))
    | _ => none
  | .putFree p =>
    match s.pc p with
    | .tested e true => some ((s.free e).map (·.setPc p (.unlocking e)))
    | .tested e false => some (pure (s.setPc p (.unlocking e)))
    | _ => none
  | .putUnlock p =>
    match s.pc p with
    | .unlocking e =>
      some (pure ((s.setEntry e { s.entry e with holder := none }).setPc p (.dropping e)))
    | _ => none
  | .putDrop p =>
    match s.pc p with
    | .dropping e =>
      some (pure (((s.setEntry e { s.entry e with ref := (s.entry e).ref - 1 }).setHeld p e
        (s.held p e - 1)).setPc p .idle))
    | _ => none

def Step (s : Icache P) (a : IAct P) (t : Icache P) : Prop := s.act a = some (.ok t)

end

end Icache
end Xv6
