import Xv6.Layout
import Xv6.Lib.Outcome

/-!
Page directories. A `pde_t*` is the tree it roots: a directory is its own frame
and, for each present entry, a page table with its frame. A directory entry is
only ever written by `walkpgdir`, with `PTE_P | PTE_W | PTE_U`, so its flags are
not kept. Of a page table entry the model keeps the page number and the four bits
the code tests.
-/

namespace Xv6

open Function

/-- The flag bits of an entry, `PTE_FLAGS(pte)`. -/
structure Flags where
  p : Bool := false
  w : Bool := false
  u : Bool := false
  cow : Bool := false
deriving DecidableEq, Repr

/-- A page table entry; `ppn` is `PTE_ADDR(pte)` as a page number. -/
structure Pte extends Flags where
  ppn : Frame := 0
deriving DecidableEq, Repr

def Pte.zero : Pte := {}

/-- `pa | perm | PTE_P`. -/
def Pte.make (ppn : Frame) (perm : Flags) : Pte := { perm with p := true, ppn := ppn }

structure PgTab where
  frame : Frame
  pte : Nat → Pte

structure PgDir where
  frame : Frame
  pde : Nat → Option PgTab

/-- `walkpgdir(pgdir, va, 0)`: the entry pointed to, or none for the null pointer. -/
def PgDir.walk (d : PgDir) (va : Nat) : Option Pte :=
  (d.pde (pdx va)).map fun t => t.pte (ptx va)

/-- `*pte = e` through the pointer `walkpgdir(pgdir, va, 0)`. -/
def PgDir.setPte (d : PgDir) (va : Nat) (e : Pte) : PgDir :=
  match d.pde (pdx va) with
  | none => d
  | some t =>
    { d with pde := update d.pde (pdx va)
               (some { t with pte := update t.pte (ptx va) e }) }

def PgDir.empty (x : Frame) : PgDir := { frame := x, pde := fun _ => none }

/-- The page tables a directory points to, in the order of its entries. -/
def PgDir.tables (d : PgDir) : List Frame :=
  (List.range 1024).filterMap fun i => (d.pde i).map PgTab.frame

/-- The frames a directory consists of: its own and those of its tables. -/
def PgDir.frames (d : PgDir) : Multiset Frame := d.frame ::ₘ d.tables

/-- The directory as a flat map: the entry of virtual page `v`. -/
def PgDir.entry (d : PgDir) (v : Nat) : Pte :=
  match d.pde (v / 1024) with
  | none => Pte.zero
  | some t => t.pte (v % 1024)

@[simp] theorem Pte.zero_p : Pte.zero.p = false := rfl

@[simp] theorem Pte.make_p (ppn : Frame) (perm : Flags) : (Pte.make ppn perm).p = true := rfl

@[simp] theorem Pte.make_ppn (ppn : Frame) (perm : Flags) : (Pte.make ppn perm).ppn = ppn := rfl

theorem pdx_eq {va : Nat} (h : va < 0x100000000) : pdx va = va / 4096 / 1024 := by
  unfold pdx
  omega

theorem ptx_eq (va : Nat) : ptx va = va / 4096 % 1024 := rfl

@[simp] theorem PgDir.frame_setPte (d : PgDir) (va : Nat) (e : Pte) :
    (d.setPte va e).frame = d.frame := by
  unfold PgDir.setPte
  split <;> rfl

theorem walk_pgrounddown (d : PgDir) (va : Nat) : d.walk (pgrounddown va) = d.walk va := by
  have hd : pdx (pgrounddown va) = pdx va := by
    unfold pdx pgrounddown
    omega
  have ht : ptx (pgrounddown va) = ptx va := by
    unfold ptx pgrounddown
    omega
  rw [PgDir.walk, PgDir.walk, hd, ht]

theorem PgDir.entry_of_walk {d : PgDir} {va : Nat} {e : Pte} (hva : va < 0x100000000)
    (h : d.walk va = some e) : d.entry (va / 4096) = e := by
  simp only [walk, pdx_eq hva, ptx_eq, Option.map_eq_some_iff] at h
  obtain ⟨t, ht, rfl⟩ := h
  simp [entry, ht]

theorem PgDir.entry_of_walk_none {d : PgDir} {va : Nat} (hva : va < 0x100000000)
    (h : d.walk va = none) : d.entry (va / 4096) = Pte.zero := by
  simp only [walk, pdx_eq hva, Option.map_eq_none_iff] at h
  simp [entry, h]

theorem PgDir.walk_of_present {d : PgDir} {va : Nat} (hva : va < 0x100000000)
    (h : (d.entry (va / 4096)).p = true) : d.walk va = some (d.entry (va / 4096)) := by
  cases hw : d.walk va with
  | none => simp [entry_of_walk_none hva hw] at h
  | some e => rw [entry_of_walk hva hw]

theorem PgDir.entry_setPte {d : PgDir} {va v : Nat} {e e' : Pte} (hva : va < 0x100000000)
    (h : d.walk va = some e) :
    (d.setPte va e').entry v = if v = va / 4096 then e' else d.entry v := by
  simp only [walk, pdx_eq hva, Option.map_eq_some_iff] at h
  obtain ⟨t, ht, -⟩ := h
  simp only [setPte, pdx_eq hva, ptx_eq, ht, entry]
  by_cases hd : v / 1024 = va / 4096 / 1024
  · rw [hd, update_self]
    by_cases ho : v % 1024 = va / 4096 % 1024
    · rw [if_pos (by omega), ho]
      exact update_self ..
    · rw [if_neg (by omega), ht]
      exact update_of_ne ho ..
  · rw [if_neg (by omega), update_of_ne hd]

theorem PgDir.isSome_pde_setPte (d : PgDir) (va : Nat) (e : Pte) (i : Nat) :
    ((d.setPte va e).pde i).map PgTab.frame = (d.pde i).map PgTab.frame := by
  unfold setPte
  split
  · rfl
  · rename_i t ht
    by_cases hi : i = pdx va
    · subst hi
      simp [ht]
    · simp [update_of_ne hi]

@[simp] theorem PgDir.tables_setPte (d : PgDir) (va : Nat) (e : Pte) :
    (d.setPte va e).tables = d.tables := by
  unfold tables
  apply List.filterMap_congr
  intro i _
  exact isSome_pde_setPte d va e i

@[simp] theorem PgDir.frames_setPte (d : PgDir) (va : Nat) (e : Pte) :
    (d.setPte va e).frames = d.frames := by
  simp [frames]

theorem PgDir.walk_isSome_setPte (d : PgDir) (va vb : Nat) (e : Pte) :
    ((d.setPte va e).walk vb).isSome = (d.walk vb).isSome := by
  have h := congrArg Option.isSome (isSome_pde_setPte d va e (pdx vb))
  simpa [walk] using h

@[simp] theorem PgDir.entry_empty (x : Frame) (v : Nat) : (PgDir.empty x).entry v = Pte.zero := rfl

@[simp] theorem PgDir.frames_empty (x : Frame) : (PgDir.empty x).frames = {x} := by
  simp [frames, tables, empty]

end Xv6
