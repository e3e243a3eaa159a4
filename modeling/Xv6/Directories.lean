import Xv6.Files
import Xv6.FsLayout
import Xv6.Lib.Outcome
import Xv6.Lib.Run

/-!
Directories: lookup, linking and the zeroing of an entry, as a finite map from names to inode
numbers. A name stands for its first 14 bytes, up to a zero byte.
-/

namespace Xv6
open Lib Function

/-- The loop of `dirlookup` and `dirlink` over the entries, with `n` of them to go from offset
`off`: where it stops, and the entry if it stops at one. -/
def scanEntries (dp : Nat) (msg : String) (stop : List UInt8 → Bool) : Nat → Files → Nat →
    Except Halt (Nat × Option (List UInt8) × Files)
  | 0, fs, off => pure (off, none, fs)
  | n + 1, fs, off =>
    let (r, fs) := readi fs (some dp) off 16
    let de := r.getD []
    if de.length ≠ 16 then throw (.panic msg)
    else if stop de then pure (off, some de, fs)
    else scanEntries dp msg stop n fs (off + 16)

/-- `dirlookup`: the offset of the entry and the number of the inode, on which it takes a
reference. -/
def dirlookup (fs : Files) (dp : Nat) (name : List UInt8) :
    Except Halt (Option (Nat × Nat) × Files) :=
  if (fs.inode dp).type ≠ 1 then throw (.panic "dirlookup not DIR")
  else do
    let (off, r, fs) ← scanEntries dp "dirlookup read"
      (fun de => direntInum de ≠ 0 && strncmpZero 14 name (de.drop 2))
      (((fs.inode dp).data.length + 15) / 16) fs 0
    match r with
    | none => pure (none, fs)
    | some de => do
      let fs ← idup fs (some (direntInum de))
      pure (some (off, direntInum de), fs)

def dirlink (fs : Files) (dp : Nat) (name : List UInt8) (inum : Nat) :
    Except Halt (Bool × Files) := do
  let (r, fs) ← dirlookup fs dp name
  match r with
  | some (_, i) => do
    let fs ← iput fs (some i)
    pure (false, fs)
  | none => do
    let (off, _, fs) ← scanEntries dp "dirlink read" (fun de => direntInum de = 0)
      (((fs.inode dp).data.length + 15) / 16) fs 0
    let (n, fs) := writei fs (some dp) (direntBytes inum name) off
    if n ≠ some 16 then throw (.panic "dirlink") else pure (true, fs)

/-- The lookup of `sys_unlink` and the zeroing of the entry it finds. -/
def unlinkEntry (fs : Files) (dp : Nat) (name : List UInt8) : Except Halt Files := do
  let (r, fs) ← dirlookup fs dp name
  match r with
  | none => pure fs
  | some (off, _) =>
    let (n, fs) := writei fs (some dp) (List.replicate 16 0) off
    if n ≠ some 16 then throw (.panic "unlink: writei") else pure fs

inductive DirOp where
  | link (name : List UInt8) (inum : Nat)
  | unlink (name : List UInt8)

/-- What an operation does to the map; 0 is an unbound name. -/
def DirOp.apply (m : List UInt8 → Nat) : DirOp → List UInt8 → Nat
  | link name inum => if m (cname 14 name) = 0 then update m (cname 14 name) inum else m
  | unlink name => update m (cname 14 name) 0

def bindings (ops : List DirOp) : List UInt8 → Nat := ops.foldl DirOp.apply fun _ => 0

/-- The operations that return, on a directory below its maximum size. -/
inductive EntryStep (dp : Nat) : Files → DirOp → Files → Prop where
  | link {fs fs' : Files} {name : List UInt8} {inum : Nat} {b : Bool} : 0 < inum → inum < 65536 →
      (fs.inode dp).data.length < 71680 → dirlink fs dp name inum = .ok (b, fs') →
      EntryStep dp fs (.link name inum) fs'
  | unlink {fs fs' : Files} {name : List UInt8} : unlinkEntry fs dp name = .ok fs' →
      EntryStep dp fs (.unlink name) fs'

/-- The bytes of a list of entries; an entry with number 0 is free. -/
def entryBytes (es : List (Nat × List UInt8)) : List UInt8 := es.flatMap fun e => direntBytes e.1 e.2

structure Represents (es : List (Nat × List UInt8)) (m : List UInt8 → Nat) : Prop where
  small : ∀ e ∈ es, e.1 < 65536
  live : ∀ e ∈ es, e.1 ≠ 0 → m (cname 14 e.2) = e.1
  bound : ∀ c, m c ≠ 0 → ∃ e ∈ es, e.1 ≠ 0 ∧ cname 14 e.2 = c
  distinct : es.Pairwise fun e f => e.1 ≠ 0 → f.1 ≠ 0 → cname 14 e.2 ≠ cname 14 f.2

/-- Inode `dp` is a directory that holds the map. Its lock is held, as the callers of `dirlink`
do, and no other lock is. -/
structure Directory (dp : Nat) (fs : Files) (m : List UInt8 → Nat) : Prop where
  number : dp ≠ 0
  type : (fs.inode dp).type = 1
  locked : (fs.inode dp).locked = true
  others : ∀ i ≠ dp, (fs.inode i).locked = false
  size : (fs.inode dp).data.length ≤ 71680
  content : ∃ es, (fs.inode dp).data = entryBytes es ∧ Represents es m

section
variable {dp inum : Nat} {fs fs' : Files} {name : List UInt8} {m : List UInt8 → Nat}
  {es a b : List (Nat × List UInt8)} {e x : Nat × List UInt8}

theorem length_entryBytes (es : List (Nat × List UInt8)) :
    (entryBytes es).length = 16 * es.length := by
  induction es with
  | nil => rfl
  | cons e es ih =>
    rw [entryBytes, List.flatMap_cons, List.length_append, length_direntBytes, ← entryBytes, ih,
      List.length_cons]
    omega

theorem readi_entry (ht : (fs.inode dp).type = 1)
    (hd : (fs.inode dp).data = entryBytes (a ++ e :: b)) (hlt : 16 * (a ++ e :: b).length < 2 ^ 32) :
    readi fs (some dp) (16 * a.length) 16 = (some (direntBytes e.1 e.2), fs) := by
  rw [List.length_append, List.length_cons] at hlt
  have hentry := take_drop_flatMap (fun e : Nat × List UInt8 => length_direntBytes e.1 e.2)
    (by simp : a.length < (a ++ e :: b).length)
  rw [List.getElem_append_right (Nat.le_refl _)] at hentry
  simp only [Nat.sub_self, List.getElem_cons_zero] at hentry
  unfold readi
  simp only [ht, hd, length_entryBytes, List.length_append, List.length_cons]
  rw [if_neg (by decide), if_neg (by omega), entryBytes, hentry]

theorem scanEntries_spec (msg : String) (stop : List UInt8 → Bool) (ht : (fs.inode dp).type = 1)
    (hd : (fs.inode dp).data = entryBytes (a ++ es)) (hlt : 16 * (a ++ es).length < 2 ^ 32) :
    (scanEntries dp msg stop es.length fs (16 * a.length) =
      .ok (16 * (a ++ es).length, none, fs) ∧ ∀ e ∈ es, stop (direntBytes e.1 e.2) = false) ∨
    ∃ p e s, es = p ++ e :: s ∧ stop (direntBytes e.1 e.2) ∧
      scanEntries dp msg stop es.length fs (16 * a.length) =
        .ok (16 * (a ++ p).length, some (direntBytes e.1 e.2), fs) := by
  induction es generalizing a with
  | nil => exact .inl ⟨by rw [List.append_nil]; rfl, fun _ h => nomatch h⟩
  | cons e es ih =>
    have hcase := ih (a := a ++ [e]) (by simpa using hd) (by simpa using hlt)
    have hloop : scanEntries dp msg stop (e :: es).length fs (16 * a.length) =
        if stop (direntBytes e.1 e.2) then .ok (16 * a.length, some (direntBytes e.1 e.2), fs)
        else scanEntries dp msg stop es.length fs (16 * (a ++ [e]).length) := by
      rw [List.length_cons, scanEntries, readi_entry ht hd hlt, List.length_append]
      simp only [Option.getD_some, length_direntBytes]
      rw [if_neg (by decide)]
      rfl
    rw [hloop]
    cases hstop : stop (direntBytes e.1 e.2) with
    | true => exact .inr ⟨[], e, es, rfl, hstop, by simp⟩
    | false =>
      rw [if_neg (by decide)]
      rcases hcase with ⟨hrun, hall⟩ | ⟨p, f, s, rfl, hf, hrun⟩
      · refine .inl ⟨by rw [hrun]; simp, fun x hx => ?_⟩
        rcases List.mem_cons.mp hx with rfl | hx
        · exact hstop
        · exact hall x hx
      · exact .inr ⟨e :: p, f, s, rfl, hf, by rw [hrun]; simp⟩

theorem writei_entry (ht : (fs.inode dp).type = 1)
    (hd : (fs.inode dp).data = entryBytes (a ++ e :: b) ∨
      (fs.inode dp).data = entryBytes a ∧ b = []) (hlt : 16 * (a ++ e :: b).length ≤ 71680) :
    writei fs (some dp) (direntBytes x.1 x.2) (16 * a.length) = (some 16,
      fs.setInode dp { fs.inode dp with data := entryBytes (a ++ x :: b) }) := by
  rw [List.length_append, List.length_cons] at hlt
  have hsplit : ∀ y : Nat × List UInt8, entryBytes (a ++ y :: b) =
      entryBytes a ++ direntBytes y.1 y.2 ++ entryBytes b := fun y => by simp [entryBytes]
  have hsplice : (fs.inode dp).data.take (16 * a.length) ++ direntBytes x.1 x.2 ++
      (fs.inode dp).data.drop (16 * a.length + 16) = entryBytes (a ++ x :: b) ∧
      16 * a.length ≤ (fs.inode dp).data.length := by
    rw [hsplit]
    rcases hd with hd | ⟨hd, rfl⟩
    · rw [hd, hsplit, List.append_assoc (entryBytes a)]
      refine ⟨?_, by simp [length_entryBytes]⟩
      rw [List.take_left' (length_entryBytes a), ← List.drop_drop,
        List.drop_left' (length_entryBytes a), List.drop_left' (length_direntBytes ..)]
    · rw [hd]
      refine ⟨?_, by rw [length_entryBytes]⟩
      rw [List.take_of_length_le (by rw [length_entryBytes]),
        List.drop_eq_nil_of_le (by rw [length_entryBytes]; omega)]
      rfl
  unfold writei
  simp only [ht, length_direntBytes, hsplice.1]
  rw [if_neg (by decide), if_neg (by omega), if_neg (by omega)]

theorem Represents.perm (h : Represents es m) (hp : es.Perm a) : Represents a m where
  small e he := h.small e (hp.mem_iff.mpr he)
  live e he := h.live e (hp.mem_iff.mpr he)
  bound c hc := by
    obtain ⟨e, he, hbound⟩ := h.bound c hc
    exact ⟨e, hp.mem_iff.mp he, hbound⟩
  distinct := (hp.pairwise_iff fun h h0 h1 => (h h1 h0).symm).mp h.distinct

theorem represents_free (h0 : e.1 = 0) : Represents (e :: es) m ↔ Represents es m := by
  constructor
  · rintro ⟨hsmall, hlive, hbound, hdist⟩
    exact ⟨by grind, by grind, by grind, (List.pairwise_cons.mp hdist).2⟩
  · rintro ⟨hsmall, hlive, hbound, hdist⟩
    exact ⟨by grind, by grind, by grind, List.pairwise_cons.mpr ⟨by grind, hdist⟩⟩

theorem Represents.add (h : Represents es m) (h0 : m (cname 14 e.2) = 0) (hsmall : e.1 < 65536) :
    Represents (e :: es) (update m (cname 14 e.2) e.1) := by
  obtain ⟨hs, hlive, hbound, hdist⟩ := h
  exact ⟨by grind, by grind, by grind, List.pairwise_cons.mpr ⟨by grind, hdist⟩⟩

theorem Represents.remove (h : Represents (e :: es) m) (h0 : e.1 ≠ 0) :
    Represents es (update m (cname 14 e.2) 0) := by
  obtain ⟨hs, hlive, hbound, hdist⟩ := h
  rw [List.pairwise_cons] at hdist
  exact ⟨by grind, by grind, by grind, hdist.2⟩

section
variable (h : Directory dp fs m)
include h

theorem Directory.other {i : Nat} {y : Inode} (hi : i ≠ dp)
    (hy : y.locked = false) : Directory dp (fs.setInode i y) m := by
  have hdp : (fs.setInode i y).inode dp = fs.inode dp := update_of_ne hi.symm ..
  refine ⟨h.number, by rw [hdp, h.type], by rw [hdp, h.locked], fun j hj => ?_, by rw [hdp]; exact h.size,
    by rw [hdp]; exact h.content⟩
  by_cases hji : j = i
  · rw [hji, Files.setInode]
    exact (congrArg _ (update_self ..)).trans hy
  · exact (congrArg _ (update_of_ne hji ..)).trans (h.others j hj)

theorem Directory.self {y : Inode} {m' : List UInt8 → Nat}
    (ht : y.type = (fs.inode dp).type) (hl : y.locked = (fs.inode dp).locked)
    (hsize : 16 * es.length ≤ 71680) (hdata : y.data = entryBytes es) (hr : Represents es m') :
    Directory dp (fs.setInode dp y) m' := by
  have hdp : (fs.setInode dp y).inode dp = y := update_self ..
  refine ⟨h.number, by rw [hdp, ht, h.type], by rw [hdp, hl, h.locked], fun j hj => ?_, ?_,
    es, by rw [hdp, hdata], hr⟩
  · exact (congrArg _ (update_of_ne hj ..)).trans (h.others j hj)
  · rw [hdp, hdata, length_entryBytes]
    exact hsize

/-- `dirlookup` finds the entry of the name, and takes a reference on its inode. -/
theorem Directory.lookup (hd : (fs.inode dp).data = entryBytes es)
    (hr : Represents es m) (name : List UInt8) :
    m (cname 14 name) = 0 ∧ dirlookup fs dp name = .ok (none, fs) ∨
    ∃ a e b u, es = a ++ e :: b ∧ e.1 ≠ 0 ∧ cname 14 e.2 = cname 14 name ∧
      Directory dp u m ∧ (u.inode dp).data = entryBytes es ∧
      dirlookup fs dp name = .ok (some (16 * a.length, e.1), u) := by
  have hsize := h.size
  rw [hd, length_entryBytes] at hsize
  have hturns : ((fs.inode dp).data.length + 15) / 16 = es.length := by
    rw [hd, length_entryBytes]
    omega
  have hstop : ∀ e ∈ es, (direntInum (direntBytes e.1 e.2) ≠ 0 &&
      strncmpZero 14 name ((direntBytes e.1 e.2).drop 2)) = true ↔
        e.1 ≠ 0 ∧ cname 14 e.2 = cname 14 name := fun e he => by
    rw [direntInum_direntBytes (hr.small e he), strncmpZero_direntBytes, Bool.and_eq_true,
      decide_eq_true_iff, decide_eq_true_iff, eq_comm (a := cname 14 name)]
  unfold dirlookup
  rw [if_neg (not_not.mpr h.type), hturns]
  rcases scanEntries_spec (a := []) "dirlookup read" (fun de =>
    direntInum de ≠ 0 && strncmpZero 14 name (de.drop 2)) h.type hd (by simp; omega) with
    ⟨hrun, hall⟩ | ⟨p, e, s, rfl, hs, hrun⟩
  · refine .inl ⟨by_contra fun hm => ?_, bind_of_ok hrun⟩
    obtain ⟨e, he, hlive⟩ := hr.bound _ hm
    exact absurd ((hstop e he).mpr hlive) (by rw [hall e he]; decide)
  · obtain ⟨h0, hc⟩ := (hstop e (by simp)).mp hs
    refine .inr ⟨p, e, s, fs.setInode e.1 { fs.inode e.1 with ref := (fs.inode e.1).ref + 1 }, rfl,
      h0, hc, ?_, ?_, (bind_of_ok hrun).trans ?_⟩
    · by_cases hdp : e.1 = dp
      · rw [hdp]
        exact h.self rfl rfl hsize hd hr
      · exact h.other hdp (h.others _ hdp)
    · by_cases hdp : dp = e.1
      · rw [hdp] at hd ⊢
        exact (congrArg _ (update_self ..)).trans hd
      · exact (congrArg _ (update_of_ne hdp ..)).trans hd
    · dsimp only
      rw [direntInum_direntBytes (hr.small e (by simp))]
      simp [idup]
      rfl

/-- Zeroing an entry unbinds its name. -/
theorem Directory.unlink (name : List UInt8) :
    ∃ u, unlinkEntry fs dp name = .ok u ∧ Directory dp u (update m (cname 14 name) 0) := by
  obtain ⟨es, hd, hr⟩ := h.content
  have hsize := h.size
  rw [hd, length_entryBytes] at hsize
  rcases h.lookup hd hr name with ⟨h0, hrun⟩ | ⟨a, e, b, u, rfl, h0, hc, hu, hd, hrun⟩
  · exact ⟨fs, bind_of_ok hrun, by rw [← h0, update_eq_self]; exact h⟩
  · have hw := writei_entry (x := (0, [])) hu.type (.inl hd) hsize
    have hz : direntBytes 0 [] = List.replicate 16 0 := by decide
    rw [hz] at hw
    refine ⟨_, (bind_of_ok hrun).trans (by dsimp only; rw [hw]; rfl), ?_⟩
    refine hu.self rfl rfl (by simpa using hsize) rfl ?_
    rw [← hc]
    exact ((represents_free rfl).mpr ((hr.perm List.perm_middle).remove h0)).perm
      List.perm_middle.symm

/-- A bound name is refused, unless it is bound to the directory itself: then `iput` waits for
the lock that its caller holds. -/
theorem Directory.link_bound (inum : Nat) (hm : m (cname 14 name) ≠ 0) :
    if m (cname 14 name) = dp then dirlink fs dp name inum = .error .sleeps
    else ∃ u, dirlink fs dp name inum = .ok (false, u) ∧ Directory dp u m ∧
      (u.inode dp).data = (fs.inode dp).data := by
  obtain ⟨es, hd, hr⟩ := h.content
  rcases h.lookup hd hr name with ⟨h0, -⟩ | ⟨a, e, b, u, rfl, h0, hc, hu, hud, hrun⟩
  · exact absurd h0 hm
  · have he : m (cname 14 name) = e.1 := by rw [← hc, hr.live e (by simp) h0]
    have hlink : dirlink fs dp name inum = (do
        let fs ← iput u (some e.1)
        pure (false, fs)) := bind_of_ok hrun
    rw [he, hlink, iput]
    by_cases hdp : e.1 = dp
    · rw [if_pos hdp, hdp, if_pos hu.locked]
      rfl
    · rw [if_neg hdp, hu.others _ hdp, if_neg (by decide)]
      refine ⟨_, rfl, hu.other hdp ?_, ?_⟩
      · dsimp only
        split_ifs
        · rfl
        · exact hu.others _ hdp
      · rw [hd, ← hud]
        exact congrArg _ (update_of_ne (Ne.symm hdp) ..)

theorem Directory.link_free (hm : m (cname 14 name) = 0)
    (hinum : inum < 65536) (hlt : (fs.inode dp).data.length < 71680) :
    ∃ u, dirlink fs dp name inum = .ok (true, u) ∧
      Directory dp u (update m (cname 14 name) inum) := by
  obtain ⟨es, hd, hr⟩ := h.content
  rw [hd, length_entryBytes] at hlt
  have hturns : ((fs.inode dp).data.length + 15) / 16 = es.length := by
    rw [hd, length_entryBytes]
    omega
  have hadd : ∀ a b, Represents (a ++ b) m → 16 * (a ++ (inum, name) :: b).length ≤ 71680 →
      Directory dp (fs.setInode dp { fs.inode dp with
        data := entryBytes (a ++ (inum, name) :: b) }) (update m (cname 14 name) inum) :=
    fun a b hr hsize => h.self rfl rfl hsize rfl
      ((hr.add (e := (inum, name)) hm hinum).perm List.perm_middle.symm)
  rcases h.lookup hd hr name with ⟨-, hrun⟩ | ⟨a, e, b, u, rfl, h0, hc, -⟩
  · unfold dirlink
    rw [bind_of_ok hrun]
    dsimp only
    rw [hturns]
    rcases scanEntries_spec (a := []) "dirlink read" (fun de => direntInum de = 0)
      h.type hd (by simp; omega) with ⟨hscan, -⟩ | ⟨a, e, b, rfl, hs, hscan⟩
    · have hw := writei_entry (x := (inum, name)) (e := (0, [])) h.type (.inr ⟨hd, rfl⟩)
        (by simp; omega)
      refine ⟨_, (bind_of_ok hscan).trans (by dsimp only; rw [List.nil_append, hw]; rfl),
        hadd es [] (by rwa [List.append_nil]) (by simp; omega)⟩
    · rw [direntInum_direntBytes (hr.small e (by simp)), decide_eq_true_iff] at hs
      have hw := writei_entry (x := (inum, name)) h.type (.inl hd) (by omega)
      refine ⟨_, (bind_of_ok hscan).trans (by dsimp only; rw [List.nil_append, hw]; rfl),
        hadd a b ((represents_free hs).mp (hr.perm List.perm_middle)) (by simp at hlt ⊢; omega)⟩
  · rw [← hc, hr.live e (by simp) h0] at hm
    exact absurd hm h0

end

theorem bindings_snoc (ops : List DirOp) (op : DirOp) :
    bindings (ops ++ [op]) = op.apply (bindings ops) := by
  rw [bindings, List.foldl_concat]
  rfl

theorem Directory.step {op : DirOp} (h : Directory dp fs m) (hs : EntryStep dp fs op fs') :
    Directory dp fs' (op.apply m) := by
  cases hs with
  | @link _ name inum b hpos hinum hlt hrun =>
    by_cases hm : m (cname 14 name) = 0
    · obtain ⟨u, hu, hdir⟩ := h.link_free hm hinum hlt
      cases hrun.symm.trans hu
      rw [DirOp.apply, if_pos hm]
      exact hdir
    · have hbound := h.link_bound inum hm
      rw [DirOp.apply, if_neg hm]
      split_ifs at hbound
      · cases hrun.symm.trans hbound
      · obtain ⟨u, hu, hdir, -⟩ := hbound
        cases hrun.symm.trans hu
        exact hdir
  | unlink hrun =>
    obtain ⟨u, hu, hdir⟩ := h.unlink _
    cases hrun.symm.trans hu
    exact hdir

end

/-- After any operations the directory is the map of the bindings made and not unmade, which
`dirlookup` reads; unlinking works on it, and `dirlink` adds a name that is free and refuses a
bound one exactly when it is not bound to the directory itself. -/
theorem directory_map_iff {dp : Nat} {fs fs' : Files} {ops : List DirOp}
    (h : Directory dp fs fun _ => 0) (hrun : Run (EntryStep dp) fs ops fs') :
    Directory dp fs' (bindings ops) ∧
    (∀ name, ∃ off u, dirlookup fs' dp name = .ok (if bindings ops (cname 14 name) = 0 then none
      else some (off, bindings ops (cname 14 name)), u)) ∧
    (∀ name, ∃ u, unlinkEntry fs' dp name = .ok u ∧
      Directory dp u (update (bindings ops) (cname 14 name) 0)) ∧
    ∀ name inum, 0 < inum → inum < 65536 → (fs'.inode dp).data.length < 71680 →
      ((∃ b u, dirlink fs' dp name inum = .ok (b, u) ∧
        (b = false ↔ bindings ops (cname 14 name) ≠ 0) ∧
        (b = false → (u.inode dp).data = (fs'.inode dp).data) ∧
        Directory dp u (bindings (ops ++ [.link name inum]))) ↔
          bindings ops (cname 14 name) ≠ dp) := by
  have hdir : Directory dp fs' (bindings ops) := by
    induction hrun with
    | refl => exact h
    | snoc _ hs ih =>
      rw [bindings_snoc]
      exact ih.step hs
  refine ⟨hdir, fun name => ?_, hdir.unlink, fun name inum hpos hinum hlt => ?_⟩
  · obtain ⟨es, hd, hr⟩ := hdir.content
    rcases hdir.lookup hd hr name with ⟨h0, hl⟩ | ⟨a, e, b, u, rfl, h0, hc, -, -, hl⟩
    · exact ⟨0, fs', by rw [if_pos h0, hl]⟩
    · have he : bindings ops (cname 14 name) = e.1 := by rw [← hc, hr.live e (by simp) h0]
      exact ⟨_, u, by rw [he, if_neg h0, hl]⟩
  · rw [bindings_snoc, DirOp.apply]
    by_cases hm : bindings ops (cname 14 name) = 0
    · obtain ⟨u, hu, hlinked⟩ := hdir.link_free hm hinum hlt
      rw [if_pos hm, hm]
      exact ⟨fun _ => hdir.number.symm, fun _ => ⟨true, u, hu, by simp, by simp, hlinked⟩⟩
    · have hbound := hdir.link_bound inum hm
      rw [if_neg hm]
      by_cases hdp : bindings ops (cname 14 name) = dp
      · rw [if_pos hdp] at hbound
        exact ⟨fun ⟨b, u, hu, _⟩ => (by rw [hbound] at hu; cases hu), fun hne => absurd hdp hne⟩
      · rw [if_neg hdp] at hbound
        obtain ⟨u, hu, hkept, hdata⟩ := hbound
        exact ⟨fun _ => hdp, fun _ => ⟨false, u, hu, by simp [hm], fun _ => hdata, hkept⟩⟩

/-- Inode 1 as an empty directory, locked. -/
def newDirectory : Files where
  file _ := {}
  inode i := if i = 1 then { ref := 1, locked := true, type := 1, nlink := 1 } else {}
  console _ := none
  pipe _ := none

theorem directory_new : Directory 1 newDirectory fun _ => 0 where
  number := by decide
  type := rfl
  locked := rfl
  others i hi := by simp [newDirectory, hi]
  size := by decide
  content := ⟨[], rfl, by simp, by simp, by simp, .nil⟩

theorem dot_linked : ∃ u, dirlink newDirectory 1 [46] 1 = .ok (true, u) ∧
    Run (EntryStep 1) newDirectory [.link [46] 1] u := by
  obtain ⟨u, hu, -⟩ := directory_new.link_free (rfl : bindings [] (cname 14 [46]) = 0)
    (by decide : 1 < 65536) (by decide)
  exact ⟨u, hu, .single (.link (by decide) (by decide) (by decide) hu)⟩

theorem directory_map_dot : ∃ u off v, Run (EntryStep 1) newDirectory [.link [46] 1] u ∧
    dirlookup u 1 [46] = .ok (some (off, 1), v) := by
  obtain ⟨u, -, hrun⟩ := dot_linked
  obtain ⟨off, v, hl⟩ := (directory_map_iff directory_new hrun).2.1 [46]
  exact ⟨u, off, v, hrun, hl⟩

/-- Linking the name of a directory's entry for itself never returns. -/
theorem dirlink_dot_sleeps : ∃ u, Run (EntryStep 1) newDirectory [.link [46] 1] u ∧
    bindings [.link [46] 1] (cname 14 [46]) = 1 ∧ dirlink u 1 [46] 5 = .error .sleeps := by
  obtain ⟨u, hu, hrun⟩ := dot_linked
  have hdir := directory_new.step (.link (by decide) (by decide) (by decide) hu)
  have hbound : DirOp.apply (fun _ => 0) (.link [46] 1) (cname 14 [46]) ≠ 0 := by decide
  exact ⟨u, hrun, rfl, hdir.link_bound 5 hbound⟩

end Xv6
