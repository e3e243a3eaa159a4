import Xv6.Bcache
import Xv6.Lib.Outcome
import Mathlib.Data.Set.Insert
import Mathlib.Data.List.FinRange

/-!
What the cache keeps between two operations on one device, and what each operation of
`bio.c` does to it. Between operations no request is queued and a buffer is referenced
exactly while it is locked; blocks in a set of pinned ones are dirty in the cache, and
every other buffer agrees with the drive.
-/

namespace Xv6

open Function Lib Bcache

/-- What a block of a device reads as: its buffer, or the drive if it has none. -/
def Bcache.view (c : Bcache) (dev blockno : Nat) : Block :=
  match (List.finRange NBUF).find? fun i =>
      (c.buf i).dev == dev && (c.buf i).blockno == blockno with
  | some i => (c.buf i).data
  | none => c.drives.read dev blockno

def Bcache.Caches (c : Bcache) (dev blockno : Nat) (i : Fin NBUF) : Prop :=
  (c.buf i).dev = dev ∧ (c.buf i).blockno = blockno

/-- A buffer of the device is valid, is dirty exactly when its block is pinned, and else
agrees with the drive. -/
structure Buf.Ok (x : Buf) (d : Drives) (dev : Nat) (pinned : Set Nat) : Prop where
  refs : x.refcnt = if x.lock = none then 0 else 1
  held : x.lock ≠ none → x.dev = dev
  foreign : x.dev ≠ dev → x.dirty = false
  valid : x.dev = dev → x.valid = true
  bound : x.dev = dev → x.blockno < FSSIZE
  clean : x.dev = dev → x.dirty = false → x.data = d.read dev x.blockno
  dirty : x.dev = dev → (x.dirty = true ↔ x.blockno ∈ pinned)

structure Bcache.Coherent (c : Bcache) (dev : Nat) (pinned : Set Nat) : Prop where
  listed : ∃ l, c.ring.Lists l ∧ l.Perm (List.finRange NBUF)
  unique : ∀ {i j b}, c.Caches dev b i → c.Caches dev b j → i = j
  bufs : ∀ i, (c.buf i).Ok c.drives dev pinned
  pins : ∀ {b}, b ∈ pinned → ∃ i, c.Caches dev b i
  queue : c.idequeue = []

section
variable {c c' : Bcache} {dev p b : Nat} {i j : Fin NBUF} {x : Buf} {pinned : Set Nat}

@[simp] theorem Bcache.setBuf_self : (c.setBuf i x).buf i = x := update_self ..

theorem Bcache.setBuf_of_ne (h : j ≠ i) : (c.setBuf i x).buf j = c.buf j :=
  update_of_ne h ..

theorem Bcache.setBuf_setBuf {y : Buf} : (c.setBuf i x).setBuf i y = c.setBuf i y := by
  simp [Bcache.setBuf]

@[simp] theorem Bcache.setBuf_drives : (c.setBuf i x).drives = c.drives := rfl

@[simp] theorem Bcache.setBuf_idequeue (c : Bcache) {i : Fin NBUF} {x : Buf} :
    (c.setBuf i x).idequeue = c.idequeue := rfl

theorem Drives.read_put_self (d : Drives) (dev b : Nat) (data : Block) :
    (d.put ⟨dev, b, data⟩).read dev b = data := by
  simp [Drives.put, Drives.read]

theorem Drives.read_put_of_ne (d : Drives) (dev : Nat) {b b' : Nat} (data : Block) (h : b' ≠ b) :
    (d.put ⟨dev, b, data⟩).read dev b' = d.read dev b' := by
  simp [Drives.put, Drives.read, h]

theorem Bcache.Coherent.view_cached (h : c.Coherent dev pinned) (hi : c.Caches dev b i) :
    c.view dev b = (c.buf i).data := by
  unfold Bcache.view
  cases hf : (List.finRange NBUF).find? fun i =>
      (c.buf i).dev == dev && (c.buf i).blockno == b with
  | none =>
    have := List.find?_eq_none.mp hf i (List.mem_finRange i)
    simp [hi.1, hi.2] at this
  | some j =>
    have hj := List.find?_some hf
    simp only [Bool.and_eq_true, beq_iff_eq] at hj
    rw [h.unique hi hj]

theorem Bcache.view_uncached (h : ∀ i, ¬ c.Caches dev b i) : c.view dev b = c.drives.read dev b := by
  unfold Bcache.view
  cases hf : (List.finRange NBUF).find? fun i =>
      (c.buf i).dev == dev && (c.buf i).blockno == b with
  | none => rfl
  | some j =>
    have hj := List.find?_some hf
    simp only [Bool.and_eq_true, beq_iff_eq] at hj
    exact absurd hj (h j)

theorem Bcache.Coherent.view_unpinned (h : c.Coherent dev pinned) (hb : b ∉ pinned) :
    c.view dev b = c.drives.read dev b := by
  by_cases hi : ∃ i, c.Caches dev b i
  · obtain ⟨i, hi⟩ := hi
    have hd : (c.buf i).dirty = false := by
      cases hd : (c.buf i).dirty with
      | false => rfl
      | true => exact absurd (hi.2 ▸ ((h.bufs i).dirty hi.1).mp hd) hb
    rw [h.view_cached hi, (h.bufs i).clean hi.1 hd, hi.2]
  · exact view_uncached fun i hc => hi ⟨i, hc⟩

/-- A cache that differs in the buffer of one block, and at most there on the drive,
reads as before but for that block. -/
theorem Bcache.Coherent.view_replace {pinned' : Set Nat} (hc : c.Coherent dev pinned)
    (hc' : c'.Coherent dev pinned') (hi : c.Caches dev b i) (hi' : c'.Caches dev b i)
    (hbuf : ∀ j, j ≠ i → c'.buf j = c.buf j)
    (hread : ∀ b', b' ≠ b → c'.drives.read dev b' = c.drives.read dev b') :
    c'.view dev = update (c.view dev) b (c'.buf i).data := by
  funext b'
  by_cases hb : b' = b
  · subst hb
    rw [hc'.view_cached hi', update_self]
  rw [update_of_ne hb]
  have hne : ∀ {j}, c.Caches dev b' j → j ≠ i := fun hj e => hb (hj.2.symm.trans (e ▸ hi.2))
  have hne' : ∀ {j}, c'.Caches dev b' j → j ≠ i := fun hj e => hb (hj.2.symm.trans (e ▸ hi'.2))
  by_cases hj : ∃ j, c.Caches dev b' j
  · obtain ⟨j, hj⟩ := hj
    have hji := hbuf j (hne hj)
    have hj' : c'.Caches dev b' j := by simpa [Bcache.Caches, hji] using hj
    rw [hc'.view_cached hj', hc.view_cached hj, hji]
  · have hout : ∀ j, ¬ c.Caches dev b' j := fun j h => hj ⟨j, h⟩
    have hout' : ∀ j, ¬ c'.Caches dev b' j := by
      intro j h
      apply hout j
      simpa [Bcache.Caches, hbuf j (hne' h)] using h
    rw [view_uncached hout, view_uncached hout', hread b' hb]

theorem Bcache.caches_setBuf {b' : Nat} : (c.setBuf i x).Caches dev b' j ↔
    j = i ∧ x.dev = dev ∧ x.blockno = b' ∨ j ≠ i ∧ c.Caches dev b' j := by
  by_cases hj : j = i
  · subst hj
    simp [Bcache.Caches]
  · simp [Bcache.Caches, setBuf_of_ne hj, hj]

theorem Bcache.Coherent.setBuf {pinned' : Set Nat} (hc : c.Coherent dev pinned)
    (hx : x.Ok c.drives dev pinned')
    (hrest : ∀ j, j ≠ i → (c.buf j).Ok c.drives dev pinned')
    (halone : x.dev = dev → ∀ j, j ≠ i → ¬ c.Caches dev x.blockno j)
    (hpins : ∀ b ∈ pinned', x.dev = dev ∧ x.blockno = b ∨ ∃ j, j ≠ i ∧ c.Caches dev b j) :
    (c.setBuf i x).Coherent dev pinned' where
  listed := hc.listed
  unique := by
    intro j j' b' hj hj'
    rw [caches_setBuf] at hj hj'
    obtain ⟨rfl, hd, rfl⟩ | ⟨hji, hj⟩ := hj
    · obtain ⟨rfl, -⟩ | ⟨hji', hj'⟩ := hj'
      · rfl
      · exact absurd hj' (halone hd _ hji')
    · obtain ⟨rfl, hd, rfl⟩ | ⟨-, hj'⟩ := hj'
      · exact absurd hj (halone hd _ hji)
      · exact hc.unique hj hj'
  bufs := by
    intro j
    by_cases hj : j = i
    · subst hj
      simpa using hx
    · rw [setBuf_of_ne hj]
      exact hrest j hj
  pins := by
    intro b' hb
    obtain h | ⟨j, hji, hj⟩ := hpins b' hb
    · exact ⟨i, caches_setBuf.mpr (.inl ⟨rfl, h⟩)⟩
    · exact ⟨j, caches_setBuf.mpr (.inr ⟨hji, hj⟩)⟩
  queue := hc.queue

/-! ### The driver -/

/-- The cache once the request for a buffer is done: a dirty buffer was written, another
one was read. -/
def Bcache.synced (c : Bcache) (i : Fin NBUF) : Bcache :=
  let b := c.buf i
  if b.dirty then
    { c with drives := c.drives.put ⟨b.dev, b.blockno, b.data⟩ }.setBuf i
      { b with valid := true, dirty := false }
  else c.setBuf i { b with valid := true, dirty := false, data := c.drives.read b.dev b.blockno }

theorem iderw_eq_ok (hq : c.idequeue = []) :
    iderw c p i = .ok c' ↔
      (c.buf i).lock = some p ∧ ((c.buf i).valid = true → (c.buf i).dirty = true) ∧
        (c.buf i).blockno < FSSIZE ∧ c' = c.synced i := by
  by_cases hlock : (c.buf i).lock = some p
  swap
  · simp [iderw, hlock, throw, throwThe, MonadExceptOf.throw]
  by_cases hflags : (c.buf i).valid = true → (c.buf i).dirty = true
  swap
  · have hv : (c.buf i).valid = true ∧ (c.buf i).dirty = false := by simpa using hflags
    simp [iderw, hlock, hv, throw, throwThe, MonadExceptOf.throw]
  by_cases hb : (c.buf i).blockno < FSSIZE
  swap
  · have hb' : FSSIZE ≤ (c.buf i).blockno := by omega
    simp [iderw, hq, idestart, hlock, hb, hb', throw, throwThe, MonadExceptOf.throw, bind,
      Except.bind]
    split <;> simp
  have hb' : ¬ FSSIZE ≤ (c.buf i).blockno := by omega
  have hrun : iderw c p i = .ok (c.synced i) := by
    cases hd : (c.buf i).dirty with
    | true =>
      simp [iderw, hq, idestart, ideWait, ideintr, Bcache.synced, Bcache.setBuf, hlock, hd,
        hb', bind, Except.bind, pure, Except.pure]
    | false =>
      have hv : (c.buf i).valid = false := by simpa [hd] using hflags
      simp [iderw, hq, idestart, ideWait, ideintr, Bcache.synced, Bcache.setBuf, hlock, hd, hv,
        hb', bind, Except.bind, pure, Except.pure]
  rw [hrun, Except.ok.injEq]
  exact ⟨fun h => ⟨hlock, hflags, hb, h.symm⟩, fun h => h.2.2.2.symm⟩

/-! ### Fetching a buffer -/

/-- Buffer `i` becomes `x`, the locked buffer of block `b`: it was that block's buffer
or no buffer is, and then it was not a pinned one. -/
structure Bcache.Fetch (c : Bcache) (dev : Nat) (pinned : Set Nat) (p b : Nat) (i : Fin NBUF)
    (x : Buf) : Prop where
  device : x.dev = dev
  blockno : x.blockno = b
  lock : x.lock = some p
  refcnt : x.refcnt = 1
  valid : x.valid = true
  bound : b < FSSIZE
  data : x.data = c.view dev b
  dirty : x.dirty = true ↔ b ∈ pinned
  free : (c.buf i).lock = none
  alone : ∀ j, j ≠ i → ¬ c.Caches dev b j
  unpinned : ∀ b', c.Caches dev b' i → b' ∈ pinned → b' = b

section
variable (h : c.Fetch dev pinned p b i x)
include h

theorem Bcache.Fetch.ok (hc : c.Coherent dev pinned) : x.Ok c.drives dev pinned where
  refs := by simp [h.lock, h.refcnt]
  held := fun _ => h.device
  foreign := fun hd => absurd h.device hd
  valid := fun _ => h.valid
  bound := fun _ => h.blockno ▸ h.bound
  clean := by
    intro _ hd
    have hb : b ∉ pinned := fun hb => by simp [h.dirty.mpr hb] at hd
    rw [h.data, h.blockno, hc.view_unpinned hb]
  dirty := fun _ => h.blockno ▸ h.dirty

theorem Bcache.Fetch.coherent (hc : c.Coherent dev pinned) :
    (c.setBuf i x).Coherent dev pinned := by
  refine hc.setBuf (h.ok hc) (fun j _ => hc.bufs j) (fun _ => h.blockno ▸ h.alone) ?_
  intro b' hb
  obtain ⟨j, hj⟩ := hc.pins hb
  by_cases hji : j = i
  · subst hji
    exact .inl ⟨h.device, h.blockno.trans (h.unpinned b' hj hb).symm⟩
  · exact .inr ⟨j, hji, hj⟩

theorem Bcache.Fetch.caches : (c.setBuf i x).Caches dev b i :=
  caches_setBuf.mpr (.inl ⟨rfl, h.device, h.blockno⟩)

theorem Bcache.Fetch.view (hc : c.Coherent dev pinned) : (c.setBuf i x).view dev = c.view dev := by
  funext b'
  have hc' := h.coherent hc
  by_cases hb : b' = b
  · subst hb
    rw [hc'.view_cached h.caches, setBuf_self, h.data]
  by_cases hj : ∃ j, j ≠ i ∧ c.Caches dev b' j
  · obtain ⟨j, hji, hj⟩ := hj
    rw [hc'.view_cached (caches_setBuf.mpr (.inr ⟨hji, hj⟩)), hc.view_cached hj,
      setBuf_of_ne hji]
  -- the block has lost its buffer, which was not pinned, or had none
  have hout : ∀ j, ¬ (c.setBuf i x).Caches dev b' j := by
    intro j hc
    obtain ⟨-, -, e⟩ | hc := caches_setBuf.mp hc
    · exact hb (e.symm.trans h.blockno)
    · exact hj ⟨j, hc⟩
  have hpin : b' ∉ pinned := by
    intro hp
    obtain ⟨j, hcj⟩ := hc.pins hp
    by_cases hji : j = i
    · subst hji
      exact hb (h.unpinned b' hcj hp)
    · exact hj ⟨j, hji, hcj⟩
  rw [view_uncached hout, hc.view_unpinned hpin, setBuf_drives]

end

theorem bread_fetch (hc : c.Coherent dev pinned) (h : bread c p dev b = .ok (i, c')) :
    ∃ x, c.Fetch dev pinned p b i x ∧ c' = c.setBuf i x := by
  obtain ⟨l, hl, hperm⟩ := hc.listed
  have hlen : l.length ≤ NBUF := by simp [hperm.length_eq]
  have hmem : ∀ j, j ∈ l := fun j => hperm.mem_iff.mpr (List.mem_finRange j)
  obtain ⟨⟨i', c1⟩, hget, h⟩ := bind_eq_ok.mp h
  simp only [bget, hl.find_next _ hlen] at hget
  split at hget
  · cases hget
  · rename_i i1 hfind
    obtain ⟨c2, hacq, hget⟩ := bind_eq_ok.mp hget
    cases hget
    have hcached : c.Caches dev b i' := by
      have := List.find?_some (Option.some.inj hfind)
      simpa [Bcache.Caches] using this
    have hok := hc.bufs i'
    simp only [acquiresleep, setBuf_self] at hacq
    split at hacq
    · cases hacq
    rename_i hfree
    cases hacq
    simp only [setBuf_self, hok.valid hcached.1, if_true, setBuf_setBuf] at h
    cases h
    refine ⟨_, ?_, rfl⟩
    have hrefs := hok.refs
    rw [if_pos hfree] at hrefs
    exact {
      device := hcached.1
      blockno := hcached.2
      lock := rfl
      refcnt := by simp [hrefs]
      valid := rfl
      bound := hcached.2 ▸ hok.bound hcached.1
      data := (hc.view_cached hcached).symm
      dirty := hcached.2 ▸ hok.dirty hcached.1
      free := hfree
      alone := fun j hj hcj => hj (hc.unique hcj hcached)
      unpinned := fun b' hb' _ => hb'.2.symm.trans hcached.2 }
  · rename_i hfind
    have hnone : ∀ j, ¬ c.Caches dev b j := by
      intro j hj
      have := List.find?_eq_none.mp (Option.some.inj hfind) j (hmem j)
      simp [hj.1, hj.2] at this
    have hpin : b ∉ pinned := fun hb => (hc.pins hb).elim hnone
    rw [hl.find_prev _ hlen] at hget
    split at hget
    · cases hget
    · cases hget
    rename_i i1 hfind'
    obtain ⟨c2, hacq, hget⟩ := bind_eq_ok.mp hget
    cases hget
    have hunused := List.find?_some (Option.some.inj hfind')
    simp only [Bool.and_eq_true, beq_iff_eq, Bool.not_eq_true'] at hunused
    simp only [acquiresleep, setBuf_self] at hacq
    split at hacq
    · cases hacq
    rename_i hfree
    cases hacq
    simp only [setBuf_self, Bool.false_eq_true, if_false, setBuf_setBuf] at h
    obtain ⟨c3, hrw, h⟩ := bind_eq_ok.mp h
    cases h
    obtain ⟨-, -, hbound, hrw⟩ := (iderw_eq_ok (c.setBuf_idequeue.trans hc.queue)).mp hrw
    simp only [Bcache.synced, setBuf_self, Bool.false_eq_true, if_false,
      setBuf_setBuf, setBuf_drives] at hrw hbound
    refine ⟨_, ?_, hrw⟩
    exact {
      device := rfl
      blockno := rfl
      lock := rfl
      refcnt := rfl
      valid := rfl
      bound := hbound
      data := (view_uncached hnone).symm
      dirty := by simp [hpin]
      free := hfree
      alone := fun j _ => hnone j
      unpinned := by
        intro b' hb' hp
        have := ((hc.bufs i).dirty hb'.1).mpr (hb'.2 ▸ hp)
        simp [hunused.2] at this }

theorem bread_total (hc : c.Coherent dev pinned) (hb : b < FSSIZE)
    (hfree : ∀ j, c.Caches dev b j → (c.buf j).lock = none)
    (hspare : ∃ j, (c.buf j).lock = none ∧ (c.buf j).dirty = false) :
    ∃ i c', bread c p dev b = .ok (i, c') := by
  obtain ⟨l, hl, hperm⟩ := hc.listed
  have hlen : l.length ≤ NBUF := by simp [hperm.length_eq]
  have hmem : ∀ j, j ∈ l := fun j => hperm.mem_iff.mpr (List.mem_finRange j)
  suffices h : ∃ r, bread c p dev b = .ok r from ⟨h.choose.1, h.choose.2, h.choose_spec⟩
  cases hfind : l.find? fun i => (c.buf i).dev == dev && (c.buf i).blockno == b with
  | some i =>
    have hi : c.Caches dev b i := by
      have := List.find?_some hfind
      simpa [Bcache.Caches] using this
    simp [bread, bget, hl.find_next _ hlen, hfind, acquiresleep, hfree i hi,
      (hc.bufs i).valid hi.1, bind, Except.bind, pure, Except.pure]
  | none =>
    obtain ⟨j, hj, hdirty⟩ := hspare
    have hrefs := (hc.bufs j).refs
    rw [if_pos hj] at hrefs
    cases hfind' : l.reverse.find? fun i => (c.buf i).refcnt == 0 && !(c.buf i).dirty with
    | none =>
      have := List.find?_eq_none.mp hfind' j (List.mem_reverse.mpr (hmem j))
      simp [hrefs, hdirty] at this
    | some i =>
      have hi := List.find?_some hfind'
      simp only [Bool.and_eq_true, beq_iff_eq, Bool.not_eq_true'] at hi
      have hlock : (c.buf i).lock = none := by
        by_contra hl
        have := (hc.bufs i).refs
        simp [hl, hi.1] at this
      have hget : bget c p dev b = .ok (i, c.setBuf i { c.buf i with
          dev := dev, blockno := b, valid := false, dirty := false, refcnt := 1,
          lock := some p }) := by
        simp [bget, hl.find_next _ hlen, hl.find_prev _ hlen, hfind, hfind', acquiresleep,
          hlock, bind, Except.bind, pure, Except.pure, setBuf_setBuf]
      refine exists_bind_ok hget ?_
      simp only [setBuf_self, Bool.false_eq_true, if_false]
      refine exists_bind_ok ((iderw_eq_ok (c.setBuf_idequeue.trans hc.queue)).mpr
        ⟨by simp, by simp, by simpa using hb, rfl⟩) ⟨_, rfl⟩

/-! ### Writing and releasing -/

/-- The cache once buffer `i` of block `b` was filled with `data` and written. -/
def Bcache.written (c : Bcache) (dev b : Nat) (i : Fin NBUF) (data : Block) : Bcache :=
  { c with drives := c.drives.put ⟨dev, b, data⟩ }.setBuf i
    { c.buf i with valid := true, dirty := false, data := data }

theorem bwrite_eq (hc : c.Coherent dev pinned) (hi : c.Caches dev b i)
    (hp : (c.buf i).lock = some p) (data : Block) :
    bwrite (c.memmove i data) p i = .ok (c.written dev b i data) := by
  simp only [bwrite, Bcache.memmove, setBuf_self, hp, ne_eq, not_true_eq_false, if_false,
    setBuf_setBuf]
  rw [iderw_eq_ok (by simpa using hc.queue)]
  refine ⟨by simp, fun _ => by simp, by simpa using (hc.bufs i).bound hi.1, ?_⟩
  simp [Bcache.synced, Bcache.written, Bcache.setBuf, hi.1, hi.2, hp]

theorem Buf.Ok.put (h : x.Ok c.drives dev pinned) (data : Block)
    (hb : x.dev = dev → x.blockno ≠ b) :
    x.Ok (c.drives.put ⟨dev, b, data⟩) dev (pinned \ {b}) where
  refs := h.refs
  held := h.held
  foreign := h.foreign
  valid := h.valid
  bound := h.bound
  clean := by
    intro hd hclean
    rw [h.clean hd hclean, Drives.read_put_of_ne _ _ _ (hb hd)]
  dirty := by
    intro hd
    rw [h.dirty hd]
    simp [hb hd]

theorem Bcache.Coherent.written (hc : c.Coherent dev pinned) (hi : c.Caches dev b i)
    (data : Block) : (c.written dev b i data).Coherent dev (pinned \ {b}) := by
  have hother : ∀ j, j ≠ i → ¬ c.Caches dev b j := fun j hj h => hj (hc.unique h hi)
  -- the new drives change nothing the other buffers are compared with
  have hput : ∀ j, j ≠ i → (c.buf j).Ok (c.drives.put ⟨dev, b, data⟩) dev (pinned \ {b}) :=
    fun j hj => (hc.bufs j).put data fun hd e => hother j hj ⟨hd, e⟩
  have hok := hc.bufs i
  refine {
    listed := hc.listed
    unique := ?_
    bufs := ?_
    pins := ?_
    queue := hc.queue }
  · intro j j' b' hj hj'
    rw [Bcache.written, caches_setBuf] at hj hj'
    have hcaches : ∀ j, (j = i ∧ (c.buf i).dev = dev ∧ (c.buf i).blockno = b' ∨
        j ≠ i ∧ c.Caches dev b' j) → c.Caches dev b' j := by
      rintro j (⟨rfl, h⟩ | ⟨-, h⟩)
      · exact h
      · exact h
    exact hc.unique (hcaches j hj) (hcaches j' hj')
  · intro j
    by_cases hj : j = i
    · subst hj
      rw [Bcache.written, setBuf_self]
      exact {
        refs := hok.refs
        held := hok.held
        foreign := fun _ => rfl
        valid := fun _ => rfl
        bound := hok.bound
        clean := by
          intro _ _
          rw [setBuf_drives, hi.2, Drives.read_put_self]
        dirty := by simp [hi.2] }
    · rw [Bcache.written, setBuf_of_ne hj]
      exact hput j hj
  · intro b' hb
    obtain ⟨j, hj⟩ := hc.pins hb.1
    have hji : j ≠ i := by
      rintro rfl
      exact hb.2 (hj.2.symm.trans hi.2)
    exact ⟨j, caches_setBuf.mpr (.inr ⟨hji, hj⟩)⟩

theorem Bcache.Coherent.view_written (hc : c.Coherent dev pinned) (hi : c.Caches dev b i)
    (data : Block) : (c.written dev b i data).view dev = update (c.view dev) b data := by
  have hi' : (c.written dev b i data).Caches dev b i := caches_setBuf.mpr (.inl ⟨rfl, hi⟩)
  rw [hc.view_replace (hc.written hi data) hi hi' (fun j hj => setBuf_of_ne hj)
    fun b' hb => Drives.read_put_of_ne _ _ _ hb, Bcache.written, setBuf_self]

/-- The cache once buffer `i` is released and moved behind the head. -/
def Bcache.released (c : Bcache) (i : Fin NBUF) : Bcache :=
  { c with ring := (c.ring.unlink i).insertHead i }.setBuf i
    { c.buf i with lock := none, refcnt := 0 }

theorem brelse_eq (hc : c.Coherent dev pinned) (hp : (c.buf i).lock = some p) :
    brelse c p i = .ok (c.released i) := by
  have hr := (hc.bufs i).refs
  simp only [hp, reduceCtorEq, if_false] at hr
  simp [brelse, hp, hr, Bcache.released, Bcache.setBuf, pure, Except.pure]

theorem brelse_held (h : brelse c p i = .ok c') : (c.buf i).lock = some p := by
  by_contra hp
  simp [brelse, hp, throw, throwThe, MonadExceptOf.throw] at h

/-- Moving a buffer to the front keeps the list a permutation of all buffers. -/
theorem Bcache.Coherent.toFront (hc : c.Coherent dev pinned) (i : Fin NBUF) :
    { c with ring := (c.ring.unlink i).insertHead i }.Coherent dev pinned where
  listed := by
    obtain ⟨l, hl, hperm⟩ := hc.listed
    obtain ⟨l1, l2, rfl⟩ := List.append_of_mem (hperm.mem_iff.mpr (List.mem_finRange i))
    have hmid : (l1 ++ i :: l2).Perm (i :: (l1 ++ l2)) := List.perm_middle
    refine ⟨i :: (l1 ++ l2), hl.unlink.insertHead ?_, hmid.symm.trans hperm⟩
    exact (List.nodup_cons.mp (hmid.nodup_iff.mp hl.nodup)).1
  unique := hc.unique
  bufs := hc.bufs
  pins := hc.pins
  queue := hc.queue

theorem Bcache.Coherent.released (hc : c.Coherent dev pinned) (i : Fin NBUF) :
    (c.released i).Coherent dev pinned := by
  have hok := hc.bufs i
  refine (hc.toFront i).setBuf ?_ (fun j _ => hc.bufs j) ?_ ?_
  · exact {
      refs := rfl
      held := fun h => absurd rfl h
      foreign := hok.foreign
      valid := hok.valid
      bound := hok.bound
      clean := hok.clean
      dirty := hok.dirty }
  · intro hd j hj hcj
    exact hj (hc.unique hcj ⟨hd, rfl⟩)
  · intro b' hb
    obtain ⟨j, hj⟩ := hc.pins hb
    by_cases hji : j = i
    · subst hji
      exact .inl hj
    · exact .inr ⟨j, hji, hj⟩

theorem Bcache.Coherent.view_released (hc : c.Coherent dev pinned)
    (hp : (c.buf i).lock = some p) : (c.released i).view dev = c.view dev := by
  have hi : c.Caches dev (c.buf i).blockno i := ⟨(hc.bufs i).held (by simp [hp]), rfl⟩
  have hi' : (c.released i).Caches dev (c.buf i).blockno i :=
    caches_setBuf.mpr (.inl ⟨rfl, hi⟩)
  rw [hc.view_replace (hc.released i) hi hi' (fun j hj => setBuf_of_ne hj) fun _ _ => rfl,
    Bcache.released, setBuf_self, ← hc.view_cached hi, update_eq_self]

end

theorem lists_foldl_insertHead {r : Lib.Ring (Fin NBUF)} {l xs : List (Fin NBUF)} (h : r.Lists l)
    (hx : (xs.reverse ++ l).Nodup) : (xs.foldl Lib.Ring.insertHead r).Lists (xs.reverse ++ l) := by
  induction xs generalizing r l with
  | nil => exact h
  | cons i xs ih =>
    rw [List.reverse_cons, List.append_assoc, List.singleton_append] at hx ⊢
    refine ih (h.insertHead ?_) hx
    exact (List.nodup_cons.mp (List.nodup_append.mp hx).2.1).1

theorem binit_coherent (d : Drives) {dev : Nat} (hdev : dev ≠ 0) : (binit d).Coherent dev ∅ where
  listed := by
    have hnodup : ((List.finRange NBUF).reverse ++ []).Nodup := by
      simpa using List.nodup_finRange NBUF
    exact ⟨_, lists_foldl_insertHead Lib.Ring.lists_empty hnodup, by simp⟩
  unique := fun h => absurd h.1.symm hdev
  bufs := fun i => {
    refs := rfl
    held := fun h => absurd rfl h
    foreign := fun _ => rfl
    valid := fun h => absurd h.symm hdev
    bound := fun h => absurd h.symm hdev
    clean := fun h => absurd h.symm hdev
    dirty := fun h => absurd h.symm hdev }
  pins := by simp
  queue := rfl

end Xv6
