import Xv6.Log
import Xv6.BcacheSpec

/-!
What the loop bodies of `log.c` do to a coherent cache: each writes one block, changes
what that block reads as and nothing else, and releases the buffers it took. The header
that `write_head` puts into a block is the one `read_head` finds there.
-/

namespace Xv6

open Lib Bcache

variable {x y : Buf} {b' : Nat} {toLog : Bool} {c1 : Bcache} {g : Log}

/-- Block `b` was written with `data`; no buffer has changed hands. -/
structure Bcache.Wrote (c c' : Bcache) (dev : Nat) (pinned : Set Nat) (b : Nat) (data : Block) :
    Prop where
  coherent : c'.Coherent dev (pinned \ {b})
  view : c'.view dev = Function.update (c.view dev) b data
  drives : c'.drives = c.drives.put ⟨dev, b, data⟩
  locks : ∀ j, (c'.buf j).lock = (c.buf j).lock

def Bcache.Quiet (c : Bcache) : Prop := ∀ i, (c.buf i).lock = none

section
variable {c c' : Bcache} {dev p b tail : Nat} {i j : Fin NBUF} {pinned : Set Nat}
  {s s' : Storage}

theorem Bcache.Wrote.quiet {data : Block} (h : c.Wrote c' dev pinned b data) (hq : c.Quiet) :
    c'.Quiet := fun j => (h.locks j).trans (hq j)

theorem Bcache.written_lock (c : Bcache) (dev b : Nat) (i : Fin NBUF) (data : Block) (j : Fin NBUF) :
    ((c.written dev b i data).buf j).lock = (c.buf j).lock := by
  by_cases hj : j = i
  · subst hj
    simp [Bcache.written]
  · simp [Bcache.written, setBuf_of_ne hj]

theorem Bcache.released_lock (c : Bcache) (i j : Fin NBUF) :
    ((c.released i).buf j).lock = if j = i then none else (c.buf j).lock := by
  by_cases hj : j = i
  · subst hj
    simp [Bcache.released]
  · simp [Bcache.released, setBuf_of_ne hj, hj]

theorem Bcache.Fetch.rewrite (hx : c.Fetch dev pinned p b i x) (hc : c.Coherent dev pinned)
    (data : Block) :
    ∃ c', (bwrite ((c.setBuf i x).memmove i data) p i >>= fun c => brelse c p i) = .ok c' ∧
      c.Wrote c' dev pinned b data := by
  have hc1 := hx.coherent hc
  have hlock : ((c.setBuf i x).buf i).lock = some p := by simp [hx.lock]
  have hc2 := hc1.written hx.caches data
  have hlock' := (written_lock _ dev b i data i).trans hlock
  refine ⟨_, bind_eq_ok.mpr ⟨_, bwrite_eq hc1 hx.caches hlock data, brelse_eq hc2 hlock'⟩,
    hc2.released i, ?_, rfl, ?_⟩
  · rw [hc2.view_released hlock', hc1.view_written hx.caches, hx.view hc]
  intro j
  rw [released_lock, written_lock]
  by_cases hj : j = i
  · subst hj
    simp [hx.free]
  · simp [hj, setBuf_of_ne hj]

theorem Bcache.Fetch.ne (hx : c.Fetch dev pinned p b i x)
    (hy : (c.setBuf i x).Fetch dev pinned p b' j y) : j ≠ i := by
  rintro rfl
  have := hy.free
  simp [hx.lock] at this

/-- Of two fetched buffers one is filled from the other and written, and both are
released. -/
theorem Bcache.Fetch.copy (hx : c.Fetch dev pinned p b i x)
    (hy : (c.setBuf i x).Fetch dev pinned p b' j y) (hc : c.Coherent dev pinned)
    {dst src : Fin NBUF} {target source : Nat} (h : dst = i ∧ src = j ∧ target = b ∧ source = b' ∨
      dst = j ∧ src = i ∧ target = b' ∧ source = b) :
    ∃ c', (bwrite (((c.setBuf i x).setBuf j y).memmove dst
        (((c.setBuf i x).setBuf j y).buf src).data) p dst >>= fun c =>
      brelse c p src >>= fun c => brelse c p dst) = .ok c' ∧
      c.Wrote c' dev pinned target (c.view dev source) := by
  have hne := hx.ne hy
  have hc1 := hx.coherent hc
  have hc2 := hy.coherent hc1
  have hview := (hy.view hc1).trans (hx.view hc)
  have hbuf : ∀ k, k ≠ i → k ≠ j → ((c.setBuf i x).setBuf j y).buf k = c.buf k :=
    fun k hki hkj => by rw [setBuf_of_ne hkj, setBuf_of_ne hki]
  have hi : ((c.setBuf i x).setBuf j y).buf i = x := by simp [setBuf_of_ne hne.symm]
  have hj : ((c.setBuf i x).setBuf j y).buf j = y := by simp
  have hfree : (c.buf i).lock = none ∧ (c.buf j).lock = none := by
    have := hy.free
    rw [setBuf_of_ne hne] at this
    exact ⟨hx.free, this⟩
  have hdrives : ((c.setBuf i x).setBuf j y).drives = c.drives := rfl
  generalize (c.setBuf i x).setBuf j y = c2 at hc2 hview hbuf hi hj hdrives ⊢
  have hdst : c2.Caches dev target dst := by
    obtain ⟨rfl, rfl, rfl, rfl⟩ | ⟨rfl, rfl, rfl, rfl⟩ := h
    · exact ⟨hi ▸ hx.device, hi ▸ hx.blockno⟩
    · exact ⟨hj ▸ hy.device, hj ▸ hy.blockno⟩
  have hsrc : (c2.buf src).data = c.view dev source := by
    obtain ⟨rfl, rfl, rfl, rfl⟩ | ⟨rfl, rfl, rfl, rfl⟩ := h
    · rw [hj, hy.data, hx.view hc]
    · rw [hi, hx.data]
  have hheld : (c2.buf dst).lock = some p ∧ (c2.buf src).lock = some p := by
    obtain ⟨rfl, rfl, -⟩ | ⟨rfl, rfl, -⟩ := h
    · exact ⟨hi ▸ hx.lock, hj ▸ hy.lock⟩
    · exact ⟨hj ▸ hy.lock, hi ▸ hx.lock⟩
  have hds : dst ≠ src := by
    obtain ⟨rfl, rfl, -⟩ | ⟨rfl, rfl, -⟩ := h
    · exact hne.symm
    · exact hne
  rw [hsrc]
  have hc3 := hc2.written hdst (c.view dev source)
  have hlock3 := (written_lock c2 dev target dst (c.view dev source) src).trans hheld.2
  have hc4 := hc3.released src
  have hlock4 : (((c2.written dev target dst (c.view dev source)).released src).buf dst).lock = some p := by
    rw [released_lock, if_neg hds, written_lock, hheld.1]
  refine ⟨_, bind_eq_ok.mpr ⟨_, bwrite_eq hc2 hdst hheld.1 _,
    bind_eq_ok.mpr ⟨_, brelse_eq hc3 hlock3, brelse_eq hc4 hlock4⟩⟩, hc4.released dst, ?_, ?_, ?_⟩
  · rw [hc4.view_released hlock4, hc3.view_released hlock3, hc2.view_written hdst, hview]
  · rw [← hdrives]
    rfl
  intro k
  rw [released_lock, released_lock, written_lock]
  by_cases hk : k = i ∨ k = j
  · have hnone : (c.buf k).lock = none := by
      obtain rfl | rfl := hk
      · exact hfree.1
      · exact hfree.2
    have : k = dst ∨ k = src := by
      obtain ⟨rfl, rfl, -⟩ | ⟨rfl, rfl, -⟩ := h
      · exact hk
      · exact hk.symm
    obtain rfl | rfl := this <;> simp [hnone]
  · obtain ⟨hki, hkj⟩ := not_or.mp hk
    have : k ≠ dst ∧ k ≠ src := by
      obtain ⟨rfl, rfl, -⟩ | ⟨rfl, rfl, -⟩ := h
      · exact ⟨hki, hkj⟩
      · exact ⟨hkj, hki⟩
    simp [this.1, this.2, hbuf k hki hkj]

theorem Bcache.Coherent.not_dirty (hc : c.Coherent dev ∅) (i : Fin NBUF) : (c.buf i).dirty = false := by
  by_cases hd : (c.buf i).dev = dev
  · simpa using (hc.bufs i).dirty hd
  · exact (hc.bufs i).foreign hd

theorem bread_quiet (hc : c.Coherent dev ∅) (hq : c.Quiet) (hb : b < FSSIZE) :
    ∃ i c', bread c p dev b = .ok (i, c') :=
  bread_total hc hb (fun j _ => hq j) ⟨0, hq 0, hc.not_dirty 0⟩

theorem bread_quiet_second (hc : c.Coherent dev ∅) (hq : c.Quiet) (hx : c.Fetch dev ∅ p b i x)
    (hb : b' < FSSIZE) (hne : b' ≠ b) : ∃ j c', bread (c.setBuf i x) p dev b' = .ok (j, c') := by
  have hc1 := hx.coherent hc
  obtain ⟨j, hj⟩ := exists_ne i
  refine bread_total hc1 hb ?_ ⟨j, ?_, hc1.not_dirty j⟩
  · intro k hk
    by_cases hki : k = i
    · subst hki
      exact absurd (hk.2.symm.trans hx.caches.2) hne
    · rw [setBuf_of_ne hki]
      exact hq k
  · rw [setBuf_of_ne hj]
    exact hq j

theorem copyTail_of_bread {c2 : Bcache} (hc : s.cache.Coherent s.log.area.dev pinned)
    (h1 : bread s.cache p s.log.area.dev (s.log.area.start + tail + 1) = .ok (i, c1))
    (h2 : bread c1 p s.log.area.dev (s.log.lh.getD tail 0) = .ok (j, c2)) :
    ∃ c', copyTail toLog s p tail = .ok { s with cache := c' } ∧
      s.cache.Wrote c' s.log.area.dev pinned
        (if toLog then s.log.area.start + tail + 1 else s.log.lh.getD tail 0)
        (s.cache.view s.log.area.dev
          (if toLog then s.log.lh.getD tail 0 else s.log.area.start + tail + 1)) := by
  obtain ⟨x, hx, rfl⟩ := bread_fetch hc h1
  obtain ⟨y, hy, rfl⟩ := bread_fetch (hx.coherent hc) h2
  cases toLog with
  | true =>
    obtain ⟨c', hrun, hw⟩ := hx.copy hy hc (.inl ⟨rfl, rfl, rfl, rfl⟩)
    refine ⟨c', ?_, hw⟩
    obtain ⟨c3, h3, hrun⟩ := bind_eq_ok.mp hrun
    obtain ⟨c4, h4, h5⟩ := bind_eq_ok.mp hrun
    exact bind_eq_ok.mpr ⟨_, h1, bind_eq_ok.mpr ⟨_, h2, bind_eq_ok.mpr ⟨_, h3,
      bind_eq_ok.mpr ⟨_, h4, bind_eq_ok.mpr ⟨_, h5, rfl⟩⟩⟩⟩⟩
  | false =>
    obtain ⟨c', hrun, hw⟩ := hx.copy hy hc (.inr ⟨rfl, rfl, rfl, rfl⟩)
    refine ⟨c', ?_, hw⟩
    obtain ⟨c3, h3, hrun⟩ := bind_eq_ok.mp hrun
    obtain ⟨c4, h4, h5⟩ := bind_eq_ok.mp hrun
    exact bind_eq_ok.mpr ⟨_, h1, bind_eq_ok.mpr ⟨_, h2, bind_eq_ok.mpr ⟨_, h3,
      bind_eq_ok.mpr ⟨_, h4, bind_eq_ok.mpr ⟨_, h5, rfl⟩⟩⟩⟩⟩

theorem copyTail_spec (hc : s.cache.Coherent s.log.area.dev pinned)
    (h : copyTail toLog s p tail = .ok s') : ∃ c', s' = { s with cache := c' } ∧
      s.cache.Wrote c' s.log.area.dev pinned
        (if toLog then s.log.area.start + tail + 1 else s.log.lh.getD tail 0)
        (s.cache.view s.log.area.dev
          (if toLog then s.log.lh.getD tail 0 else s.log.area.start + tail + 1)) := by
  obtain ⟨⟨i, c1⟩, h1, hrest⟩ := bind_eq_ok.mp h
  obtain ⟨⟨j, c2⟩, h2, -⟩ := bind_eq_ok.mp hrest
  obtain ⟨c', hrun, hw⟩ := copyTail_of_bread hc h1 h2
  exact ⟨c', Except.ok.inj (h.symm.trans hrun), hw⟩

theorem installBody_total (hc : s.cache.Coherent s.log.area.dev ∅) (hq : s.cache.Quiet)
    (hlog : s.log.area.start + tail + 1 < FSSIZE) (hhome : s.log.lh.getD tail 0 < FSSIZE)
    (hne : s.log.lh.getD tail 0 ≠ s.log.area.start + tail + 1) :
    ∃ s', installBody s p tail = .ok s' := by
  obtain ⟨i, c1, h1⟩ := bread_quiet hc hq hlog
  obtain ⟨x, hx, rfl⟩ := bread_fetch hc h1
  obtain ⟨j, c2, h2⟩ := bread_quiet_second hc hq hx hhome hne
  obtain ⟨c', hrun, -⟩ := copyTail_of_bread hc h1 h2
  exact ⟨_, hrun⟩

theorem writeHead_of_bread (hc : s.cache.Coherent s.log.area.dev pinned)
    (h1 : bread s.cache p s.log.area.dev s.log.area.start = .ok (i, c1)) :
    ∃ c', writeHead s p = .ok { s with cache := c' } ∧
      s.cache.Wrote c' s.log.area.dev pinned s.log.area.start
        ((s.cache.view s.log.area.dev s.log.area.start).setHeader s.log.lh) := by
  obtain ⟨x, hx, rfl⟩ := bread_fetch hc h1
  obtain ⟨c', hrun, hw⟩ := hx.rewrite hc
    ((s.cache.view s.log.area.dev s.log.area.start).setHeader s.log.lh)
  refine ⟨c', ?_, hw⟩
  obtain ⟨c2, h2, h3⟩ := bind_eq_ok.mp hrun
  refine bind_eq_ok.mpr ⟨_, h1, bind_eq_ok.mpr ⟨c2, ?_, bind_eq_ok.mpr ⟨_, h3, rfl⟩⟩⟩
  simpa [hx.data] using h2

theorem writeHead_spec (hc : s.cache.Coherent s.log.area.dev pinned) (h : writeHead s p = .ok s') :
    ∃ c', s' = { s with cache := c' } ∧
      s.cache.Wrote c' s.log.area.dev pinned s.log.area.start
        ((s.cache.view s.log.area.dev s.log.area.start).setHeader s.log.lh) := by
  obtain ⟨⟨i, c1⟩, h1, -⟩ := bind_eq_ok.mp h
  obtain ⟨c', hrun, hw⟩ := writeHead_of_bread hc h1
  exact ⟨c', Except.ok.inj (h.symm.trans hrun), hw⟩

theorem writeHead_total (hc : s.cache.Coherent s.log.area.dev ∅) (hq : s.cache.Quiet)
    (hlog : s.log.area.start < FSSIZE) : ∃ s', writeHead s p = .ok s' := by
  obtain ⟨i, c1, h1⟩ := bread_quiet hc hq hlog
  obtain ⟨c', hrun, -⟩ := writeHead_of_bread hc h1
  exact ⟨_, hrun⟩

theorem readHead_spec (hc : s.cache.Coherent s.log.area.dev pinned) (h : readHead s p = .ok s') :
    ∃ c', s' = { s with
        cache := c'
        log := { s.log with lh := (s.cache.view s.log.area.dev s.log.area.start).header } } ∧
      c'.Coherent s.log.area.dev pinned ∧ c'.view s.log.area.dev = s.cache.view s.log.area.dev ∧
      c'.drives = s.cache.drives ∧ ∀ j, (c'.buf j).lock = (s.cache.buf j).lock := by
  obtain ⟨⟨i, c1⟩, h1, h⟩ := bind_eq_ok.mp h
  obtain ⟨x, hx, rfl⟩ := bread_fetch hc h1
  obtain ⟨c', h2, h⟩ := bind_eq_ok.mp h
  have hc1 := hx.coherent hc
  have hlock : ((s.cache.setBuf i x).buf i).lock = some p := by simp [hx.lock]
  rw [brelse_eq hc1 hlock] at h2
  cases h2
  cases h
  refine ⟨_, ?_, hc1.released i, ?_, rfl, ?_⟩
  · simp [hx.data]
  · rw [hc1.view_released hlock, hx.view hc]
  intro j
  rw [released_lock]
  by_cases hj : j = i
  · subst hj
    simp [hx.free]
  · simp [hj, setBuf_of_ne hj]

theorem readHead_total (hc : s.cache.Coherent s.log.area.dev ∅) (hq : s.cache.Quiet)
    (hlog : s.log.area.start < FSSIZE) : ∃ s', readHead s p = .ok s' := by
  obtain ⟨i, c1, h1⟩ := bread_quiet hc hq hlog
  obtain ⟨x, hx, rfl⟩ := bread_fetch hc h1
  refine exists_bind_ok h1 (exists_bind_ok (brelse_eq (hx.coherent hc) ?_) ⟨_, rfl⟩)
  simp [hx.lock]

end

theorem Block.header_setHeader (b : Block) {lh : List Nat} (h : lh.length ≤ LOGSIZE) :
    (b.setHeader lh).header = lh := by
  apply List.ext_getElem
  · simp [Block.header, Block.word, Block.setHeader]
  · intro i h1 h2
    have h : lh.length ≤ 30 := h
    have hi : i + 1 < 128 := by omega
    simp [Block.header, Block.word, Block.setHeader, hi, h2]

theorem Log.absorb_eq (g : Log) (b : Nat) :
    g.absorb b = { g with lh := if b ∈ g.lh then g.lh else g.lh ++ [b] } := by
  unfold Log.absorb
  by_cases hb : b ∈ g.lh
  · have hlt := List.idxOf_lt_length_iff.mpr hb
    have hset : g.lh.set (g.lh.idxOf b) b = g.lh := by
      apply List.ext_getElem (by simp)
      intro i h1 h2
      rw [List.getElem_set]
      split
      · rename_i hi
        subst hi
        simp
      · rfl
    simp [hb, hlt.ne, hset]
  · simp [hb]

theorem Log.mem_absorb {b x : Nat} : x ∈ (g.absorb b).lh ↔ x ∈ g.lh ∨ x = b := by
  rw [Log.absorb_eq]
  by_cases hm : b ∈ g.lh
  · simp only [hm, if_true]
    constructor
    · exact .inl
    · rintro (h | rfl)
      · exact h
      · exact hm
  · simp [hm]

theorem Log.nodup_absorb (h : g.lh.Nodup) (b : Nat) : (g.absorb b).lh.Nodup := by
  rw [Log.absorb_eq]
  by_cases hm : b ∈ g.lh
  · simpa [hm] using h
  · simp only [hm, if_false]
    refine List.nodup_append.mpr ⟨h, List.nodup_singleton b, ?_⟩
    intro x hx y hy e
    rw [List.mem_singleton.mp hy] at e
    exact hm (e ▸ hx)

end Xv6
