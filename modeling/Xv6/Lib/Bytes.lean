import Mathlib.Data.Nat.Bitwise
import Mathlib.Logic.Function.Basic

/-!
Bytes in memory: numbers in little-endian order, bytes copied to an offset, records of one
width in a row, and arrays of bits. A piece of memory is a function from offsets to bytes.
-/

namespace Lib

open Function BitVec

/-- The number in the `n` bytes from offset `o` on. -/
def leAt (b : Nat → UInt8) : Nat → Nat → Nat
  | _, 0 => 0
  | o, n + 1 => (b o).toNat + 256 * leAt b (o + 1) n

def leByte (v i : Nat) : UInt8 := UInt8.ofNat (v / 256 ^ i)

/-- The memory with `v` in the `n` bytes from offset `o` on. -/
def putLe (b : Nat → UInt8) (o n v : Nat) (i : Nat) : UInt8 :=
  if o ≤ i ∧ i < o + n then leByte v (i - o) else b i

def splice (b : Nat → UInt8) (o : Nat) (src : List UInt8) (i : Nat) : UInt8 :=
  if o ≤ i ∧ i < o + src.length then src.getD (i - o) 0 else b i

theorem splice_nil (b : Nat → UInt8) (o : Nat) : splice b o [] = b := by
  funext i
  rw [splice, if_neg (by rw [List.length_nil]; omega)]

theorem splice_congr {b c : Nat → UInt8} {o i : Nat} {src : List UInt8}
    (h : ¬ (o ≤ i ∧ i < o + src.length) → b i = c i) : splice b o src i = splice c o src i := by
  unfold splice
  split_ifs with hin
  · rfl
  · exact h hin

theorem splice_append (b : Nat → UInt8) (o : Nat) (s t : List UInt8) :
    splice b o (s ++ t) = splice (splice b o s) (o + s.length) t := by
  funext i
  simp only [splice, List.length_append]
  by_cases h1 : o + s.length ≤ i
  · by_cases h2 : i < o + s.length + t.length
    · rw [if_pos (by omega), if_pos (by omega), List.getD_append_right _ _ _ _ (by omega),
        show i - o - s.length = i - (o + s.length) by omega]
    · rw [if_neg (by omega), if_neg (by omega), if_neg (by omega)]
  · rw [if_neg fun h : o + s.length ≤ i ∧ _ => h1 h.1]
    by_cases h2 : o ≤ i
    · rw [if_pos (by omega), if_pos (by omega), List.getD_append _ _ _ _ (by omega)]
    · rw [if_neg (by omega), if_neg (by omega)]

theorem map_range_splice (b : Nat → UInt8) (s : List UInt8) {o n : Nat} (h : o ≤ n) :
    (List.range (max n (o + s.length))).map (splice b o s) =
      ((List.range n).map b).take o ++ s ++ ((List.range n).map b).drop (o + s.length) := by
  have hsum : max n (o + s.length) = o + s.length + (n - (o + s.length)) := by omega
  have hdrop : ((List.range n).map b).drop (o + s.length) =
      (List.range (n - (o + s.length))).map fun i => b (o + s.length + i) := by
    rw [← List.map_drop, List.range_eq_range', List.drop_range', List.range'_eq_map_range, List.map_map]
    simp [Function.comp_def]
  rw [hsum, List.range_add, List.range_add, List.map_append, List.map_append, List.map_map, List.map_map,
    hdrop, ← List.map_take, List.take_range, Nat.min_eq_left h]
  congr 1
  · congr 1
    · exact List.map_congr_left fun i hi => if_neg (by have := List.mem_range.mp hi; omega)
    · refine List.ext_getElem (by simp) fun i hi hlt => ?_
      rw [List.getElem_map, List.getElem_range, Function.comp_apply, splice, if_pos (by omega),
        Nat.add_sub_cancel_left, List.getD_eq_getElem s 0 hlt]
  · refine List.map_congr_left fun i _ => ?_
    rw [Function.comp_apply, splice, if_neg (by omega)]

section
variable {b c : Nat → UInt8} {o n v : Nat}

theorem leAt_congr (h : ∀ i, o ≤ i → i < o + n → b i = c i) : leAt b o n = leAt c o n := by
  induction n generalizing o with
  | zero => rfl
  | succ n ih =>
    rw [leAt, leAt, h o le_rfl (by omega), ih fun i h1 h2 => h i (by omega) (by omega)]

theorem leAt_lt (b : Nat → UInt8) (o n : Nat) : leAt b o n < 256 ^ n := by
  induction n generalizing o with
  | zero => exact Nat.one_pos
  | succ n ih =>
    have h1 := (b o).toNat_lt
    have h2 := ih (o + 1)
    rw [leAt, Nat.pow_succ]
    omega

theorem leAt_of_bytes (h : ∀ i < n, b (o + i) = leByte v i) : leAt b o n = v % 256 ^ n := by
  induction n generalizing o v with
  | zero => rw [leAt, Nat.pow_zero, Nat.mod_one]
  | succ n ih =>
    have htail : leAt b (o + 1) n = v / 256 % 256 ^ n := by
      refine ih fun i hi => ?_
      have := h (i + 1) (by omega)
      rw [show o + 1 + i = o + (i + 1) by omega, this, leByte, leByte, Nat.div_div_eq_div_mul,
        Nat.pow_succ, Nat.mul_comm]
    have hhead : (b o).toNat = v % 256 := by
      rw [show b o = leByte v 0 from h 0 (by omega), leByte, Nat.pow_zero, Nat.div_one]
      exact UInt8.toNat_ofNat'
    rw [leAt, htail, hhead, Nat.pow_succ, Nat.mul_comm (256 ^ n), Nat.mod_mul]

theorem leAt_putLe (b : Nat → UInt8) (o n v : Nat) : leAt (putLe b o n v) o n = v % 256 ^ n :=
  leAt_of_bytes fun i hi => by
    rw [putLe, if_pos ⟨by omega, by omega⟩, Nat.add_sub_cancel_left]

theorem leAt_putLe_of_le {o' n' : Nat} (h : o + n ≤ o' ∨ o' + n' ≤ o) :
    leAt (putLe b o' n' v) o n = leAt b o n :=
  leAt_congr fun i h1 h2 => by rw [putLe, if_neg (by omega)]

end

theorem take_drop_flatMap {α β : Type} {f : α → List β} {w : Nat} (h : ∀ a, (f a).length = w)
    {es : List α} {j : Nat} (hj : j < es.length) :
    ((es.flatMap f).drop (w * j)).take w = f es[j] := by
  induction es generalizing j with
  | nil => exact absurd hj (Nat.not_lt_zero j)
  | cons a es ih =>
    rw [List.flatMap_cons]
    cases j with
    | zero =>
      rw [Nat.mul_zero, List.drop_zero, List.take_left' (h a)]
      rfl
    | succ j =>
      rw [List.drop_append, List.drop_eq_nil_of_le (by rw [h a]; exact Nat.le_mul_of_pos_right w (by omega)),
        List.nil_append, h a, Nat.mul_succ, Nat.add_sub_cancel]
      exact ih (by simpa using hj)

def bitMask (n : Nat) : UInt8 := 1 <<< UInt8.ofNat (n % 8)

def bitAt (b : Nat → UInt8) (n : Nat) : Bool := b (n / 8) &&& bitMask n != 0

def setBit (b : Nat → UInt8) (n : Nat) : Nat → UInt8 :=
  update b (n / 8) (b (n / 8) ||| bitMask n)

def clearBit (b : Nat → UInt8) (n : Nat) : Nat → UInt8 :=
  update b (n / 8) (b (n / 8) &&& ~~~bitMask n)

theorem bitMask_toBitVec (n : Nat) : (bitMask n).toBitVec = 1#8 <<< (n % 8) := by
  have h : ∀ i < 8, ((1 : UInt8) <<< UInt8.ofNat i).toBitVec = 1#8 <<< i := by decide
  exact h _ (Nat.mod_lt _ (by decide))

theorem getLsbD_bitMask (n i : Nat) : (bitMask n).toBitVec.getLsbD i = decide (i = n % 8) := by
  have h : n % 8 < 8 := Nat.mod_lt _ (by decide)
  rw [bitMask_toBitVec, getLsbD_shiftLeft]
  by_cases hi : i = n % 8
  · subst hi
    simp [h]
  · simp only [hi, decide_false]
    simp
    omega

theorem bitAt_eq (b : Nat → UInt8) (n : Nat) : bitAt b n = (b (n / 8)).toBitVec.getLsbD (n % 8) := by
  have h : n % 8 < 8 := Nat.mod_lt _ (by decide)
  cases hx : (b (n / 8)).toBitVec.getLsbD (n % 8) with
  | false =>
    have : b (n / 8) &&& bitMask n = 0 := by
      apply UInt8.toBitVec_inj.mp
      refine eq_of_getLsbD_eq fun i hi => ?_
      rw [UInt8.toBitVec_and, getLsbD_and, getLsbD_bitMask]
      by_cases hin : i = n % 8
      · subst hin
        simp [hx]
      · simp [hin]
    simp [bitAt, this]
  | true =>
    have : b (n / 8) &&& bitMask n ≠ 0 := by
      intro h0
      have := congrArg (fun x : UInt8 => x.toBitVec.getLsbD (n % 8)) h0
      simp [getLsbD_bitMask, hx] at this
    simp [bitAt, this]

theorem bitAt_setBit (b : Nat → UInt8) (n m : Nat) :
    bitAt (setBit b n) m = (bitAt b m || decide (m = n)) := by
  rw [bitAt_eq, bitAt_eq, setBit]
  by_cases hd : m / 8 = n / 8
  · rw [hd, update_self, UInt8.toBitVec_or, getLsbD_or, getLsbD_bitMask]
    congr 1
    exact decide_eq_decide.mpr ⟨fun h => by omega, fun h => by rw [h]⟩
  · rw [update_of_ne hd, decide_eq_false (by rintro rfl; exact hd rfl), Bool.or_false]

theorem bitAt_clearBit (b : Nat → UInt8) (n m : Nat) :
    bitAt (clearBit b n) m = (bitAt b m && !decide (m = n)) := by
  have h8 : m % 8 < 8 := Nat.mod_lt _ (by decide)
  rw [bitAt_eq, bitAt_eq, clearBit]
  by_cases hd : m / 8 = n / 8
  · rw [hd, update_self, UInt8.toBitVec_and, getLsbD_and, UInt8.toBitVec_not,
      getLsbD_not, getLsbD_bitMask]
    congr 1
    simp only [h8, decide_true, Bool.true_and]
    congr 1
    exact decide_eq_decide.mpr ⟨fun h => by omega, fun h => by rw [h]⟩
  · rw [update_of_ne hd, decide_eq_false (by rintro rfl; exact hd rfl), Bool.not_false,
      Bool.and_true]

theorem getElem?_overwrite {α : Type} {l src : List α} {o n : Nat} (ho : o ≤ l.length)
    (hn : src.length = n) (i : Nat) : (l.take o ++ src ++ l.drop (o + n))[i]? =
      if o ≤ i ∧ i < o + n then src[i - o]? else l[i]? := by
  have hlen : (l.take o).length = o := by
    rw [List.length_take]
    omega
  by_cases h1 : o ≤ i
  · rw [List.append_assoc, List.getElem?_append_right (by omega), hlen]
    by_cases h2 : i < o + n
    · rw [if_pos ⟨h1, h2⟩, List.getElem?_append_left (by omega)]
    · rw [if_neg (by omega), List.getElem?_append_right (by omega), List.getElem?_drop]
      congr 1
      omega
  · rw [if_neg (by omega), List.append_assoc, List.getElem?_append_left (by omega),
      List.getElem?_take_of_lt (by omega)]

end Lib
