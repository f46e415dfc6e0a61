import Mathlib.Data.List.Basic
import Mathlib.Data.Nat.Bitwise

/-!
# Sets in words

A list of words as a set of numbers: the number `n` is in it when its bit, in
its word, is set (`bitAt`). Setting a bit adds a number (`bitAt_setBit`), words
that are empty add none, and the set bits in their order are the numbers in
theirs (`flatMap_setBits`). A word without its lowest set bit is the word and its
predecessor, bit by bit (`testBit_and_pred`).
-/

namespace Folo.Lib

variable {w : Nat}

/-- A word, empty beyond the last one. -/
def wordAt (words : List (BitVec w)) (i : Nat) : BitVec w := words[i]?.getD 0#w

def bitAt (words : List (BitVec w)) (n : Nat) : Bool := (wordAt words (n / w)).getLsbD (n % w)

/-- The words, and empty ones up to a width. -/
def widen (words : List (BitVec w)) (width : Nat) : List (BitVec w) :=
  words ++ List.replicate (width - words.length) 0#w

def setBit (words : List (BitVec w)) (n : Nat) : List (BitVec w) :=
  words.modify (n / w) fun word => word ||| (1#w <<< (n % w))

@[simp] theorem length_setBit (words : List (BitVec w)) (n : Nat) :
    (setBit words n).length = words.length := List.length_modify ..

theorem length_widen (words : List (BitVec w)) (width : Nat) :
    (widen words width).length = max words.length width := by
  unfold widen
  rw [List.length_append, List.length_replicate]
  omega

@[simp] theorem wordAt_widen (words : List (BitVec w)) (width i : Nat) :
    wordAt (widen words width) i = wordAt words i := by
  unfold wordAt widen
  by_cases hi : i < words.length
  · rw [List.getElem?_append_left hi]
  · have hle := Nat.le_of_not_lt hi
    rw [List.getElem?_append_right hle, List.getElem?_eq_none hle, List.getElem?_replicate]
    split <;> rfl

@[simp] theorem bitAt_widen (words : List (BitVec w)) (width n : Nat) :
    bitAt (widen words width) n = bitAt words n := by
  unfold bitAt
  rw [wordAt_widen]

/-- Setting a bit adds a number and takes none away. -/
theorem bitAt_setBit (hw : 0 < w) {words : List (BitVec w)} {n : Nat}
    (hn : n / w < words.length) (m : Nat) :
    bitAt (setBit words n) m = (bitAt words m || decide (m = n)) := by
  unfold bitAt setBit wordAt
  rw [List.getElem?_modify]
  have hbit : (1#w <<< (n % w)).getLsbD (m % w) = decide (m % w = n % w) := by
    have hlt := Nat.mod_lt m hw
    rw [← BitVec.twoPow_eq, BitVec.getLsbD_twoPow]
    by_cases heq : n % w = m % w
    · simp [heq, hlt]
    · simp [heq, Ne.symm heq]
  by_cases hword : n / w = m / w
  · have hsome : words[m / w]? = some words[n / w] := by
      rw [← hword]
      exact List.getElem?_eq_getElem hn
    have hsame : m = n ↔ m % w = n % w := by
      constructor
      · intro h
        rw [h]
      · intro h
        rw [← Nat.div_add_mod m w, ← Nat.div_add_mod n w, hword, h]
    simp only [hsome, hword, if_true, Option.map_eq_map, Option.map_some, Option.getD_some,
      BitVec.getLsbD_or, hbit, hsame]
  · have hne : m ≠ n := fun h => hword (h ▸ rfl)
    rw [decide_eq_false hne, Bool.or_false]
    cases words[m / w]? with
    | none => rfl
    | some word => simp only [hword, if_false, Option.map_eq_map, Option.map_some]

theorem bitAt_replicate (width n : Nat) : bitAt (List.replicate width 0#w) n = false := by
  unfold bitAt wordAt
  rw [List.getElem?_replicate]
  split <;> exact BitVec.getLsbD_zero

/-- A set bit is in one of the words. -/
theorem div_lt_of_bitAt {words : List (BitVec w)} {n : Nat} (h : bitAt words n = true) :
    n / w < words.length := by
  by_contra hle
  unfold bitAt wordAt at h
  rw [List.getElem?_eq_none (Nat.le_of_not_lt hle), Option.getD_none, BitVec.getLsbD_zero] at h
  nomatch h

/-- The words are the same, up to empty ones, when the sets are. -/
theorem wordAt_eq_iff (hw : 0 < w) {words words' : List (BitVec w)} :
    (∀ i, wordAt words i = wordAt words' i) ↔ ∀ n, bitAt words n = bitAt words' n := by
  constructor
  · intro h n
    unfold bitAt
    rw [h]
  · intro h i
    refine BitVec.eq_of_getLsbD_eq fun offset hoffset => ?_
    have hbit := h (w * i + offset)
    unfold bitAt at hbit
    rw [Nat.mul_add_div hw, Nat.div_eq_of_lt hoffset, Nat.add_zero, Nat.mul_add_mod,
      Nat.mod_eq_of_lt hoffset] at hbit
    exact hbit

/-- The bits of the words, each at its number, come in the order of the numbers. -/
theorem flatMap_range (width : Nat) (p : Nat → Bool) :
    (List.range width).flatMap (fun i => ((List.range w).map (i * w + ·)).filter p) =
      (List.range (width * w)).filter p := by
  induction width with
  | zero =>
    rw [Nat.zero_mul]
    rfl
  | succ width ih =>
    rw [List.range_succ, List.flatMap_append, ih, List.flatMap_singleton, Nat.succ_mul,
      List.range_add, List.filter_append]

/-! ## The lowest set bit -/

/-- What comes before the lowest set bit is clear, and what comes after it is
kept. -/
theorem eq_of_lowest_bit {n i : Nat} (hi : n.testBit i = true)
    (hmin : ∀ j, j < i → n.testBit j = false) : n = 2 ^ (i + 1) * (n / 2 ^ (i + 1)) + 2 ^ i := by
  have hmod : n % 2 ^ (i + 1) = 2 ^ i := by
    refine Nat.eq_of_testBit_eq fun j => ?_
    rw [Nat.testBit_mod_two_pow, Nat.testBit_two_pow]
    rcases Nat.lt_trichotomy j i with hlt | heq | hgt
    · rw [hmin j hlt, Bool.and_false, decide_eq_false (Nat.ne_of_gt hlt)]
    · rw [heq, hi, decide_eq_true (Nat.lt_succ_self i), decide_eq_true rfl]
      rfl
    · rw [decide_eq_false (by omega), Bool.false_and, decide_eq_false (Nat.ne_of_lt hgt)]
  have hdiv := Nat.div_add_mod n (2 ^ (i + 1))
  omega

theorem testBit_and_pred {n i : Nat} (hi : n.testBit i = true)
    (hmin : ∀ j, j < i → n.testBit j = false) (j : Nat) :
    (n &&& (n - 1)).testBit j = (n.testBit j && decide (j ≠ i)) := by
  have hpos := Nat.two_pow_pos i
  have hsucc : 2 ^ (i + 1) = 2 ^ i + 2 ^ i := by
    rw [Nat.pow_succ]
    omega
  have hn := eq_of_lowest_bit hi hmin
  generalize n / 2 ^ (i + 1) = m at hn
  have hpred : n - 1 = 2 ^ (i + 1) * m + (2 ^ i - 1) := by omega
  rw [Nat.testBit_and, hpred, Nat.testBit_two_pow_mul_add _ (by omega),
    Nat.testBit_two_pow_sub_one]
  have hbit : n.testBit j = if j < i + 1 then decide (i = j) else m.testBit (j - (i + 1)) := by
    rw [hn, Nat.testBit_two_pow_mul_add _ (by omega), Nat.testBit_two_pow]
  rw [hbit]
  by_cases hj : j < i + 1
  · rw [if_pos hj, if_pos hj]
    by_cases heq : i = j
    · rw [decide_eq_true heq, decide_eq_false (by omega), decide_eq_false (by omega)]
    · rw [decide_eq_false heq]
      rfl
  · rw [if_neg hj, if_neg hj, decide_eq_true (by omega), Bool.and_self, Bool.and_true]

end Folo.Lib
