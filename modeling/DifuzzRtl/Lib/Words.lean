/-
  File:      DifuzzRtl/Lib/Words.lean
  Subject:   Words of bytes as numbers.

  * `byteAt` -- byte `j` of a word, least significant first.
  * `merge` -- a word with the bits of a mask taken from another word; `byteAt_merge` says what
    this does to the bytes when the mask consists of whole bytes.
  * `ldiff_low` -- clearing the low bits of an address rounds it down.
-/
import Mathlib.Data.Nat.Bitwise
import Mathlib.Tactic.Ring

namespace Difuzz

/-- Byte `j` of a word. -/
def byteAt (x j : Nat) : Nat := x >>> (8 * j) % 2 ^ 8

theorem testBit_byteAt (x j i : Nat) :
    (byteAt x j).testBit i = (decide (i < 8) && x.testBit (8 * j + i)) := by
  unfold byteAt
  rw [Nat.testBit_mod_two_pow, Nat.testBit_shiftRight]

@[simp] theorem byteAt_zero (j : Nat) : byteAt 0 j = 0 := by
  unfold byteAt
  rw [Nat.zero_shiftRight]
  rfl

/-- The word `x` with the bits of `m` taken from `y`. -/
def merge (x y m : Nat) : Nat := Nat.ldiff x m ||| (y &&& m)

theorem testBit_merge (x y m i : Nat) :
    (merge x y m).testBit i = if m.testBit i then y.testBit i else x.testBit i := by
  unfold merge
  rw [Nat.testBit_or, Nat.testBit_ldiff, Nat.testBit_and]
  cases m.testBit i <;> simp

/-- The mask `m` consists of whole bytes, one for each bit of `lanes`. -/
def ByteMask (lanes m : Nat) : Prop := ∀ i, m.testBit i = lanes.testBit (i / 8)

/-- **Merging by bytes**: the selected bytes are replaced, the others stay. -/
theorem byteAt_merge {lanes m : Nat} (h : ByteMask lanes m) (x y j : Nat) :
    byteAt (merge x y m) j = if lanes.testBit j then byteAt y j else byteAt x j := by
  refine Nat.eq_of_testBit_eq fun i => ?_
  rw [testBit_byteAt, testBit_merge, h]
  by_cases hi : i < 8
  · have hj : (8 * j + i) / 8 = j := by omega
    rw [hj]
    cases lanes.testBit j <;> simp [testBit_byteAt]
  · cases lanes.testBit j <;> simp [testBit_byteAt, hi]

/-- Merging stays within a width. -/
theorem merge_lt {x y m n : Nat} (hx : x < 2 ^ n) (hy : y < 2 ^ n) : merge x y m < 2 ^ n := by
  refine Nat.lt_pow_two_of_testBit _ fun i hi => ?_
  rw [testBit_merge, Nat.testBit_lt_two_pow (Nat.lt_of_lt_of_le hx (Nat.pow_le_pow_right (by decide) hi)),
    Nat.testBit_lt_two_pow (Nat.lt_of_lt_of_le hy (Nat.pow_le_pow_right (by decide) hi))]
  exact ite_self _

/-- Clearing the `k` low bits rounds down to a multiple of `2 ^ k`. -/
theorem ldiff_low (a k : Nat) : Nat.ldiff a (2 ^ k - 1) = a / 2 ^ k * 2 ^ k := by
  refine Nat.eq_of_testBit_eq fun i => ?_
  rw [Nat.testBit_ldiff, Nat.testBit_two_pow_sub_one, Nat.mul_comm, Nat.testBit_two_pow_mul,
    Nat.testBit_div_two_pow]
  by_cases hi : i < k
  · have hk : ¬ k ≤ i := by omega
    simp [hi, hk]
  · have hk : k ≤ i := by omega
    have hs : i - k + k = i := by omega
    simp [hi, hk, hs]

end Difuzz
