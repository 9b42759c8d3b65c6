/-
  File:      DifuzzRtl/Lib/Lanes.lean
  Subject:   A row of adjacent bytes of a word, as a number of fixed width.

  * `lanesMask` -- the mask of `k` bytes from byte `o` on.
  * `lanes` -- the bytes themselves, as a bit vector of `8 * k` bits.
  * `lanes_merge`, `testBit_merge_outside` -- what merging does inside and outside of the row.
  * `lanes_of_shifted` -- an integer that is shifted to the row and cut to the word has its
    residue there, whatever its sign.
  * `shift_and_eq_iff` -- when a word survives being shifted down.
-/
import DifuzzRtl.Lib.Words
import Mathlib.Tactic.Positivity

namespace Difuzz

/-! ## 1. The mask of a row -/

/-- One bit for each of the `k` bytes from byte `o` on. -/
def lanesMask (o k : Nat) : Nat := (2 ^ k - 1) * 2 ^ o

theorem testBit_lanesMask (o k i : Nat) :
    (lanesMask o k).testBit i = decide (o ≤ i ∧ i < o + k) := by
  unfold lanesMask
  rw [Nat.mul_comm, Nat.testBit_two_pow_mul, Nat.testBit_two_pow_sub_one, Bool.eq_iff_iff]
  simp only [Bool.and_eq_true, decide_eq_true_eq]
  omega

theorem lanesMask_ne_zero {o k : Nat} (hk : 0 < k) : lanesMask o k ≠ 0 := by
  have hpow : 2 ^ 1 ≤ 2 ^ k := Nat.pow_le_pow_right (by decide) hk
  exact Nat.mul_ne_zero (by omega) (Nat.two_pow_pos o).ne'

/-- The bits of a mask that selects the bytes of a row. -/
theorem testBit_of_lanesMask {o k m : Nat} (hm : ByteMask (lanesMask o k) m) (i : Nat) :
    m.testBit i = decide (8 * o ≤ i ∧ i < 8 * (o + k)) := by
  rw [hm, testBit_lanesMask, decide_eq_decide]
  omega

/-! ## 2. The row -/

/-- The `k` bytes of a word from byte `o` on. -/
def lanes (o k word : Nat) : BitVec (8 * k) := BitVec.ofNat (8 * k) (word >>> (8 * o))

theorem getLsbD_lanes (o k word i : Nat) :
    (lanes o k word).getLsbD i = (decide (i < 8 * k) && word.testBit (8 * o + i)) := by
  unfold lanes
  rw [BitVec.getLsbD_ofNat, Nat.testBit_shiftRight]

/-- The masked word, shifted down, is the row. -/
theorem toNat_lanes {o k m : Nat} (hm : ByteMask (lanesMask o k) m) (word : Nat) :
    (word &&& m) >>> (8 * o) = (lanes o k word).toNat := by
  refine Nat.eq_of_testBit_eq fun i => ?_
  rw [BitVec.testBit_toNat, getLsbD_lanes, Nat.testBit_shiftRight, Nat.testBit_and,
    testBit_of_lanesMask hm, Bool.and_comm]
  congr 1
  rw [decide_eq_decide]
  omega

/-- **Inside of the row** a merged word has the new bytes. -/
theorem lanes_merge {o k m : Nat} (hm : ByteMask (lanesMask o k) m) (x y : Nat) :
    lanes o k (merge x y m) = lanes o k y := by
  refine BitVec.eq_of_getLsbD_eq fun i hi => ?_
  have hin : m.testBit (8 * o + i) = true := by
    rw [testBit_of_lanesMask hm, decide_eq_true_eq]
    omega
  rw [getLsbD_lanes, getLsbD_lanes, testBit_merge, if_pos hin]

/-- **Outside of the row** it has the old bits. -/
theorem testBit_merge_outside {o k m : Nat} (hm : ByteMask (lanesMask o k) m) (x y : Nat) {i : Nat}
    (hi : ¬ (8 * o ≤ i ∧ i < 8 * (o + k))) : (merge x y m).testBit i = x.testBit i := by
  have hout : m.testBit i = false := by
    rw [testBit_of_lanesMask hm, decide_eq_false_iff_not]
    exact hi
  rw [testBit_merge, hout]
  rfl

/-- **An integer shifted to the row**: cut to a word of `n` bytes, it has its residue in the
    row. -/
theorem lanes_of_shifted {o k n : Nat} (h : o + k ≤ n) (r : Int) :
    lanes o k (r * 2 ^ (8 * o) % (2 ^ (8 * n) : Nat)).toNat = BitVec.ofInt (8 * k) r := by
  have hsplit : 8 * n = 8 * o + 8 * (n - o) := by omega
  have hpos : (0 : Int) < 2 ^ (8 * o) := by positivity
  have hres : ∀ j : Nat, 0 ≤ r % 2 ^ j := fun j => Int.emod_nonneg _ (by positivity)
  -- the shift and the cut commute
  have hcut : r * 2 ^ (8 * o) % (2 ^ (8 * n) : Nat) =
      2 ^ (8 * o) * (r % 2 ^ (8 * (n - o))) := by
    rw [hsplit, pow_add]
    push_cast
    rw [mul_comm r, Int.mul_emod_mul_of_pos _ _ hpos]
  have hnat : (r * 2 ^ (8 * o) % (2 ^ (8 * n) : Nat)).toNat =
      2 ^ (8 * o) * (r % 2 ^ (8 * (n - o))).toNat := by
    rw [hcut, Int.toNat_mul hpos.le (hres _)]
    congr 1
  have hdvd : (2 ^ (8 * k) : Int) ∣ 2 ^ (8 * (n - o)) := pow_dvd_pow 2 (by omega)
  refine BitVec.eq_of_toNat_eq ?_
  unfold lanes
  rw [BitVec.toNat_ofNat, BitVec.toNat_ofInt, hnat, Nat.shiftRight_eq_div_pow,
    Nat.mul_div_cancel_left _ (Nat.two_pow_pos _)]
  refine Int.natCast_inj.mp ?_
  push_cast
  rw [Int.toNat_of_nonneg (hres _), Int.toNat_of_nonneg (hres _), Int.emod_emod_of_dvd _ hdvd]

/-! ## 3. Shifting down -/

/-- Shifting a word down and masking it gives the word back only when nothing is shifted, or there
    is nothing to shift. -/
theorem shift_and_eq_iff {v m n : Nat} (hv : v &&& m = v) :
    v >>> n &&& m = v ↔ n = 0 ∨ v = 0 := by
  constructor
  · intro h
    rcases Nat.eq_zero_or_pos n with hn | hn
    · exact .inl hn
    · right
      by_contra hne
      have hle : v ≤ v >>> n := h.symm.le.trans Nat.and_le_left
      have hlt : v >>> n < v := by
        rw [Nat.shiftRight_eq_div_pow]
        exact Nat.div_lt_self (Nat.pos_of_ne_zero hne) (Nat.one_lt_two_pow hn.ne')
      omega
  · intro hx
    rcases hx with rfl | rfl
    · rw [Nat.shiftRight_zero, hv]
    · rw [Nat.zero_shiftRight, Nat.zero_and]

end Difuzz
