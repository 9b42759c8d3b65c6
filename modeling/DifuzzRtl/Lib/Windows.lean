/-
  File:      DifuzzRtl/Lib/Windows.lean
  Subject:   Positions cut into windows of one size; the last window takes what is left over.

  * `windowMask` -- the `j`th of the `n / w` windows of size `w` over `n` positions, as a mask.
  * `windowMask_true_iff` -- the positions in a window.
  * `existsUnique_window` -- every position is in exactly one of them.
  * `count_windowMask` -- their sizes.
-/
import Mathlib.Data.List.Basic
import Mathlib.Tactic.Common

namespace Difuzz

/-- The `j`th window. -/
def windowMask (n w j : Nat) : List Bool :=
  List.replicate (w * j) false ++
    if j + 1 = n / w then List.replicate (w + n % w) true
    else List.replicate w true ++ List.replicate (n - w * (j + 1)) false

section Window

variable {n w j k : Nat}

/-- The windows before the end of one fill no more than there is. -/
theorem window_end_le (hj : j < n / w) : w * (j + 1) ≤ n :=
  Nat.le_trans (Nat.mul_le_mul_left w hj) (Nat.mul_div_le n w)

/-- The last window ends where the positions do. -/
theorem window_last (hj : j + 1 = n / w) : w * j + (w + n % w) = n := by
  have hsplit := Nat.div_add_mod n w
  rw [← hj, Nat.mul_add, Nat.mul_one] at hsplit
  omega

theorem length_windowMask (hj : j < n / w) : (windowMask n w j).length = n := by
  have hend := window_end_le hj
  rw [Nat.mul_add, Nat.mul_one] at hend
  unfold windowMask
  split
  · rename_i hlast
    rw [List.length_append, List.length_replicate, List.length_replicate]
    exact window_last hlast
  · rw [List.length_append, List.length_append, List.length_replicate, List.length_replicate,
      List.length_replicate, Nat.mul_add, Nat.mul_one]
    omega

/-- **The positions in a window**: those from its start on, up to the next one if there is one. -/
theorem windowMask_true_iff (hj : j < n / w) : (windowMask n w j)[k]? = some true ↔
    k < n ∧ w * j ≤ k ∧ (k < w * (j + 1) ∨ j + 1 = n / w) := by
  have hend := window_end_le hj
  rw [Nat.mul_add, Nat.mul_one] at hend ⊢
  unfold windowMask
  by_cases hk : k < w * j
  · -- before the window
    rw [List.getElem?_append_left (by rwa [List.length_replicate]), List.getElem?_replicate, if_pos hk]
    simp only [Option.some.injEq, Bool.false_eq_true, false_iff]
    omega
  · rw [List.getElem?_append_right (by rw [List.length_replicate]; omega), List.length_replicate]
    split
    · rename_i hlast
      have hall := window_last hlast
      rw [List.getElem?_replicate]
      split
      · simp only [true_iff]
        exact ⟨by omega, by omega, .inr hlast⟩
      · simp only [reduceCtorEq, false_iff]
        omega
    · rename_i hlast
      by_cases hw : k - w * j < w
      · rw [List.getElem?_append_left (by rwa [List.length_replicate]), List.getElem?_replicate, if_pos hw]
        simp only [true_iff]
        exact ⟨by omega, by omega, .inl (by omega)⟩
      · rw [List.getElem?_append_right (by rw [List.length_replicate]; omega), List.getElem?_replicate]
        split
        · simp only [Option.some.injEq, Bool.false_eq_true, false_iff]
          omega
        · simp only [reduceCtorEq, false_iff]
          omega

/-- **The windows cut the positions**: each position is in exactly one window. -/
theorem existsUnique_window (hw : 0 < w) (hn : w ≤ n) (hk : k < n) :
    ∃! j, j < n / w ∧ (windowMask n w j)[k]? = some true := by
  have htests : 0 < n / w := Nat.div_pos hn hw
  have hfloor : w * (k / w) ≤ k := Nat.mul_div_le k w
  have hnext : k < w * (k / w + 1) := by
    rw [Nat.mul_comm]
    exact Nat.lt_mul_of_div_lt (Nat.lt_succ_self _) hw
  refine ⟨min (k / w) (n / w - 1), ⟨by omega, (windowMask_true_iff (by omega)).mpr ⟨hk, ?_, ?_⟩⟩,
    fun i hi => ?_⟩
  · exact Nat.le_trans (Nat.mul_le_mul_left w (Nat.min_le_left _ _)) hfloor
  · by_cases hlast : k / w < n / w - 1
    · rw [Nat.min_eq_left (by omega)]
      exact .inl hnext
    · exact .inr (by omega)
  · obtain ⟨hit, hmask⟩ := hi
    obtain ⟨_, hstart, hstop⟩ := (windowMask_true_iff hit).mp hmask
    have hle : i ≤ k / w := (Nat.le_div_iff_mul_le hw).mpr (by rwa [Nat.mul_comm])
    rcases hstop with hstop | hstop
    · have hge : k / w < i + 1 := Nat.div_lt_of_lt_mul hstop
      omega
    · omega

/-- **The sizes**: `w`, and with the rest for the last one. -/
theorem count_windowMask : (windowMask n w j).count true = if j + 1 = n / w then w + n % w else w := by
  unfold windowMask
  split <;> simp [List.count_replicate]

end Window

end Difuzz
