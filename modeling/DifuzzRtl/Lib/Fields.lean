/-
  File:      DifuzzRtl/Lib/Fields.lean
  Subject:   Words made of fields that lie side by side.

  A field of width `w` and value `x < 2^w` sits in a word at an offset `o` as `x * 2^o`. A word of
  several fields is the XOR of these, and it gives the fields back when they do not overlap.

  * `Tiles` -- the slots of a list follow each other without gap, from `a` up to `b`.
  * `Tiles.slot`, `Tiles.covers` -- so every slot lies within these bounds, and every bit between
    them is in exactly one slot.
  * `word` -- the XOR of the fields; `word_inj`: it determines the fields.
-/
import Mathlib.Data.Nat.Bitwise

namespace Difuzz

/-! ## 1. Slots -/

section Tiles

variable {ι : Type} (width : ι → Nat)

/-- The slots follow each other from `a` to `b`. -/
def Tiles : Nat → List (ι × Nat) → Nat → Prop
  | a, [], b => a = b
  | a, t :: l, b => t.2 = a ∧ Tiles (a + width t.1) l b

/-- The slot of `t` has the bit `k`. -/
def inSlot (k : Nat) (t : ι × Nat) : Bool := decide (t.2 ≤ k ∧ k < t.2 + width t.1)

variable {width}

theorem Tiles.le {a b : Nat} {l : List (ι × Nat)} (h : Tiles width a l b) : a ≤ b := by
  induction l generalizing a with
  | nil => exact Nat.le_of_eq h
  | cons t l ih => exact Nat.le_trans (Nat.le_add_right _ _) (ih h.2)

theorem Tiles.slot {a b : Nat} {l : List (ι × Nat)} (h : Tiles width a l b) :
    ∀ t ∈ l, a ≤ t.2 ∧ t.2 + width t.1 ≤ b := by
  induction l generalizing a with
  | nil => simp
  | cons t l ih =>
      intro u hu
      rcases List.mem_cons.mp hu with rfl | hu
      · rw [h.1]
        exact ⟨Nat.le_refl _, h.2.le⟩
      · have := ih h.2 u hu
        exact ⟨by omega, this.2⟩

theorem inSlot_below {a b k : Nat} {l : List (ι × Nat)} (h : Tiles width a l b) (hk : k < a) :
    l.countP (inSlot width k) = 0 := by
  refine List.countP_eq_zero.mpr fun t ht => ?_
  have := (h.slot t ht).1
  simp only [inSlot, decide_eq_true_eq]
  omega

/-- **Every bit is in exactly one slot.** -/
theorem Tiles.covers {a b : Nat} {l : List (ι × Nat)} (h : Tiles width a l b) {k : Nat}
    (ha : a ≤ k) (hb : k < b) : l.countP (inSlot width k) = 1 := by
  induction l generalizing a with
  | nil =>
      have : a = b := h
      omega
  | cons t l ih =>
      rw [List.countP_cons]
      by_cases hk : k < a + width t.1
      · -- the bit is in the first slot, and below all others
        have ht : inSlot width k t = true := by
          simp only [inSlot, h.1, decide_eq_true_eq]
          exact ⟨ha, hk⟩
        rw [inSlot_below h.2 hk, if_pos ht]
      · have ht : ¬ inSlot width k t = true := by
          simp only [inSlot, h.1, decide_eq_true_eq]
          omega
        rw [if_neg ht, ih h.2 (by omega)]

/-! ## 2. Words -/

/-- The XOR of a list of numbers. -/
def xorAll (l : List Nat) : Nat := l.foldr (· ^^^ ·) 0

@[simp] theorem xorAll_nil : xorAll [] = 0 := rfl

@[simp] theorem xorAll_cons (x : Nat) (l : List Nat) : xorAll (x :: l) = x ^^^ xorAll l := rfl

theorem xorAll_append (l l' : List Nat) : xorAll (l ++ l') = xorAll l ^^^ xorAll l' := by
  induction l with
  | nil => simp
  | cons x l ih => rw [List.cons_append, xorAll_cons, ih, xorAll_cons, Nat.xor_assoc]

/-- The word of the fields `x` at their offsets. -/
def word (x : ι → Nat) (l : List (ι × Nat)) : Nat := xorAll (l.map fun t => x t.1 * 2 ^ t.2)

/-- A field in its slot. -/
theorem field_lt {x w o n : Nat} (hx : x < 2 ^ w) (h : o + w ≤ n) : x * 2 ^ o < 2 ^ n :=
  calc x * 2 ^ o < 2 ^ w * 2 ^ o := Nat.mul_lt_mul_of_pos_right hx (Nat.two_pow_pos o)
    _ = 2 ^ (o + w) := by rw [Nat.mul_comm, ← Nat.pow_add]
    _ ≤ 2 ^ n := Nat.pow_le_pow_right (by decide) h

/-- The bits below the first slot are clear. -/
theorem word_mod {x : ι → Nat} {a b : Nat} {l : List (ι × Nat)} (h : Tiles width a l b) :
    word x l % 2 ^ a = 0 := by
  have hall : ∀ y ∈ l.map fun t => x t.1 * 2 ^ t.2, y % 2 ^ a = 0 := by
    intro y hy
    obtain ⟨t, ht, rfl⟩ := List.mem_map.mp hy
    exact Nat.mod_eq_zero_of_dvd
      (Nat.dvd_trans (Nat.pow_dvd_pow 2 (h.slot t ht).1) (Nat.dvd_mul_left _ _))
  unfold word
  generalize l.map (fun t => x t.1 * 2 ^ t.2) = ys at hall
  clear h
  induction ys with
  | nil => exact Nat.zero_mod _
  | cons y ys ih =>
      rw [xorAll_cons, Nat.xor_mod_two_pow, hall y List.mem_cons_self,
        ih fun z hz => hall z (List.mem_cons_of_mem _ hz)]
      rfl

/-- **A word determines its fields.** -/
theorem word_inj {x y : ι → Nat} {a b : Nat} {l : List (ι × Nat)} (h : Tiles width a l b)
    (hx : ∀ t ∈ l, x t.1 < 2 ^ width t.1) (hy : ∀ t ∈ l, y t.1 < 2 ^ width t.1)
    (he : word x l = word y l) : ∀ t ∈ l, x t.1 = y t.1 := by
  induction l generalizing a with
  | nil => simp
  | cons t l ih =>
      -- the lowest bits of the word are the first field, the rest are clear there
      have low : ∀ {z : ι → Nat}, z t.1 < 2 ^ width t.1 →
          word z (t :: l) % 2 ^ (a + width t.1) = z t.1 * 2 ^ a := by
        intro z hz
        show (z t.1 * 2 ^ t.2 ^^^ word z l) % _ = _
        rw [Nat.xor_mod_two_pow, word_mod h.2, Nat.xor_zero, h.1]
        exact Nat.mod_eq_of_lt (field_lt hz (Nat.le_refl _))
      have hfirst : x t.1 = y t.1 := by
        refine Nat.eq_of_mul_eq_mul_right (Nat.two_pow_pos a) ?_
        rw [← low (hx t List.mem_cons_self), ← low (hy t List.mem_cons_self), he]
      have hrest : word x l = word y l := by
        have he : x t.1 * 2 ^ t.2 ^^^ word x l = y t.1 * 2 ^ t.2 ^^^ word y l := he
        rw [hfirst] at he
        exact Nat.xor_right_inj.mp he
      intro u hu
      rcases List.mem_cons.mp hu with rfl | hu
      · exact hfirst
      · exact ih h.2 (fun s hs => hx s (List.mem_cons_of_mem _ hs))
          (fun s hs => hy s (List.mem_cons_of_mem _ hs)) hrest u hu

end Tiles

end Difuzz
