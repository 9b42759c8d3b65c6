/-
  File:      DifuzzRtl/Mutator/Immediates.lean
  Subject:   The immediates that a generator writes (`_get_imm` of src/inst_generator.py).

  The value is cut to the bits of a mask, whatever it was: a used immediate of another width, a seed or
  an address of any size and sign. What is left is between zero and the mask, and a multiple of what the
  mask is a multiple of.

  * `land_eq` -- the bits of an integer under a mask are the bits of a natural number under it.
  * `returns_getImm_value` -- `_get_imm` returns a sign and a number of bits of its mask.
  * `immMask_uimm`, `immMask_imm` -- the masks of a width.
  * `returns_getImm_encodable` -- the immediates are aligned and in the range of their width.
-/
import DifuzzRtl.Mutator.Placeholders

namespace Difuzz.Mutator

open Text

/-! ## 1. Bits under a mask -/

/-- Under a mask that is not negative, the other operand is one of the natural numbers. -/
theorem land_eq (m : Nat) (x : Int) : ∃ q : Nat, Int.land m x = (m &&& q : Nat) := by
  cases x with
  | ofNat n => exact ⟨n, rfl⟩
  | negSucc n =>
      refine ⟨m ^^^ (m &&& n), congrArg Int.ofNat (Nat.eq_of_testBit_eq fun i => ?_)⟩
      rw [Nat.testBit_ldiff, Nat.testBit_and, Nat.testBit_xor, Nat.testBit_and]
      cases m.testBit i <;> simp

/-- What the mask is a multiple of, the bits under it are a multiple of. -/
theorem dvd_and {m a : Nat} (h : 2 ^ a ∣ m) (q : Nat) : 2 ^ a ∣ m &&& q := by
  refine Nat.dvd_of_mod_eq_zero ?_
  rw [Nat.and_mod_two_pow, Nat.mod_eq_zero_of_dvd h, Nat.zero_and]

/-- The mask of a width, with zeros below the alignment. -/
theorem dvd_mask (w a : Nat) : 2 ^ a ∣ (2 ^ w - 1) - (2 ^ w - 1) % 2 ^ a := Nat.dvd_sub_mod _

/-! ## 2. The value -/

section Value

variable (g : Generator)

theorem returns_again {α : Type} (used : List α) :
    Returns (Generator.again used) fun b => b = true → used ≠ [] := by
  refine Returns.ite (fun _ => Returns.pure fun h => (nomatch h)) fun h => ?_
  exact returns_percent.bind' fun _ => Returns.pure fun _ => by simpa using h

theorem returns_getInt : Returns Generator.getInt fun _ => True :=
  returns_addressForStoreLoad.bind' fun _ => returns_addressForJump.bind' fun _ =>
    (returns_choice (List.cons_ne_nil _ _)).mono fun _ _ => trivial

theorem returns_immValue (mask : Nat) : Returns (g.immValue mask) fun _ => True := by
  refine returns_percent.bind' fun rand => Returns.ite (fun h => ?_) fun _ => ?_
  · exact (returns_choice h.1).bind' fun imm => Returns.pure trivial
  · refine Returns.ite (fun _ => returns_getInt.bind' fun imm => Returns.pure trivial) fun _ => ?_
    exact (returns_randint (by omega)).bind' fun imm => Returns.pure trivial

/-- **`_get_imm` returns bits of its mask**, behind a sign if the immediate may have one. -/
theorem returns_getImm_value {name : Text} {align mask : Nat} (halign : align &&& (align - 1) = 0)
    (hmask : Generator.immMask name align = .ok mask) :
    Returns (g.getImm name align) fun r => ∃ sign q,
      (sign = [] ∨ (sign = ['-'] ∧ contains "uimm".toList name = false)) ∧
        r.1 = sign ++ digits 10 (mask &&& q) := by
  have hrest : ∀ sign, (sign = [] ∨ (sign = ['-'] ∧ contains "uimm".toList name = false)) → Returns (do
      let mask ← lift (Generator.immMask name align)
      let _ ← percent
      let r ← g.immValue mask
      return (sign ++ intText (Int.land mask r.1), r.2)) fun r : Text × Generator => ∃ sign q,
        (sign = [] ∨ (sign = ['-'] ∧ contains "uimm".toList name = false)) ∧
          r.1 = sign ++ digits 10 (mask &&& q) := by
    intro sign hs
    refine Returns.bind (Returns.logic.lift (P := (· = mask)) hmask rfl) fun mask' hmask' => ?_
    subst hmask'
    refine returns_percent.bind' fun _ => (returns_immValue g mask').bind' fun r => Returns.pure ?_
    obtain ⟨q, hq⟩ := land_eq mask' r.1
    exact ⟨sign, q, hs, by rw [hq]; rfl⟩
  refine Returns.ite (fun hne => absurd halign hne) fun _ => ?_
  refine Returns.ite (fun _ => hrest [] (.inl rfl)) fun hu => ?_
  refine (returns_choice (List.cons_ne_nil _ _)).bind fun sign hsign => hrest sign ?_
  rw [List.mem_cons, List.mem_singleton] at hsign
  exact hsign.imp_right fun h => ⟨h, by simpa using hu⟩

end Value

/-! ## 3. The masks of a width -/

theorem immMask_uimm (n align : Nat) : Generator.immMask ("uimm".toList ++ digits 10 n) align =
    .ok ((2 ^ n - 1) - (2 ^ n - 1) % align) := by
  have hu : contains "uimm".toList ("uimm".toList ++ digits 10 n) = true :=
    contains_iff.mpr (List.prefix_append _ _).isInfix
  have hdrop : ("uimm".toList ++ digits 10 n).drop 4 = digits 10 n := rfl
  have hn : pyInt 10 (digits 10 n) = some (n : Int) := pyInt_intText n
  unfold Generator.immMask
  simp only [hu, if_true, hdrop, hn]
  rw [if_neg (by omega)]
  rfl

theorem not_contains_uimm (n : Nat) : contains "uimm".toList ("imm".toList ++ digits 10 n) = false := by
  have hno : 'u' ∉ "imm".toList ++ digits 10 n := by
    intro h
    rcases List.mem_append.mp h with h | h
    · revert h
      decide
    · exact not_mem_digits (by decide) n h
  by_contra hc
  rw [Bool.not_eq_false] at hc
  exact hno ((contains_iff.mp hc).subset (by decide))

theorem immMask_imm {n : Nat} (h : 1 ≤ n) (align : Nat) :
    Generator.immMask ("imm".toList ++ digits 10 n) align =
      .ok ((2 ^ (n - 1) - 1) - (2 ^ (n - 1) - 1) % align) := by
  have hdrop : ("imm".toList ++ digits 10 n).drop 3 = digits 10 n := rfl
  have hn : pyInt 10 (digits 10 n) = some (n : Int) := pyInt_intText n
  have hwidth : ((n : Int) - 1).toNat = n - 1 := by omega
  unfold Generator.immMask
  simp only [not_contains_uimm, Bool.false_eq_true, if_false, hdrop, hn, hwidth]
  rw [if_neg (by omega)]

theorem isPow_and_pred (a : Nat) : 2 ^ a &&& (2 ^ a - 1) = 0 := by
  rw [Nat.and_two_pow_sub_one_eq_mod, Nat.mod_self]

/-- The bits of an aligned mask. -/
theorem and_mask_bounds (w a q : Nat) : 2 ^ a ∣ ((2 ^ w - 1) - (2 ^ w - 1) % 2 ^ a) &&& q ∧
    ((2 ^ w - 1) - (2 ^ w - 1) % 2 ^ a) &&& q ≤ 2 ^ w - 1 :=
  ⟨dvd_and (dvd_mask w a) q, Nat.and_le_left.trans (Nat.sub_le _ _)⟩

/-- **Immediates are aligned and encodable**, whatever the generator has used before. -/
theorem returns_getImm_encodable (g : Generator) (n a : Nat) :
    Returns (g.getImm ("uimm".toList ++ digits 10 n) (2 ^ a)) (fun r =>
      ∃ i : Int, pyInt 10 r.1 = some i ∧ (2 ^ a : Int) ∣ i ∧ 0 ≤ i ∧ i ≤ 2 ^ n - 1) ∧
    (1 ≤ n → Returns (g.getImm ("imm".toList ++ digits 10 n) (2 ^ a)) fun r =>
      ∃ i : Int, pyInt 10 r.1 = some i ∧ (2 ^ a : Int) ∣ i ∧
        -(2 ^ (n - 1) - 1) ≤ i ∧ i ≤ 2 ^ (n - 1) - 1) := by
  have hcast : ∀ w m : Nat, 2 ^ a ∣ m → m ≤ 2 ^ w - 1 → (2 ^ a : Int) ∣ m ∧ (m : Int) ≤ 2 ^ w - 1 := by
    intro w m hdvd hle
    have hpos : 1 ≤ 2 ^ w := Nat.one_le_two_pow
    have hle' : m + 1 ≤ 2 ^ w := by omega
    refine ⟨by exact_mod_cast hdvd, ?_⟩
    have hint : (m : Int) + 1 ≤ 2 ^ w := by exact_mod_cast hle'
    omega
  constructor
  · refine (returns_getImm_value g (isPow_and_pred a) (immMask_uimm n _)).mono fun r hr => ?_
    obtain ⟨sign, q, hsign, hval⟩ := hr
    obtain ⟨hdvd, hle⟩ := and_mask_bounds n a q
    obtain ⟨hdvd', hle'⟩ := hcast n _ hdvd hle
    have hplus : sign = [] := by
      rcases hsign with h | ⟨-, h⟩
      · exact h
      · rw [contains_iff.mpr (List.prefix_append _ _).isInfix] at h
        cases h
    rw [hval, hplus]
    exact ⟨_, pyInt_intText _, hdvd', Int.natCast_nonneg _, hle'⟩
  · intro hn
    refine (returns_getImm_value g (isPow_and_pred a) (immMask_imm hn _)).mono fun r hr => ?_
    obtain ⟨sign, q, hsign, hval⟩ := hr
    obtain ⟨hdvd, hle⟩ := and_mask_bounds (n - 1) a q
    obtain ⟨hdvd', hle'⟩ := hcast (n - 1) _ hdvd hle
    rw [hval]
    rcases hsign with rfl | ⟨rfl, -⟩
    · exact ⟨_, pyInt_intText _, hdvd', by omega, hle'⟩
    · exact ⟨_, pyInt_neg_digits _, Int.dvd_neg.mpr hdvd', by omega, by omega⟩

/-- A generator that has used immediates of 71 bits and negative ones. -/
def wideGenerator : Generator where
  kind := .randomInst
  usedImms := [2 ^ 70 + 5, -3, -(2 ^ 66), 0x80000004]

theorem returns_getImm_imm6 :
    Returns (wideGenerator.getImm ("uimm".toList ++ digits 10 6) (2 ^ 3)) (fun r =>
      ∃ i : Int, pyInt 10 r.1 = some i ∧ (2 ^ 3 : Int) ∣ i ∧ 0 ≤ i ∧ i ≤ 2 ^ 6 - 1) ∧
    Returns (wideGenerator.getImm ("imm".toList ++ digits 10 6) (2 ^ 3)) fun r =>
      ∃ i : Int, pyInt 10 r.1 = some i ∧ (2 ^ 3 : Int) ∣ i ∧
        -(2 ^ (6 - 1) - 1) ≤ i ∧ i ≤ 2 ^ (6 - 1) - 1 :=
  ⟨(returns_getImm_encodable wideGenerator 6 3).1,
    (returns_getImm_encodable wideGenerator 6 3).2 (by decide)⟩

end Difuzz.Mutator
