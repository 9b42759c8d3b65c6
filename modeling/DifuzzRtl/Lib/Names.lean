/-
  File:      DifuzzRtl/Lib/Names.lean
  Subject:   Telling generated names apart by how they end.

  A program that makes names by appending fixed texts and numbers to other names makes families
  of names. Names of different families differ when the families end differently.

  * `ofDigitChars_inj` -- numbers in names: as many digits and the same value are the same digits.
  * `nameKey` -- the last three characters of a name, trailing digits left out.
  * `Family` -- names without repetition that have one key.
  * `nodup_flatten_of_keys` -- families of distinct keys, each without repetition, together have
    no repetition.
  * `treeIds` -- the heap numbers of the inner vertices of a balanced binary tree: the children of
    `id` are `2 * id + 1` and `2 * id + 2`. `treeIds_nodup`: no number comes up twice.
-/
import Mathlib.Data.List.Nodup
import Mathlib.Tactic.Linarith
import Mathlib.Tactic.Ring

namespace Difuzz

/-! ## 1. Numbers -/

theorem isDigit_bounds {c : Char} (h : c.isDigit = true) : 48 ≤ c.toNat ∧ c.toNat ≤ 57 := by
  simp only [Char.isDigit, Bool.and_eq_true, decide_eq_true_eq] at h
  exact ⟨h.1, h.2⟩

theorem ofDigitChars_cons_zero (c : Char) (cs : List Char) : Nat.ofDigitChars 10 (c :: cs) 0 =
    10 ^ cs.length * (c.toNat - 48) + Nat.ofDigitChars 10 cs 0 := by
  rw [Nat.ofDigitChars_cons, Nat.ofDigitChars_eq_ofDigitChars_zero, Nat.mul_zero, Nat.zero_add]
  rfl

/-- The value of a text of decimal digits. -/
theorem ofDigitChars_lt {cs : List Char} (h : ∀ c ∈ cs, c.isDigit = true) :
    Nat.ofDigitChars 10 cs 0 < 10 ^ cs.length := by
  induction cs with
  | nil => simp
  | cons c cs ih =>
      have hc : c.toNat - 48 ≤ 9 := by
        have := isDigit_bounds (h c List.mem_cons_self)
        omega
      have ih := ih fun x hx => h x (List.mem_cons_of_mem _ hx)
      rw [ofDigitChars_cons_zero, List.length_cons, Nat.pow_succ]
      have := Nat.mul_le_mul_left (10 ^ cs.length) hc
      omega

/-- **Two texts of as many digits and one value are the same.** -/
theorem ofDigitChars_inj {cs ds : List Char} (hc : ∀ c ∈ cs, c.isDigit = true)
    (hd : ∀ d ∈ ds, d.isDigit = true) (hlen : cs.length = ds.length)
    (h : Nat.ofDigitChars 10 cs 0 = Nat.ofDigitChars 10 ds 0) : cs = ds := by
  induction cs generalizing ds with
  | nil => exact (List.length_eq_zero_iff.mp hlen.symm).symm
  | cons c cs ih =>
      cases ds with
      | nil => cases hlen
      | cons d ds =>
          have hlen : cs.length = ds.length := by simpa using hlen
          have hc' := fun x hx => hc x (List.mem_cons_of_mem _ hx)
          have hd' := fun x hx => hd x (List.mem_cons_of_mem _ hx)
          have hlt := ofDigitChars_lt hc'
          have hlt' := ofDigitChars_lt hd'
          rw [ofDigitChars_cons_zero, ofDigitChars_cons_zero, hlen] at h
          rw [hlen] at hlt
          -- the leading digit is the quotient, the rest the remainder
          have hdiv : c.toNat - 48 = d.toNat - 48 := by
            have := congrArg (· / 10 ^ ds.length) h
            simpa [Nat.mul_add_div (Nat.pow_pos (by decide : 0 < 10)), Nat.div_eq_of_lt hlt,
              Nat.div_eq_of_lt hlt'] using this
          have hrest : Nat.ofDigitChars 10 cs 0 = Nat.ofDigitChars 10 ds 0 := by
            rw [hdiv] at h
            exact Nat.add_left_cancel h
          have hchar : c = d := by
            have h₁ := isDigit_bounds (hc c List.mem_cons_self)
            have h₂ := isDigit_bounds (hd d List.mem_cons_self)
            exact Char.toNat_inj.mp (by omega)
          rw [hchar, ih hc' hd' hlen hrest]

/-! ## 2. Endings -/

def nameKey (s : String) : List Char := (s.toList.reverse.dropWhile Char.isDigit).take 3

/-- A long enough text appended decides the key. -/
theorem nameKey_append (a : String) {b : String}
    (h : 3 ≤ (b.toList.reverse.dropWhile Char.isDigit).length) : nameKey (a ++ b) = nameKey b := by
  unfold nameKey
  rw [String.toList_append, List.reverse_append, List.dropWhile_append]
  have hne : (b.toList.reverse.dropWhile Char.isDigit).isEmpty = false := by
    cases hl : b.toList.reverse.dropWhile Char.isDigit with
    | nil =>
        rw [hl] at h
        simp at h
    | cons => rfl
  rw [hne]
  exact List.take_append_of_le_length h

/-- A number appended does not change the key. -/
theorem nameKey_toString (a : String) (k : Nat) : nameKey (a ++ toString k) = nameKey a := by
  have hdigits : ∀ c ∈ (toString k).toList.reverse, c.isDigit = true := by
    intro c hc
    rw [List.mem_reverse, Nat.toString_eq_repr, Nat.toList_repr] at hc
    exact Nat.isDigit_of_mem_toDigits (by decide) (by decide) hc
  unfold nameKey
  rw [String.toList_append, List.reverse_append, List.dropWhile_append_of_pos hdigits]

theorem toString_inj {j k : Nat} (h : toString j = toString k) : j = k := by
  have hl := congrArg (fun s => Nat.ofDigitChars 10 s.toList 0) h
  simpa [Nat.ofDigitChars_toDigits] using hl

/-- Names of one stem and different numbers. -/
theorem nodup_numbered (stem : String) {ks : List Nat} (h : ks.Nodup) :
    (ks.map fun k => stem ++ toString k).Nodup := by
  refine h.map_on fun j _ k _ e => ?_
  exact toString_inj ((String.append_right_inj stem).mp e)

/-- Names with one text appended. -/
theorem nodup_suffixed (suffix : String) {ns : List String} (h : ns.Nodup) :
    (ns.map fun n => n ++ suffix).Nodup :=
  h.map_on fun _ _ _ _ e => (String.append_left_inj suffix).mp e

/-- A family of names that end alike. -/
def Family (key : List Char) (names : List String) : Prop :=
  names.Nodup ∧ ∀ n ∈ names, nameKey n = key

theorem family_suffixed {suffix : String}
    (hs : 3 ≤ (suffix.toList.reverse.dropWhile Char.isDigit).length) {ns : List String}
    (h : ns.Nodup) : Family (nameKey suffix) (ns.map fun n => n ++ suffix) := by
  refine ⟨nodup_suffixed suffix h, fun n hn => ?_⟩
  obtain ⟨a, _, rfl⟩ := List.mem_map.mp hn
  exact nameKey_append a hs

theorem family_numbered {stem : String} {key : List Char} (hs : nameKey stem = key) {ks : List Nat}
    (h : ks.Nodup) : Family key (ks.map fun k => stem ++ toString k) := by
  refine ⟨nodup_numbered stem h, fun n hn => ?_⟩
  obtain ⟨k, _, rfl⟩ := List.mem_map.mp hn
  rw [nameKey_toString, hs]

theorem family_single {n : String} {key : List Char} (h : nameKey n = key) : Family key [n] := by
  refine ⟨List.nodup_singleton n, fun n' hn => ?_⟩
  rw [List.mem_singleton.mp hn, h]

/-- **Families of distinct keys**: names of different families differ. -/
theorem nodup_flatten_of_keys {keys : List (List Char)} {families : List (List String)}
    (h : List.Forall₂ Family keys families)
    (hk : keys.Nodup) : families.flatten.Nodup := by
  -- a name of a family has one of the keys
  have hmem : ∀ {ks : List (List Char)} {fs : List (List String)},
      List.Forall₂ Family ks fs →
      ∀ n ∈ fs.flatten, nameKey n ∈ ks := by
    intro ks fs hf
    induction hf with
    | nil => exact fun n hn => absurd hn List.not_mem_nil
    | cons hl _ ih =>
        intro n hn
        rcases List.mem_append.mp hn with hn | hn
        · rw [hl.2 n hn]
          exact List.mem_cons_self
        · exact List.mem_cons_of_mem _ (ih n hn)
  induction h with
  | nil => exact List.nodup_nil
  | cons hl hf ih =>
      obtain ⟨hnot, hk⟩ := List.nodup_cons.mp hk
      refine List.nodup_append.mpr ⟨hl.1, ih hk, fun n hn n' hn' e => ?_⟩
      subst e
      refine hnot ?_
      rw [← hl.2 n hn]
      exact hmem hf n hn'

/-! ## 3. Heap numbers -/

/-- The heap numbers of the inner vertices of the tree over `n` leaves whose root is `id`. The
    fuel only has to reach the number of leaves. -/
def treeIds : Nat → Nat → Nat → List Nat
  | 0, _, _ => []
  | fuel + 1, n, id =>
      if n ≤ 1 then []
      else if n = 2 then [id]
      else treeIds fuel (n / 2) (2 * id + 1) ++ treeIds fuel (n - n / 2) (2 * id + 2) ++ [id]

/-- `k` is at or below `id`: it is reached by `d` steps down, the steps read as the number `r`. -/
def HeapBelow (id k : Nat) : Prop := ∃ d r, r < 2 ^ d ∧ k + 1 = (id + 1) * 2 ^ d + r

theorem HeapBelow.self (id : Nat) : HeapBelow id id := ⟨0, 0, by decide, by omega⟩

theorem HeapBelow.left {id k : Nat} (h : HeapBelow (2 * id + 1) k) : HeapBelow id k := by
  obtain ⟨d, r, hr, hk⟩ := h
  refine ⟨d + 1, r, by rw [pow_succ]; omega, ?_⟩
  rw [hk, pow_succ]
  ring

theorem HeapBelow.right {id k : Nat} (h : HeapBelow (2 * id + 2) k) : HeapBelow id k := by
  obtain ⟨d, r, hr, hk⟩ := h
  refine ⟨d + 1, 2 ^ d + r, by rw [pow_succ]; omega, ?_⟩
  rw [hk, pow_succ]
  ring

/-- The two halves below a vertex have no number in common. -/
theorem heapBelow_disjoint {id k : Nat} (hl : HeapBelow (2 * id + 1) k)
    (hr : HeapBelow (2 * id + 2) k) : False := by
  obtain ⟨d, r, hrd, hd⟩ := hl
  obtain ⟨e, s, hse, he⟩ := hr
  rw [hd] at he
  have hd0 : 0 < 2 ^ d := Nat.two_pow_pos d
  have he0 : 0 < 2 ^ e := Nat.two_pow_pos e
  rcases Nat.lt_trichotomy d e with h | h | h
  · -- the right number is too large
    have hpow : 2 * 2 ^ d ≤ 2 ^ e := by
      rw [← pow_succ']
      exact Nat.pow_le_pow_right (by decide) h
    have hmul := Nat.mul_le_mul_left (2 * id + 3) hpow
    nlinarith
  · subst h
    nlinarith
  · -- the left number is too large
    have hpow : 2 * 2 ^ e ≤ 2 ^ d := by
      rw [← pow_succ']
      exact Nat.pow_le_pow_right (by decide) h
    have hmul := Nat.mul_le_mul_left (2 * id + 2) hpow
    nlinarith

theorem treeIds_below {fuel n id : Nat} : ∀ k ∈ treeIds fuel n id, HeapBelow id k := by
  induction fuel generalizing n id with
  | zero => exact fun k hk => absurd hk List.not_mem_nil
  | succ fuel ih =>
      intro k hk
      unfold treeIds at hk
      split at hk
      · cases hk
      · split at hk
        · rw [List.mem_singleton.mp hk]
          exact .self id
        · simp only [List.mem_append, List.mem_singleton] at hk
          rcases hk with (hk | hk) | rfl
          · exact (ih k hk).left
          · exact (ih k hk).right
          · exact .self k

/-- A vertex is not below its children. -/
theorem not_heapBelow_child {id c : Nat} (hc : id < c) : ¬ HeapBelow c id := by
  intro h
  obtain ⟨d, r, _, hk⟩ := h
  have hpow : 0 < 2 ^ d := Nat.two_pow_pos d
  have hmul : (c + 1) * 1 ≤ (c + 1) * 2 ^ d := Nat.mul_le_mul_left _ hpow
  omega

theorem treeIds_nodup (fuel n id : Nat) : (treeIds fuel n id).Nodup := by
  induction fuel generalizing n id with
  | zero => exact List.nodup_nil
  | succ fuel ih =>
      unfold treeIds
      split
      · exact List.nodup_nil
      · split
        · exact List.nodup_singleton id
        · refine List.nodup_append.mpr ⟨List.nodup_append.mpr ⟨ih _ _, ih _ _, ?_⟩,
            List.nodup_singleton id, ?_⟩
          · intro k hk k' hk' e
            subst e
            exact heapBelow_disjoint (treeIds_below k hk) (treeIds_below k hk')
          · intro k hk k' hk' e
            rw [List.mem_singleton.mp hk'] at e
            subst e
            rcases List.mem_append.mp hk with hk | hk
            · exact not_heapBelow_child (by omega) (treeIds_below _ hk)
            · exact not_heapBelow_child (by omega) (treeIds_below _ hk)

end Difuzz
