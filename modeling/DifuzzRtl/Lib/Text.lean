/-
  File:      DifuzzRtl/Lib/Text.lean
  Subject:   Strings as a scripting language has them, for files that are read by column.

  * `ljust`, `formatInt` -- a text or a number written into a field of fixed width.
  * `slice`, `split`, `replace`, `rstrip` -- the string operations.
  * `readlines` -- a file taken apart into lines, each with its line break.
  * `pyInt` -- a number read from a text, with signs, base marks and digit groups.
  * `pyInt_formatInt` -- what is written in a base is read back in it.
  * `replace_append_self`, `split_append_sep` -- the one occurrence that stands where it should.
-/
import Mathlib.Data.List.DropRight
import Mathlib.Data.List.Infix
import Mathlib.Tactic.IntervalCases
import Mathlib.Tactic.Ring

namespace Difuzz

abbrev Text := List Char

namespace Text

/-- A property of the characters of a text is decided along the text, not along all characters. -/
instance (priority := 2000) decidableForallMem {p : Char → Prop} [DecidablePred p] (t : List Char) :
    Decidable (∀ c ∈ t, p c) := List.decidableBAll p t

instance (priority := 2000) decidableExistsMem {p : Char → Prop} [DecidablePred p] (t : List Char) :
    Decidable (∃ c ∈ t, p c) := List.decidableBEx p t

/-! ## 1. Writing -/

/-- The text, filled with blanks on the right up to a width. -/
def ljust (w : Nat) (t : Text) : Text := t ++ List.replicate (w - t.length) ' '

def digits (b n : Nat) : Text := Nat.toDigits b n

/-- The decimal text of an integer. -/
def intText : Int → Text
  | .ofNat n => digits 10 n
  | .negSucc n => '-' :: digits 10 (n + 1)

/-- A number in a base, filled with zeros after the sign up to a width. -/
def formatInt (b w : Nat) : Int → Text
  | .ofNat n => List.replicate (w - (digits b n).length) '0' ++ digits b n
  | .negSucc n => '-' :: (List.replicate (w - 1 - (digits b (n + 1)).length) '0' ++ digits b (n + 1))

/-! ## 2. Taking apart -/

def slice (i j : Nat) (t : Text) : Text := (t.take j).drop i

def rstrip (t : Text) : Text := t.rdropWhile (· == ' ')

def isSpace (c : Char) : Bool := c == ' ' || (9 ≤ c.toNat && c.toNat ≤ 13)

def strip (t : Text) : Text := (t.dropWhile isSpace).rdropWhile isSpace

/-- All occurrences of `old`, found from the left and not overlapping, give way to `new`. The number
    counts the characters of an occurrence that are still to be passed over. -/
def replaceFrom (old new : Text) : Nat → Text → Text
  | _, [] => []
  | k + 1, _ :: t => replaceFrom old new k t
  | 0, c :: t =>
      if old.isPrefixOf (c :: t) then new ++ replaceFrom old new (old.length - 1) t
      else c :: replaceFrom old new 0 t

def replace (old new t : Text) : Text := replaceFrom old new 0 t

/-- The pieces between the occurrences of a separator; `cur` is the piece read so far, reversed. -/
def splitFrom (sep : Text) : Nat → Text → Text → List Text
  | _, cur, [] => [cur.reverse]
  | k + 1, cur, _ :: t => splitFrom sep k cur t
  | 0, cur, c :: t =>
      if sep.isPrefixOf (c :: t) then cur.reverse :: splitFrom sep (sep.length - 1) [] t
      else splitFrom sep 0 (c :: cur) t

def split (sep t : Text) : List Text := splitFrom sep 0 [] t

def contains (sub t : Text) : Bool := t.tails.any sub.isPrefixOf

/-- Line breaks of all kinds become one: what opening a file for text does. -/
def universalNewlines : Text → Text
  | '\r' :: '\n' :: t => '\n' :: universalNewlines t
  | '\r' :: t => '\n' :: universalNewlines t
  | c :: t => c :: universalNewlines t
  | [] => []

def linesFrom : Text → Text → List Text
  | [], [] => []
  | cur, [] => [cur.reverse]
  | cur, c :: t =>
      if c = '\n' then (c :: cur).reverse :: linesFrom [] t else linesFrom (c :: cur) t

def readlines (file : Text) : List Text := linesFrom [] (universalNewlines file)

/-- The first line of a file, which may be empty. -/
def readline (file : Text) : Text := (readlines file).headD []

/-! ## 3. Reading numbers -/

def digitValue (b : Nat) (c : Char) : Option Nat :=
  let v :=
    if '0' ≤ c ∧ c ≤ '9' then c.toNat - '0'.toNat
    else if 'a' ≤ c ∧ c ≤ 'z' then c.toNat - 'a'.toNat + 10
    else if 'A' ≤ c ∧ c ≤ 'Z' then c.toNat - 'A'.toNat + 10
    else b
  if v < b then some v else none

def digitsValue (b : Nat) : Nat → Text → Option Nat
  | acc, [] => some acc
  | acc, c :: t => (digitValue b c).bind fun v => digitsValue b (b * acc + v) t

/-- Single underscores may stand between digits. -/
def ungroup (t : Text) : Option Text :=
  if t.head? = some '_' ∨ t.getLast? = some '_' ∨ contains ['_', '_'] t then none
  else some (t.filter (· ≠ '_'))

/-- The mark `0x` or `0b` of a base, with an underscore after it, is passed over. -/
def dropBase (b : Nat) : Text → Text
  | '0' :: c :: t =>
      if (b = 16 ∧ (c = 'x' ∨ c = 'X')) ∨ (b = 2 ∧ (c = 'b' ∨ c = 'B')) then
        match t with
        | '_' :: t' => t'
        | t' => t'
      else '0' :: c :: t
  | t => t

def unsignedValue (b : Nat) (t : Text) : Option Nat :=
  match ungroup (dropBase b t) with
  | none => none
  | some [] => none
  | some t' => digitsValue b 0 t'

/-- The number a text writes in a base; blanks around it do not count. -/
def pyInt (b : Nat) (t : Text) : Option Int :=
  match strip t with
  | '-' :: t' => (unsignedValue b t').map fun n => -(n : Int)
  | '+' :: t' => (unsignedValue b t').map Int.ofNat
  | t' => (unsignedValue b t').map Int.ofNat

/-! ## 4. Fields of fixed width -/

theorem length_ljust (w : Nat) (t : Text) : (ljust w t).length = max w t.length := by
  rw [ljust, List.length_append, List.length_replicate]
  omega

theorem ljust_append {n : Nat} {c : Text} (h : c.length = n) (w : Nat) (t : Text) :
    ljust (n + w) (c ++ t) = c ++ ljust w t := by
  rw [ljust, ljust, List.length_append, h, List.append_assoc, Nat.add_sub_add_left]

theorem rstrip_append_replicate (t : Text) (k : Nat) :
    rstrip (t ++ List.replicate k ' ') = rstrip t := by
  induction k with
  | zero => rw [List.replicate_zero, List.append_nil]
  | succ k ih =>
      rw [List.replicate_succ', ← List.append_assoc, rstrip,
        List.rdropWhile_concat_pos _ _ _ (by decide)]
      exact ih

@[simp] theorem rstrip_ljust (w : Nat) (t : Text) : rstrip (ljust w t) = rstrip t :=
  rstrip_append_replicate t _

/-- A text is what is left of it without the blanks at its end, and these blanks. -/
theorem rstrip_spec (t : Text) : ∃ k, t = rstrip t ++ List.replicate k ' ' := by
  induction t using List.reverseRecOn with
  | nil => exact ⟨0, rfl⟩
  | append_singleton t c ih =>
      by_cases hc : c = ' '
      · obtain ⟨k, hk⟩ := ih
        refine ⟨k + 1, ?_⟩
        rw [rstrip, List.rdropWhile_concat_pos _ _ _ (by simp [hc]), List.replicate_succ',
          ← List.append_assoc, hc]
        exact congrArg (· ++ [' ']) hk
      · refine ⟨0, ?_⟩
        rw [rstrip, List.rdropWhile_concat_neg _ _ _ (by simp [hc]), List.replicate_zero,
          List.append_nil]

theorem rstrip_append_congr {b b' : Text} (h : rstrip b = rstrip b') (c : Text) :
    rstrip (c ++ b) = rstrip (c ++ b') := by
  obtain ⟨k, hk⟩ := rstrip_spec b
  obtain ⟨k', hk'⟩ := rstrip_spec b'
  rw [hk, hk', h, ← List.append_assoc, ← List.append_assoc, rstrip_append_replicate,
    rstrip_append_replicate]

/-- A cut that loses blanks only. -/
theorem rstrip_take {t : Text} {n : Nat} (h : (rstrip t).length ≤ n) :
    rstrip (t.take n) = rstrip t := by
  obtain ⟨k, hk⟩ := rstrip_spec t
  calc rstrip (t.take n)
      = rstrip ((rstrip t ++ List.replicate k ' ').take n) := by rw [← hk]
    _ = rstrip (rstrip t ++ List.replicate (min (n - (rstrip t).length) k) ' ') := by
        rw [List.take_append, List.take_of_length_le h, List.take_replicate]
    _ = rstrip (rstrip t) := rstrip_append_replicate _ _
    _ = rstrip t := List.rdropWhile_idempotent _ _

/-! ## 5. Numbers that are written and read -/

theorem digitValue_digitChar {b d : Nat} (hd : d < b) (hb : b ≤ 16) :
    digitValue b (Nat.digitChar d) = some d := by
  have h16 : d < 16 := by omega
  interval_cases d <;> simp [digitValue, Nat.digitChar, hd]

theorem digitsValue_append (b acc : Nat) (t u : Text) :
    digitsValue b acc (t ++ u) = (digitsValue b acc t).bind fun a => digitsValue b a u := by
  induction t generalizing acc with
  | nil => rfl
  | cons c t ih =>
      simp only [List.cons_append, digitsValue]
      cases digitValue b c with
      | none => rfl
      | some v => exact ih _

theorem digitsValue_digits {b n : Nat} (hb : 1 < b) (hb' : b ≤ 16) :
    digitsValue b 0 (digits b n) = some n := by
  induction n using Nat.base_induction b hb with
  | single m hm =>
      rw [digits, Nat.toDigits_of_lt_base hm]
      simp [digitsValue, digitValue_digitChar hm hb']
  | digit m k hk hm ih =>
      rw [digits] at ih
      rw [digits, ← Nat.toDigits_append_toDigits hb hm hk, digitsValue_append, ih,
        Nat.toDigits_of_lt_base hk]
      simp [digitsValue, digitValue_digitChar hk hb']

theorem digitsValue_zeros {b k : Nat} (hb : 1 < b) (t : Text) :
    digitsValue b 0 (List.replicate k '0' ++ t) = digitsValue b 0 t := by
  have h0 : digitValue b '0' = some 0 := by simp [digitValue]; omega
  induction k with
  | zero => rfl
  | succ k ih =>
      rw [List.replicate_succ, List.cons_append, digitsValue, h0, Option.bind_some]
      exact ih

/-- A text of digits of a base. -/
def AllDigits (b : Nat) (t : Text) : Prop := ∀ c ∈ t, (digitValue b c).isSome

/-- The characters of a number in a base. -/
theorem mem_digits {b n : Nat} (hb : 1 < b) {c : Char} (h : c ∈ digits b n) :
    ∃ d < b, c = Nat.digitChar d := by
  induction n using Nat.base_induction b hb with
  | single m hm =>
      rw [digits, Nat.toDigits_of_lt_base hm] at h
      exact ⟨m, hm, List.mem_singleton.mp h⟩
  | digit m k hk hm ih =>
      rw [digits, ← Nat.toDigits_append_toDigits hb hm hk, List.mem_append] at h
      rcases h with h | h
      · exact ih h
      · rw [Nat.toDigits_of_lt_base hk] at h
        exact ⟨k, hk, List.mem_singleton.mp h⟩

theorem allDigits_digits {b n : Nat} (hb : 1 < b) (hb' : b ≤ 16) : AllDigits b (digits b n) := by
  intro c hc
  obtain ⟨d, hd, rfl⟩ := mem_digits hb hc
  rw [digitValue_digitChar hd hb']
  rfl

theorem AllDigits.append {b : Nat} {t u : Text} (ht : AllDigits b t) (hu : AllDigits b u) :
    AllDigits b (t ++ u) := by
  intro c hc
  rcases List.mem_append.mp hc with hc | hc
  · exact ht c hc
  · exact hu c hc

theorem allDigits_zeros {b : Nat} (hb : 1 < b) (k : Nat) : AllDigits b (List.replicate k '0') := by
  intro c hc
  rw [List.eq_of_mem_replicate hc]
  simp [digitValue]
  omega

/-- A character that is no digit does not stand in a text of digits. -/
theorem AllDigits.not_mem {b : Nat} {t : Text} (h : AllDigits b t) {c : Char}
    (hc : digitValue b c = none) : c ∉ t := by
  intro hm
  have := h c hm
  rw [hc] at this
  exact absurd this (by decide)

theorem not_mem_digits {c : Char} (hc : digitValue 10 c = none) (n : Nat) : c ∉ digits 10 n :=
  (allDigits_digits (by decide) (by decide)).not_mem hc

theorem digitValue_space {b : Nat} {c : Char} (h : isSpace c = true) : digitValue b c = none := by
  have hn : c.toNat = 32 ∨ (9 ≤ c.toNat ∧ c.toNat ≤ 13) := by
    simp only [isSpace, Bool.or_eq_true, beq_iff_eq, Bool.and_eq_true, decide_eq_true_eq] at h
    rcases h with h | h
    · exact Or.inl (by rw [h]; rfl)
    · exact Or.inr h
  have h0 : ¬ '0' ≤ c := fun e => by
    have : 48 ≤ c.toNat := e
    omega
  have ha : ¬ 'a' ≤ c := fun e => by
    have : 97 ≤ c.toNat := e
    omega
  have hA : ¬ 'A' ≤ c := fun e => by
    have : 65 ≤ c.toNat := e
    omega
  simp [digitValue, h0, ha, hA]

theorem strip_digits {b : Nat} {t ws : Text} (hd : AllDigits b t) (ht : t ≠ [])
    (hws : ∀ c ∈ ws, isSpace c = true) : strip (t ++ ws) = t := by
  have hns : ∀ c ∈ t, isSpace c = false := by
    intro c hc
    by_contra hs
    rw [Bool.not_eq_false] at hs
    exact hd.not_mem (digitValue_space hs) hc
  have h₁ : (t ++ ws).dropWhile isSpace = t ++ ws := by
    cases t with
    | nil => exact absurd rfl ht
    | cons c t =>
        rw [List.cons_append, List.dropWhile_cons_of_neg]
        rw [hns c List.mem_cons_self]
        decide
  rw [strip, h₁]
  induction ws using List.reverseRecOn with
  | nil =>
      rw [List.append_nil, List.rdropWhile_eq_self_iff]
      intro hl
      rw [hns _ (List.getLast_mem hl)]
      decide
  | append_singleton ws c ih =>
      rw [← List.append_assoc, List.rdropWhile_concat_pos _ _ _ (hws c (by simp))]
      refine ih (fun d hd => hws d (List.mem_append_left _ hd)) ?_
      cases t with
      | nil => exact absurd rfl ht
      | cons d t =>
          rw [List.cons_append, List.dropWhile_cons_of_neg]
          rw [hns d List.mem_cons_self]
          decide

/-- Nothing is cut off a text without blanks. -/
theorem strip_eq_self {t : Text} (h : ∀ c ∈ t, isSpace c = false) : strip t = t := by
  have hdrop : ∀ u : Text, (∀ c ∈ u, isSpace c = false) → u.dropWhile isSpace = u := by
    intro u hu
    cases u with
    | nil => rfl
    | cons c u =>
        rw [List.dropWhile_cons_of_neg]
        rw [hu c List.mem_cons_self]
        decide
  rw [strip, hdrop t h, List.rdropWhile, hdrop t.reverse fun c hc => h c (List.mem_reverse.mp hc),
    List.reverse_reverse]

theorem dropWhile_replicate_append (k : Nat) (t : Text) :
    (List.replicate k ' ' ++ t).dropWhile isSpace = t.dropWhile isSpace := by
  refine List.dropWhile_append_of_pos fun c hc => ?_
  rw [List.eq_of_mem_replicate hc]
  decide

theorem strip_replicate_append (k : Nat) (t : Text) : strip (List.replicate k ' ' ++ t) = strip t := by
  rw [strip, dropWhile_replicate_append, strip]

theorem strip_append_replicate (t : Text) (k : Nat) : strip (t ++ List.replicate k ' ') = strip t := by
  have hcut : ∀ u : Text, (u ++ List.replicate k ' ').rdropWhile isSpace = u.rdropWhile isSpace := by
    intro u
    rw [List.rdropWhile, List.reverse_append, List.reverse_replicate, dropWhile_replicate_append,
      List.rdropWhile]
  rw [strip, List.dropWhile_append]
  split
  · rename_i hempty
    have hnil : List.dropWhile isSpace t = [] := List.isEmpty_iff.mp hempty
    have hrep := dropWhile_replicate_append k []
    rw [List.append_nil] at hrep
    rw [strip, hnil, hrep]
    rfl
  · rw [hcut, strip]

/-- What is no blank stays. -/
theorem mem_strip {t : Text} {c : Char} (hc : isSpace c = false) : c ∈ strip t ↔ c ∈ t := by
  have hdrop : ∀ u : Text, c ∈ u.dropWhile isSpace ↔ c ∈ u := by
    intro u
    refine ⟨fun h => (List.dropWhile_suffix _).subset h, fun h => ?_⟩
    rw [← List.takeWhile_append_dropWhile (p := isSpace) (l := u)] at h
    rcases List.mem_append.mp h with h | h
    · rw [List.mem_takeWhile_imp h] at hc
      cases hc
    · exact h
  rw [strip, List.rdropWhile, List.mem_reverse, hdrop, List.mem_reverse, hdrop]

theorem dropBase_digits {b : Nat} {t : Text} (hd : AllDigits b t) : dropBase b t = t := by
  unfold dropBase
  split
  · rename_i c u
    rw [if_neg]
    intro h
    rcases h with ⟨rfl, rfl | rfl⟩ | ⟨rfl, rfl | rfl⟩
    all_goals exact absurd (hd _ (List.mem_cons_of_mem _ List.mem_cons_self)) (by decide)
  · rfl

theorem ungroup_digits {b : Nat} {t : Text} (hd : AllDigits b t) : ungroup t = some t := by
  have hu : ∀ c ∈ t, c ≠ '_' := fun c hc e => hd.not_mem (by simp [digitValue]) (e ▸ hc)
  rw [ungroup, if_neg]
  · rw [List.filter_eq_self.mpr]
    intro c hc
    simpa using hu c hc
  · intro hx
    rcases hx with h | h | h
    · exact hu _ (List.mem_of_mem_head? h) rfl
    · exact hu _ (List.mem_of_getLast? h) rfl
    · obtain ⟨u, hu', hp⟩ := List.any_eq_true.mp h
      have hsub := (List.isPrefixOf_iff_prefix.mp hp).subset (List.mem_cons_self (a := '_'))
      exact hu _ (((List.mem_tails _ _).mp hu').subset hsub) rfl

theorem unsignedValue_digits {b : Nat} {t : Text} (hd : AllDigits b t) (ht : t ≠ []) :
    unsignedValue b t = digitsValue b 0 t := by
  rw [unsignedValue, dropBase_digits hd, ungroup_digits hd]
  cases t with
  | nil => exact absurd rfl ht
  | cons c t => rfl

theorem pyInt_digits {b : Nat} {t ws : Text} (hd : AllDigits b t) (ht : t ≠ [])
    (hws : ∀ c ∈ ws, isSpace c = true) :
    pyInt b (t ++ ws) = (digitsValue b 0 t).map Int.ofNat := by
  rw [← unsignedValue_digits hd ht, pyInt, strip_digits hd ht hws]
  split
  · exact absurd List.mem_cons_self (hd.not_mem (by simp [digitValue]))
  · exact absurd List.mem_cons_self (hd.not_mem (by simp [digitValue]))
  · rfl

theorem allDigits_formatInt {b : Nat} (hb : 1 < b) (hb' : b ≤ 16) (w n : Nat) :
    AllDigits b (formatInt b w n) :=
  (allDigits_zeros hb _).append (allDigits_digits hb hb')

theorem digitsValue_formatInt {b : Nat} (hb : 1 < b) (hb' : b ≤ 16) (w n : Nat) :
    digitsValue b 0 (formatInt b w n) = some n := by
  show digitsValue b 0 (List.replicate _ '0' ++ digits b n) = _
  rw [digitsValue_zeros hb, digitsValue_digits hb hb']

/-- Digits as numbers are written, in lower case. -/
def WrittenDigits (b : Nat) (t : Text) : Prop := ∀ c ∈ t, ∃ d < b, c = Nat.digitChar d

theorem writtenDigits_formatInt {b : Nat} (hb : 1 < b) (w n : Nat) :
    WrittenDigits b (formatInt b w n) := by
  intro c hc
  rcases List.mem_append.mp hc with hc | hc
  · exact ⟨0, by omega, List.eq_of_mem_replicate hc⟩
  · exact mem_digits hb hc

/-- **Digits of one length that write one number are the same digits.** -/
theorem eq_of_digitsValue {b : Nat} (hb : b ≤ 16) {t u : Text} (ht : WrittenDigits b t)
    (hu : WrittenDigits b u) (hl : t.length = u.length) {acc acc' : Nat}
    (h : digitsValue b acc t = digitsValue b acc' u) : t = u ∧ acc = acc' := by
  induction t generalizing u acc acc' with
  | nil =>
      cases u with
      | nil => exact ⟨rfl, Option.some.inj h⟩
      | cons c' u => cases hl
  | cons c t ih =>
      cases u with
      | nil => cases hl
      | cons c' u =>
          obtain ⟨d, hd, rfl⟩ := ht c List.mem_cons_self
          obtain ⟨d', hd', rfl⟩ := hu c' List.mem_cons_self
          unfold digitsValue at h
          rw [digitValue_digitChar hd hb, digitValue_digitChar hd' hb] at h
          obtain ⟨rfl, hacc⟩ := ih (fun c hc => ht c (List.mem_cons_of_mem _ hc))
            (fun c hc => hu c (List.mem_cons_of_mem _ hc)) (Nat.succ.inj hl) h
          -- the last digit is the remainder
          have hmod := congrArg (· % b) hacc
          have hdiv := congrArg (· / b) hacc
          simp only [Nat.mul_add_mod, Nat.mod_eq_of_lt hd, Nat.mod_eq_of_lt hd'] at hmod
          have hpos : 0 < b := Nat.lt_of_le_of_lt (Nat.zero_le d) hd
          simp only [Nat.mul_add_div hpos, Nat.div_eq_of_lt hd, Nat.div_eq_of_lt hd',
            Nat.add_zero] at hdiv
          exact ⟨by rw [hmod], hdiv⟩

/-- Digits that stand before others count for more. -/
theorem digitsValue_acc (b acc : Nat) (t : Text) :
    digitsValue b acc t = (digitsValue b 0 t).map (acc * b ^ t.length + ·) := by
  induction t generalizing acc with
  | nil => simp [digitsValue]
  | cons c t ih =>
      simp only [digitsValue]
      cases digitValue b c with
      | none => rfl
      | some v =>
          rw [Option.bind_some, Option.bind_some, ih (b * acc + v), ih (b * 0 + v), Option.map_map]
          congr 1
          funext x
          simp only [Function.comp, List.length_cons, pow_succ]
          ring

/-- **A number that is written in a base is read back**, whatever the width of its field. -/
theorem pyInt_formatInt {b : Nat} (hb : 1 < b) (hb' : b ≤ 16) (w n : Nat) {ws : Text}
    (hws : ∀ c ∈ ws, isSpace c = true) : pyInt b (formatInt b w n ++ ws) = some (n : Int) := by
  have hne : formatInt b w n ≠ [] := by
    intro h
    exact Nat.toDigits_ne_nil (List.append_eq_nil_iff.mp h).2
  rw [pyInt_digits (allDigits_formatInt hb hb' w n) hne hws, digitsValue_formatInt hb hb']
  rfl

theorem pyInt_formatInt_nil {b : Nat} (hb : 1 < b) (hb' : b ≤ 16) (w n : Nat) :
    pyInt b (formatInt b w n) = some (n : Int) := by
  have h : pyInt b (formatInt b w n ++ []) = some (n : Int) :=
    pyInt_formatInt hb hb' w n (by simp)
  rwa [List.append_nil] at h

theorem pyInt_intText (n : Nat) : pyInt 10 (intText n) = some (n : Int) := by
  have h := pyInt_formatInt_nil (b := 10) (by decide) (by decide) 0 n
  simpa [formatInt, intText] using h

/-- A number with a minus sign is read back. -/
theorem pyInt_neg_digits (n : Nat) : pyInt 10 ('-' :: digits 10 n) = some (-(n : Int)) := by
  have hd := allDigits_digits (b := 10) (n := n) (by decide) (by decide)
  have hns : ∀ c ∈ '-' :: digits 10 n, isSpace c = false := by
    intro c hc
    rcases List.mem_cons.mp hc with rfl | hc
    · decide
    · by_contra hs
      rw [Bool.not_eq_false] at hs
      exact hd.not_mem (digitValue_space hs) hc
  have hvalue : unsignedValue 10 (digits 10 n) = some n := by
    rw [unsignedValue_digits hd Nat.toDigits_ne_nil, digitsValue_digits (by decide) (by decide)]
  rw [pyInt, strip_eq_self hns]
  simp only [hvalue]
  rfl

theorem length_formatInt {b w n : Nat} (hb : 1 < b) (hw : 0 < w) (hn : n < b ^ w) :
    (formatInt b w n).length = w := by
  have := (Nat.length_toDigits_le_iff hb hw).mpr hn
  show (List.replicate (w - (digits b n).length) '0' ++ digits b n).length = w
  rw [List.length_append, List.length_replicate]
  have : (digits b n).length ≤ w := this
  omega

/-! ## 6. Occurrences

  A separator is found through one character of it, the mark: where the mark does not stand, the
  separator does not start. -/

theorem takeWhile_mark {w v : Text} {c : Char} (hw : c ∉ w) :
    (w ++ c :: v).takeWhile (· != c) = w := by
  rw [List.takeWhile_append_of_pos]
  · simp
  · intro d hd
    simpa using fun e : d = c => hw (e ▸ hd)

/-- The separator does not start before the place where the mark is next seen. -/
theorem not_isPrefixOf_mark {x y a u : Text} {c : Char} (hx : c ∉ x) (ha : c ∉ a) (hne : a ≠ []) :
    (x ++ c :: y).isPrefixOf (a ++ (x ++ c :: u)) = false := by
  by_contra hp
  rw [Bool.not_eq_false] at hp
  obtain ⟨r, hr⟩ := List.isPrefixOf_iff_prefix.mp hp
  have h₁ := congrArg (List.takeWhile (· != c)) hr
  rw [List.append_assoc, List.cons_append, takeWhile_mark hx, ← List.append_assoc,
    takeWhile_mark (w := a ++ x) (by simp [hx, ha])] at h₁
  have h₂ := congrArg List.length h₁
  rw [List.length_append] at h₂
  exact hne (List.eq_nil_of_length_eq_zero (by omega))

theorem not_isPrefixOf_of_not_mem {x y t : Text} {c : Char} (ht : c ∉ t) :
    (x ++ c :: y).isPrefixOf t = false := by
  by_contra hp
  rw [Bool.not_eq_false] at hp
  exact ht ((List.isPrefixOf_iff_prefix.mp hp).subset (by simp))

theorem replaceFrom_skip (old new w u : Text) :
    replaceFrom old new w.length (w ++ u) = replaceFrom old new 0 u := by
  induction w with
  | nil => rfl
  | cons c w ih => exact ih

theorem splitFrom_skip (sep cur w u : Text) :
    splitFrom sep w.length cur (w ++ u) = splitFrom sep 0 cur u := by
  induction w with
  | nil => rfl
  | cons c w ih => exact ih

/-- The text before the first occurrence stays, the occurrence gives way. -/
theorem replace_append_self {x y a new u : Text} {c : Char} (hx : c ∉ x) (ha : c ∉ a) :
    replace (x ++ c :: y) new (a ++ (x ++ c :: y ++ u)) =
      a ++ (new ++ replace (x ++ c :: y) new u) := by
  unfold replace
  induction a with
  | nil =>
      have hp : (x ++ c :: y).isPrefixOf (x ++ c :: y ++ u) = true :=
        List.isPrefixOf_iff_prefix.mpr (List.prefix_append _ _)
      have hskip := replaceFrom_skip (x ++ c :: y) new (x ++ c :: y).tail u
      cases hxy : x ++ c :: y with
      | nil => simp at hxy
      | cons d w =>
          rw [hxy, List.cons_append] at hp
          rw [hxy] at hskip
          rw [List.nil_append, List.cons_append, replaceFrom, if_pos hp]
          exact congrArg (new ++ ·) hskip
  | cons d a ih =>
      have hp := not_isPrefixOf_mark (y := y) (u := y ++ u) hx ha (by simp)
      have ha' : c ∉ a := fun h => ha (List.mem_cons_of_mem _ h)
      rw [List.cons_append, replaceFrom, if_neg, ih ha', List.cons_append]
      rw [List.append_assoc, List.cons_append, ← List.cons_append, hp]
      decide

theorem replace_of_not_mem {x y new t : Text} {c : Char} (ht : c ∉ t) :
    replace (x ++ c :: y) new t = t := by
  unfold replace
  induction t with
  | nil => rfl
  | cons d t ih =>
      have hp := not_isPrefixOf_of_not_mem (x := x) (y := y) ht
      rw [replaceFrom, if_neg (by rw [hp]; decide), ih fun h => ht (List.mem_cons_of_mem _ h)]

theorem mem_replaceFrom {old new t : Text} {k : Nat} {d : Char} (h : d ∈ replaceFrom old new k t) :
    d ∈ t ∨ d ∈ new := by
  induction t generalizing k with
  | nil => exact absurd h (by cases k <;> simp [replaceFrom])
  | cons c t ih =>
      have hcons : d ∈ t ∨ d ∈ new → d ∈ c :: t ∨ d ∈ new := by
        intro hx
        rcases hx with h | h
        · exact Or.inl (List.mem_cons_of_mem _ h)
        · exact Or.inr h
      cases k with
      | succ k => exact hcons (ih h)
      | zero =>
          rw [replaceFrom] at h
          split at h
          · rcases List.mem_append.mp h with h | h
            · exact Or.inr h
            · exact hcons (ih h)
          · rcases List.mem_cons.mp h with h | h
            · exact Or.inl (List.mem_cons.mpr (Or.inl h))
            · exact hcons (ih h)

theorem mem_replace {old new t : Text} {d : Char} (h : d ∈ replace old new t) : d ∈ t ∨ d ∈ new :=
  mem_replaceFrom h

theorem isPrefixOf_append_char {x a u : Text} {c : Char} (hc : c ∉ x) :
    x.isPrefixOf (a ++ c :: u) = x.isPrefixOf a := by
  induction a generalizing x with
  | nil =>
      cases x with
      | nil => rfl
      | cons d x =>
          have hd : d ≠ c := fun e => hc (e ▸ List.mem_cons_self)
          simp [List.isPrefixOf, hd]
  | cons e a ih =>
      cases x with
      | nil => rfl
      | cons d x =>
          simp only [List.cons_append, List.isPrefixOf]
          rw [ih fun h => hc (List.mem_cons_of_mem _ h)]

theorem replaceFrom_append_char {old new : Text} {c : Char} (hne : old ≠ []) (hc : c ∉ old)
    (a u : Text) {k : Nat} (hk : k ≤ a.length) :
    replaceFrom old new k (a ++ c :: u) = replaceFrom old new k a ++ c :: replace old new u := by
  induction a generalizing k with
  | nil =>
      obtain rfl : k = 0 := Nat.le_zero.mp hk
      have hp : old.isPrefixOf (c :: u) = false := by
        have := isPrefixOf_append_char (a := []) (u := u) hc
        rw [List.nil_append] at this
        rw [this]
        cases old with
        | nil => exact absurd rfl hne
        | cons d old => rfl
      simp [replaceFrom, hp, replace]
  | cons e a ih =>
      cases k with
      | succ k => exact ih (Nat.le_of_succ_le_succ hk)
      | zero =>
          have hp := isPrefixOf_append_char (a := e :: a) (u := u) hc
          rw [List.cons_append] at hp
          rw [List.cons_append, replaceFrom, replaceFrom, hp]
          split
          · rename_i h
            have hlen := (List.isPrefixOf_iff_prefix.mp h).length_le
            rw [List.length_cons] at hlen
            rw [ih (by omega), List.append_assoc]
          · rw [ih (Nat.zero_le _), List.cons_append]

/-- A character that the pattern has not splits the text. -/
theorem replace_append_char {old new : Text} {c : Char} (hne : old ≠ []) (hc : c ∉ old) (a u : Text) :
    replace old new (a ++ c :: u) = replace old new a ++ c :: replace old new u :=
  replaceFrom_append_char hne hc a u (Nat.zero_le _)

/-- A text is no string's if it has a byte that the string has not. -/
theorem not_mem_toList {s : String} {c : Char} {b : UInt8} (hb : b ∈ String.utf8EncodeChar c)
    (h : b ∉ s.toByteArray.data.toList) : c ∉ s.toList := by
  intro hc
  refine h ?_
  rw [← String.utf8Encode_toList, List.utf8Encode, List.toList_data_toByteArray]
  exact List.mem_flatMap.mpr ⟨c, hc, hb⟩

theorem splitFrom_of_not_mem {x y cur t : Text} {c : Char} (ht : c ∉ t) :
    splitFrom (x ++ c :: y) 0 cur t = [cur.reverse ++ t] := by
  induction t generalizing cur with
  | nil => simp [splitFrom]
  | cons d t ih =>
      have hp := not_isPrefixOf_of_not_mem (x := x) (y := y) ht
      rw [splitFrom, if_neg (by rw [hp]; decide), ih fun h => ht (List.mem_cons_of_mem _ h)]
      simp

theorem split_of_not_mem {x y t : Text} {c : Char} (ht : c ∉ t) : split (x ++ c :: y) t = [t] :=
  splitFrom_of_not_mem ht

/-- The piece before the first occurrence is the first piece. -/
theorem splitFrom_append_sep {x y cur a u : Text} {c : Char} (hx : c ∉ x) (ha : c ∉ a) :
    splitFrom (x ++ c :: y) 0 cur (a ++ (x ++ c :: y ++ u)) =
      (cur.reverse ++ a) :: split (x ++ c :: y) u := by
  induction a generalizing cur with
  | nil =>
      have hp : (x ++ c :: y).isPrefixOf (x ++ c :: y ++ u) = true :=
        List.isPrefixOf_iff_prefix.mpr (List.prefix_append _ _)
      have hskip := splitFrom_skip (x ++ c :: y) [] (x ++ c :: y).tail u
      cases hxy : x ++ c :: y with
      | nil => simp at hxy
      | cons d w =>
          rw [hxy, List.cons_append] at hp
          rw [hxy] at hskip
          rw [List.nil_append, List.cons_append, splitFrom, if_pos hp, List.append_nil]
          exact congrArg (cur.reverse :: ·) hskip
  | cons d a ih =>
      have hp := not_isPrefixOf_mark (y := y) (u := y ++ u) hx ha (by simp)
      have ha' : c ∉ a := fun h => ha (List.mem_cons_of_mem _ h)
      rw [List.cons_append, splitFrom, if_neg, ih ha']
      · simp
      · rw [List.append_assoc, List.cons_append, ← List.cons_append, hp]
        decide

theorem split_append_sep {x y a u : Text} {c : Char} (hx : c ∉ x) (ha : c ∉ a) :
    split (x ++ c :: y) (a ++ (x ++ c :: y ++ u)) = a :: split (x ++ c :: y) u :=
  splitFrom_append_sep hx ha

/-- Where the first character of a separator does not stand, it does not start. -/
theorem splitFrom_pass {d : Char} {y cur w : Text} (h : d ∉ w) (t : Text) :
    splitFrom (d :: y) 0 cur (w ++ t) = splitFrom (d :: y) 0 (w.reverse ++ cur) t := by
  induction w generalizing cur with
  | nil => rfl
  | cons e w ih =>
      have hne : d ≠ e := fun he => h (List.mem_cons.mpr (Or.inl he))
      rw [List.cons_append, splitFrom, if_neg, ih fun hm => h (List.mem_cons_of_mem _ hm)]
      · simp
      · simp [hne]

/-- A mark that the start of the separator does not stand in front of. -/
theorem splitFrom_pass_mark {x y cur w : Text} {c : Char} (hx : c ∉ x) (hw : c ∉ w)
    (hs : ¬ x <:+ w) (v : Text) :
    splitFrom (x ++ c :: y) 0 cur (w ++ c :: v) =
      splitFrom (x ++ c :: y) 0 (w.reverse ++ cur) (c :: v) := by
  induction w generalizing cur with
  | nil => rfl
  | cons e w ih =>
      have hs' : ¬ x <:+ w := fun h => hs (h.trans (List.suffix_cons e w))
      rw [List.cons_append, splitFrom, if_neg, ih (fun hm => hw (List.mem_cons_of_mem _ hm)) hs']
      · simp
      · intro hp
        obtain ⟨r, hr⟩ := List.isPrefixOf_iff_prefix.mp hp
        have h₁ := congrArg (List.takeWhile (· != c)) hr
        rw [List.append_assoc, List.cons_append, takeWhile_mark hx, ← List.cons_append,
          takeWhile_mark hw] at h₁
        exact hs (h₁ ▸ List.suffix_refl _)

/-- The first piece, when a single character separates. -/
theorem head?_split_char (c : Char) (t : Text) :
    (split [c] t).head? = some (t.takeWhile (· != c)) := by
  by_cases h : c ∈ t
  · obtain ⟨a, u, rfl, ha⟩ := List.eq_append_cons_of_mem h
    have := split_append_sep (x := []) (y := []) (u := u) List.not_mem_nil ha
    rw [List.nil_append, List.singleton_append] at this
    rw [this, List.head?_cons, takeWhile_mark ha]
  · have := split_of_not_mem (x := []) (y := []) h
    rw [List.nil_append] at this
    rw [this, List.head?_cons, List.takeWhile_eq_self_iff.mpr]
    intro d hd
    simpa using fun e : d = c => h (e ▸ hd)

theorem contains_iff {sub t : Text} : contains sub t = true ↔ sub <:+: t := by
  rw [contains, List.any_eq_true]
  constructor
  · intro h
    obtain ⟨u, hu, hp⟩ := h
    exact (List.isPrefixOf_iff_prefix.mp hp).isInfix.trans ((List.mem_tails _ _).mp hu).isInfix
  · intro h
    obtain ⟨a, b, rfl⟩ := h
    refine ⟨sub ++ b, (List.mem_tails _ _).mpr ⟨a, by simp⟩, ?_⟩
    exact List.isPrefixOf_iff_prefix.mpr (List.prefix_append _ _)

/-- What starts with a character that does not stand in front is found behind it. -/
theorem infix_of_not_mem_left {d : Char} {s a t : Text} (ha : d ∉ a) (h : d :: s <:+: a ++ t) :
    d :: s <:+: t := by
  induction a with
  | nil => exact h
  | cons c a ih =>
      rcases List.infix_cons_iff.mp h with hp | hi
      · exact absurd (List.mem_cons.mpr (Or.inl (List.cons_prefix_cons.mp hp).1)) ha
      · exact ih (fun hm => ha (List.mem_cons_of_mem _ hm)) hi

/-- What ends with a character that does not stand behind is found in front of it. -/
theorem infix_of_not_mem_right {d : Char} {s t u : Text} (hu : d ∉ u) (h : s ++ [d] <:+: t ++ u) :
    s ++ [d] <:+: t := by
  have h' := List.reverse_infix.mpr h
  rw [List.reverse_append, List.reverse_append, List.reverse_singleton, List.singleton_append] at h'
  have hi := infix_of_not_mem_left (by rwa [List.mem_reverse]) h'
  rw [← List.reverse_infix, List.reverse_append]
  exact hi

/-! ## 7. Lines -/

/-- A text that stays on one line. -/
def OneLine (t : Text) : Prop := '\n' ∉ t ∧ '\r' ∉ t

instance (t : Text) : Decidable (OneLine t) := inferInstanceAs (Decidable (_ ∧ _))

theorem universalNewlines_of_not_mem {t : Text} (h : '\r' ∉ t) : universalNewlines t = t := by
  induction t with
  | nil => rfl
  | cons c t ih =>
      have ih' := ih fun hm => h (List.mem_cons_of_mem _ hm)
      unfold universalNewlines
      split
      · rename_i e
        exact absurd (by rw [e]; exact List.mem_cons_self) h
      · rename_i e
        exact absurd (by rw [e]; exact List.mem_cons_self) h
      · rename_i d u _ _ e
        obtain ⟨rfl, rfl⟩ := List.cons.inj e
        rw [ih']
      · rename_i e
        exact absurd e (by simp)

theorem linesFrom_line {cur l : Text} (hl : '\n' ∉ l) (t : Text) :
    linesFrom cur (l ++ '\n' :: t) = (cur.reverse ++ l ++ ['\n']) :: linesFrom [] t := by
  induction l generalizing cur with
  | nil => simp [linesFrom]
  | cons c l ih =>
      have hc : c ≠ '\n' := fun e => hl (List.mem_cons.mpr (Or.inl e.symm))
      rw [List.cons_append, linesFrom, if_neg hc, ih fun h => hl (List.mem_cons_of_mem _ h)]
      simp

/-- A line of a file, with its line break. -/
def IsLine (l : Text) : Prop := ∃ t, OneLine t ∧ l = t ++ ['\n']

/-- **A file written line by line is read line by line.** -/
theorem readlines_flatten {ls : List Text} (h : ∀ l ∈ ls, IsLine l) : readlines ls.flatten = ls := by
  have hr : '\r' ∉ ls.flatten := by
    intro hm
    obtain ⟨l, hl, hc⟩ := List.mem_flatten.mp hm
    obtain ⟨t, ht, rfl⟩ := h l hl
    rcases List.mem_append.mp hc with hc | hc
    · exact ht.2 hc
    · exact absurd (List.mem_singleton.mp hc) (by decide)
  rw [readlines, universalNewlines_of_not_mem hr]
  clear hr
  induction ls with
  | nil => rfl
  | cons l ls ih =>
      obtain ⟨t, ht, rfl⟩ := h l List.mem_cons_self
      rw [List.flatten_cons, List.append_assoc, List.singleton_append, linesFrom_line ht.1,
        ih fun m hm => h m (List.mem_cons_of_mem _ hm)]
      rfl

/-- A file without line breaks is one line. -/
theorem readline_oneLine {t : Text} (h : OneLine t) : readline t = t := by
  have hlines : ∀ cur, (linesFrom cur t).headD [] = cur.reverse ++ t := by
    have hn := h.1
    induction t with
    | nil =>
        intro cur
        cases cur with
        | nil => rfl
        | cons => exact (List.append_nil _).symm
    | cons c t ih =>
        intro cur
        rw [List.mem_cons, not_or] at hn
        have hr := h.2
        rw [List.mem_cons, not_or] at hr
        rw [linesFrom, if_neg (Ne.symm hn.1), ih ⟨hn.2, hr.2⟩ hn.2, List.reverse_cons, List.append_assoc]
        rfl
  rw [readline, readlines, universalNewlines_of_not_mem h.2]
  exact hlines []

theorem OneLine.append {t u : Text} (ht : OneLine t) (hu : OneLine u) : OneLine (t ++ u) := by
  simp [OneLine, ht.1, ht.2, hu.1, hu.2]

theorem OneLine.ljust {t : Text} (h : OneLine t) (w : Nat) : OneLine (ljust w t) :=
  h.append (by simp [OneLine])

/-! ## 8. Strings without characters of several bytes -/

/-- The bytes of a string, as characters. -/
def asciiText (s : String) : Text := s.toByteArray.data.toList.map fun b => Char.ofNat b.toNat

/-- A character whose bytes are below 128 is its only byte. -/
theorem utf8EncodeChar_ascii {c : Char} (h : ∀ b ∈ String.utf8EncodeChar c, b.toNat < 128) :
    String.utf8EncodeChar c = [UInt8.ofNat c.toNat] ∧ c.toNat < 128 := by
  have hhead : ∀ {b : Nat} {bs : List UInt8}, 192 ≤ b → b < 256 →
      ¬ ∀ x ∈ UInt8.ofNat b :: bs, x.toNat < 128 := by
    intro b bs hlo hhi hall
    have hlt : b % 256 < 128 := hall _ List.mem_cons_self
    omega
  revert h
  fun_cases String.utf8EncodeChar c with
  | case1 v hv =>
      intro _
      have hle : c.toNat ≤ 127 := hv
      exact ⟨rfl, by omega⟩
  | case2 v => exact fun h => absurd h (hhead (by omega) (by omega))
  | case3 v => exact fun h => absurd h (hhead (by omega) (by omega))
  | case4 v => exact fun h => absurd h (hhead (by omega) (by omega))

theorem toList_eq_asciiText {s : String} (h : ∀ b ∈ s.toByteArray.data.toList, b.toNat < 128) :
    s.toList = asciiText s := by
  unfold asciiText
  rw [← String.utf8Encode_toList, List.utf8Encode, List.toList_data_toByteArray] at h ⊢
  generalize s.toList = l at h ⊢
  induction l with
  | nil => rfl
  | cons c l ih =>
      rw [List.flatMap_cons] at h
      obtain ⟨hc, hlt⟩ := utf8EncodeChar_ascii fun b hb => h b (List.mem_append_left _ hb)
      have hval : Char.ofNat (UInt8.ofNat c.toNat).toNat = c := by
        have hmod : (UInt8.ofNat c.toNat).toNat = c.toNat := by
          rw [UInt8.toNat_ofNat']
          exact Nat.mod_eq_of_lt (by omega)
        rw [hmod, Char.ofNat_toNat]
      rw [List.flatMap_cons, hc, List.singleton_append, List.map_cons, hval,
        ← ih fun b hb => h b (List.mem_append_right _ hb)]

end Text

end Difuzz
