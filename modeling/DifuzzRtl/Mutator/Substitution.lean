/-
  File:      DifuzzRtl/Mutator/Substitution.lean
  Subject:   The operands of a word and their values: what `Word.pop_inst` makes of an instruction.

  `str.replace` is used for one operand after the other, on the whole text. It acts as one
  substitution on the tokens of the instruction because no operand of a word has its name in the name
  of another one, and no value has the name of an operand in it.

  * `NoPlaceholder` -- a text without a part of an operand name, and without the braces of a form.
  * `NamesOk` -- the operands of a word; `imm6` stands in `uimm6`, and no word has both.
  * `LineOk` -- each token of an instruction is an operand of the word or has no placeholder.
  * `popInst_noPlaceholder` -- such an instruction has no placeholder when it is populated.
  * `populateWord_logic` -- the values that `populate_word` gives, whatever one asks of them.
-/
import DifuzzRtl.Lib.Tokens
import DifuzzRtl.Mutator.Shapes

namespace Difuzz.Mutator

open Text

/-! ## 1. Placeholders -/

/-- What the name of an operand does not go beyond. -/
def isSep (c : Char) : Bool := c == ' ' || c == ',' || c == '(' || c == ')' || c == ':'

/-- The beginnings of operand names, and the place of an argument in a form. -/
def placeholders : List Text :=
  [['x', 'r', 'e', 'g'], ['f', 'r', 'e', 'g'], ['i', 'm', 'm'], ['s', 'y', 'm', 'b', 'o', 'l'],
   ['\x7b', '\x7d']]

def NoPlaceholder (t : Text) : Prop := ∀ p ∈ placeholders, ¬ p <:+: t

instance (t : Text) : Decidable (NoPlaceholder t) :=
  inferInstanceAs (Decidable (∀ p ∈ placeholders, ¬ p <:+: t))

theorem unseparated_placeholders : ∀ p ∈ placeholders, Unseparated isSep p := by decide

/-- A text without three characters: each placeholder has one of them. -/
def Inert (t : Text) : Prop := 'r' ∉ t ∧ 'm' ∉ t ∧ '\x7b' ∉ t

instance (t : Text) : Decidable (Inert t) := inferInstanceAs (Decidable (_ ∧ _))

theorem Inert.noPlaceholder {t : Text} (h : Inert t) : NoPlaceholder t := by
  have hall : ∀ p ∈ placeholders, 'r' ∈ p ∨ 'm' ∈ p ∨ '\x7b' ∈ p := by decide
  intro p hp hi
  rcases hall p hp with hc | hc | hc
  · exact h.1 (hi.subset hc)
  · exact h.2.1 (hi.subset hc)
  · exact h.2.2 (hi.subset hc)

theorem Inert.append {t u : Text} (ht : Inert t) (hu : Inert u) : Inert (t ++ u) := by
  simp [Inert, ht.1, ht.2.1, ht.2.2, hu.1, hu.2.1, hu.2.2]

theorem inert_digits {b : Nat} (hb : 1 < b) (hb' : b ≤ 16) (n : Nat) : Inert (digits b n) := by
  have hd := allDigits_digits (n := n) hb hb'
  refine ⟨hd.not_mem ?_, hd.not_mem ?_, hd.not_mem ?_⟩
  all_goals simp [digitValue]
  all_goals omega

theorem inert_intText (n : Int) : Inert (intText n) := by
  cases n with
  | ofNat n => exact inert_digits (by decide) (by decide) n
  | negSucc n =>
      exact Inert.append (t := ['-']) (by decide) (inert_digits (by decide) (by decide) (n + 1))

theorem NoPlaceholder.append {t u : Text} {c : Char} (hc : isSep c = true) (ht : NoPlaceholder t)
    (hu : NoPlaceholder u) : NoPlaceholder (t ++ c :: u) := by
  intro p hp hi
  have hcp : c ∉ p := by
    intro hm
    rw [unseparated_placeholders p hp c hm] at hc
    cases hc
  rcases (infix_append_cons hcp).mp hi with h | h
  · exact ht p hp h
  · exact hu p hp h

theorem NoPlaceholder.within {t u : Text} (h : NoPlaceholder u) (hi : t <:+: u) : NoPlaceholder t :=
  fun p hp hpt => h p hp (hpt.trans hi)

theorem NoPlaceholder.blanks_append {t : Text} (h : NoPlaceholder t) (k : Nat) :
    NoPlaceholder (List.replicate k ' ' ++ t) := by
  induction k with
  | zero => exact h
  | succ k ih => exact NoPlaceholder.append (t := []) (c := ' ') (by decide) (by decide) ih

theorem NoPlaceholder.append_blanks {t : Text} (h : NoPlaceholder t) (k : Nat) :
    NoPlaceholder (t ++ List.replicate k ' ') := by
  cases k with
  | zero =>
      rw [List.replicate_zero, List.append_nil]
      exact h
  | succ k =>
      have hk : NoPlaceholder (List.replicate k ' ' ++ []) :=
        NoPlaceholder.blanks_append (by decide) k
      rw [List.append_nil] at hk
      exact h.append (c := ' ') (by decide) hk

/-- The columns of the label and the blanks behind an instruction add no placeholder. -/
theorem noPlaceholder_wordLines {part : Part} {label : Int} {bodies : List Text}
    (h : ∀ b ∈ bodies, NoPlaceholder b) :
    ∀ l ∈ wordLines (labelCol part label) bodies, NoPlaceholder l := by
  have hlabel : NoPlaceholder (part.text ++ intText label) := by
    have hpart : Inert part.text := by cases part <;> decide
    exact (hpart.append (inert_intText label)).noPlaceholder
  intro l hl
  cases bodies with
  | nil => cases hl
  | cons b bs =>
      rcases List.mem_cons.mp hl with rfl | hl
      · have hcol : labelCol part label ++ b = (part.text ++ intText label) ++ ':' ::
            (List.replicate (8 - (part.text ++ intText label ++ [':']).length) ' ' ++ b) := by
          simp [labelCol, ljust]
        rw [hcol]
        exact hlabel.append (by decide) ((h b List.mem_cons_self).blanks_append _)
      · obtain ⟨b', hb', rfl⟩ := List.mem_map.mp hl
        exact (h b' (List.mem_cons_of_mem _ hb')).blanks_append 8

/-! ## 2. Operands -/

/-- The operands that a word can have. -/
def wordNames : List Text :=
  (operandNames ++ ["xreg3", "xreg4", "xreg5", "xreg6", "uimm1", "symbol"]).map String.toList

theorem wordNames_ok : ∀ a ∈ wordNames, a ≠ [] ∧ Unseparated isSep a ∧ ¬ NoPlaceholder a := by
  decide +kernel

theorem wordNames_infix : ∀ a ∈ wordNames, ∀ b ∈ wordNames, a <:+: b →
    a = b ∨ (a = "imm6".toList ∧ b = "uimm6".toList) := by
  decide +kernel

/-- The operands of a word do not overlap. -/
structure NamesOk (names : List Text) : Prop where
  known : ∀ a ∈ names, a ∈ wordNames
  apart : "imm6".toList ∈ names → "uimm6".toList ∉ names

namespace NamesOk

variable {names : List Text} (h : NamesOk names)

include h

theorem eq_of_infix {a b : Text} (ha : a ∈ names) (hb : b ∈ names) (hi : a <:+: b) : a = b := by
  rcases wordNames_infix a (h.known a ha) b (h.known b hb) hi with he | ⟨rfl, rfl⟩
  · exact he
  · exact absurd hb (h.apart ha)

theorem not_infix {a t : Text} (ha : a ∈ names) (ht : NoPlaceholder t) : ¬ a <:+: t :=
  fun hi => (wordNames_ok a (h.known a ha)).2.2 (ht.within hi)

end NamesOk

/-- Each token of an instruction is an operand, or is left as it is. -/
def LineOk (names : List Text) (t : Text) : Prop := ∀ a ∈ tokens isSep t, a ∈ names ∨ NoPlaceholder a

instance (names : List Text) (t : Text) : Decidable (LineOk names t) :=
  inferInstanceAs (Decidable (∀ a ∈ tokens isSep t, a ∈ names ∨ NoPlaceholder a))

namespace LineOk

variable {names names' : List Text} {t u : Text}

theorem mono (h : LineOk names t) (hn : ∀ a ∈ names, a ∈ names') : LineOk names' t :=
  fun a ha => (h a ha).imp_left (hn a)

theorem append {c : Char} (hc : isSep c = true) (ht : LineOk names t) (hu : LineOk names u) :
    LineOk names (t ++ c :: u) := by
  intro a ha
  rw [tokens_append hc] at ha
  rcases List.mem_append.mp ha with ha | ha
  · exact ht a ha
  · exact hu a ha

theorem of_noPlaceholder (h : NoPlaceholder t) : LineOk names t := by
  refine fun a ha => .inr fun p hp hi => h p hp ?_
  exact (infix_tokens (unseparated_placeholders p hp) t).mpr ⟨a, ha, hi⟩

theorem name (hn : NamesOk names) (h : t ∈ names) : LineOk names t := by
  intro a ha
  rw [tokens_unseparated (wordNames_ok t (hn.known t h)).2.1] at ha
  rw [List.mem_singleton.mp ha]
  exact .inl h

end LineOk

/-! ## 3. Values -/

/-- Values for operands of a word. -/
structure Values (names : List Text) (es : List (Text × Text)) : Prop where
  keys : ∀ e ∈ es, e.1 ∈ names
  values : ∀ e ∈ es, NoPlaceholder e.2

namespace Values

variable {names : List Text} {es : List (Text × Text)} (hn : NamesOk names) (h : Values names es)

include hn h

theorem fillIn_noPlaceholder {t : Text} (ht : NoPlaceholder t) : fillIn es t = t :=
  fillIn_of_notInfix fun e he => hn.not_infix (h.keys e he) ht

/-- **An operand becomes its value.** -/
theorem fillIn_operand {a : Text} (ha : a ∈ es.map (·.1)) : (a, fillIn es a) ∈ es := by
  obtain ⟨e, he, rfl⟩ := List.mem_map.mp ha
  exact fillIn_name (wordNames_ok e.1 (hn.known e.1 (h.keys e he))).1
    (fun x hx hi => hn.eq_of_infix (h.keys x hx) (h.keys e he) hi)
    (fun x hx y hy => hn.not_infix (h.keys y hy) (h.values x hx)) ha

theorem tokenwise : Tokenwise isSep (fillIn es) :=
  tokenwise_fillIn fun e he =>
    ⟨(wordNames_ok e.1 (hn.known e.1 (h.keys e he))).1, (wordNames_ok e.1 (hn.known e.1 (h.keys e he))).2.1⟩

/-- **An instruction is populated token by token.** -/
theorem popInst_eq {vals : Dict Text Text} (hvals : vals.entries = es) (t : Text) :
    Word.popInst t vals = mapTokens isSep (fillIn es) t := by
  rw [← (h.tokenwise hn).eq_mapTokens, ← hvals]
  rfl

end Values

/-- **No placeholder is left** in a line whose operands all have values. -/
theorem popInst_noPlaceholder {names : List Text} {vals : Dict Text Text} (hn : NamesOk names)
    (h : Values names vals.entries) (hall : ∀ a ∈ names, vals.contains a = true) {t : Text}
    (ht : LineOk names t) : NoPlaceholder (Word.popInst t vals) := by
  intro p hp hi
  have hpop : Word.popInst t vals = fillIn vals.entries t := rfl
  rw [hpop, (h.tokenwise hn).infix_iff (unseparated_placeholders p hp)] at hi
  obtain ⟨a, ha, hi⟩ := hi
  rcases ht a ha with hname | hfree
  · have hkey : a ∈ vals.keys := Dict.get?_isSome_iff.mp (Option.isSome_iff_exists.mp (hall a hname))
    exact h.values _ (h.fillIn_operand hn hkey) p hp hi
  · rw [h.fillIn_noPlaceholder hn hfree] at hi
    exact hfree p hp hi

/-! ## 4. Populating -/

/-- What the values of a list of operands satisfy, in any sense that goes through programs. -/
theorem fill_logic {M : (α : Type) → Rand α → (α → Prop) → Prop} (hM : Logic M) {α : Type}
    {f : Generator → α → Rand (Text × Generator)} {name : α → Text} {as : List α} {Q : α → Text → Prop}
    (hf : ∀ g, ∀ a ∈ as, M _ (f g a) fun r => Q a r.1) (g : Generator) (vals : Dict Text Text) :
    M _ (Generator.fill f name g vals as) fun r =>
      ((∀ a ∈ as, r.1.contains (name a) = true) ∧
        ∀ k, vals.contains k = true → r.1.contains k = true) ∧
      ∀ e ∈ r.1.entries, e ∈ vals.entries ∨ ∃ a ∈ as, e.1 = name a ∧ Q a e.2 := by
  induction as generalizing g vals with
  | nil => exact hM.pure ⟨⟨fun a ha => (nomatch ha), fun k hk => hk⟩, fun e he => .inl he⟩
  | cons a as ih =>
      refine hM.bind (hf g a List.mem_cons_self) fun r hr => ?_
      refine hM.mono (ih (fun g b hb => hf g b (List.mem_cons_of_mem _ hb)) r.2
        (vals.set (name a) r.1)) fun r' hr' => ?_
      obtain ⟨⟨hall, hkeep⟩, hent⟩ := hr'
      refine ⟨⟨fun b hb => ?_, fun k hk => hkeep k (Dict.contains_set hk)⟩, fun e he => ?_⟩
      · rcases List.mem_cons.mp hb with rfl | hb
        · exact hkeep _ (by simp [Dict.contains])
        · exact hall b hb
      · rcases hent e he with he | ⟨b, hb, hname, hQ⟩
        · rcases Dict.mem_setEntries he with rfl | he
          · exact .inr ⟨a, List.mem_cons_self, rfl, hr⟩
          · exact .inl he
        · exact .inr ⟨b, List.mem_cons_of_mem _ hb, hname, hQ⟩

/-- The values of a word, by the kind of the operand. -/
structure Filling (w : Word) (X F : Text → Prop) (I : Text × Nat → Text → Prop) (S : Text → Prop)
    (vals : Dict Text Text) : Prop where
  all : ∀ a ∈ w.operands, vals.contains a = true
  entries : ∀ e ∈ vals.entries, (e.1 ∈ w.xregs ∧ X e.2) ∨ (e.1 ∈ w.fregs ∧ F e.2) ∨
    (∃ i ∈ w.imms, e.1 = i.1 ∧ I i e.2) ∨ (e.1 ∈ w.symbols ∧ S e.2)

theorem populate_ok {w : Word} {vals : Dict Text Text} (part : Part) (hne : w.insts ≠ [])
    (hall : ∀ a ∈ w.operands, vals.contains a = true) : ∃ w', w.populate vals part = .ok w' := by
  unfold Word.populate
  rw [if_pos hall]
  cases hi : w.insts with
  | nil => exact absurd hi hne
  | cons i is => exact ⟨_, rfl⟩

/-- **Populating** gives every operand a value of its kind, and succeeds. -/
theorem populateWord_logic {M : (α : Type) → Rand α → (α → Prop) → Prop} (hM : Logic M) {w : Word}
    {maxLabel : Int} {part : Part} {X F : Text → Prop} {I : Text × Nat → Text → Prop} {S : Text → Prop}
    (hw : w.populated = false) (hne : w.insts ≠ [])
    (hx : ∀ g : Generator, M _ (g.getXregs (if part = .prefixPart then (10, 15) else (0, 31))
      (w.tpe ≠ .none)) fun r => X r.1)
    (hf : ∀ g : Generator, M _ g.getFregs fun r => F r.1)
    (hi : ∀ g : Generator, ∀ i ∈ w.imms, M _ (g.getImm i.1 i.2) fun r => I i r.1)
    (hs : M _ (Generator.getSymbol w.tpe w.label maxLabel part) S) (g : Generator) :
    M _ (g.populateWord w maxLabel part) fun r =>
      ∃ vals, w.populate vals part = .ok r.1 ∧ Filling w X F I S vals := by
  unfold Generator.populateWord
  rw [hw, if_neg (by decide)]
  refine hM.bind (fill_logic hM (Q := fun _ v => X v) (fun g _ _ => hx g) g Dict.empty) fun r₁ h₁ => ?_
  refine hM.bind (fill_logic hM (Q := fun _ v => F v) (fun g _ _ => hf g) r₁.2 r₁.1) fun r₂ h₂ => ?_
  refine hM.bind (fill_logic hM (Q := I) hi r₂.2 r₂.1) fun r₃ h₃ => ?_
  refine hM.bind (fill_logic hM (Q := fun _ v => S v)
    (fun g _ _ => hM.bind hs fun v hv => hM.pure hv) r₃.2 r₃.1) fun r₄ h₄ => ?_
  have hfill : Filling w X F I S r₄.1 := by
    obtain ⟨⟨hall₁, -⟩, hent₁⟩ := h₁
    obtain ⟨⟨hall₂, hkeep₂⟩, hent₂⟩ := h₂
    obtain ⟨⟨hall₃, hkeep₃⟩, hent₃⟩ := h₃
    obtain ⟨⟨hall₄, hkeep₄⟩, hent₄⟩ := h₄
    constructor
    · intro a ha
      rw [Word.operands, List.mem_append, List.mem_append, List.mem_append] at ha
      rcases ha with ((ha | ha) | ha) | ha
      · exact hkeep₄ _ (hkeep₃ _ (hkeep₂ _ (hall₁ a ha)))
      · exact hkeep₄ _ (hkeep₃ _ (hall₂ a ha))
      · obtain ⟨i, hi, rfl⟩ := List.mem_map.mp ha
        exact hkeep₄ _ (hall₃ i hi)
      · exact hall₄ a ha
    · intro e he
      rcases hent₄ e he with he | ⟨a, ha, hk, hv⟩
      · rcases hent₃ e he with he | ⟨i, hi, hk, hv⟩
        · rcases hent₂ e he with he | ⟨a, ha, hk, hv⟩
          · rcases hent₁ e he with he | ⟨a, ha, hk, hv⟩
            · cases he
            · exact .inl ⟨hk ▸ ha, hv⟩
          · exact .inr (.inl ⟨hk ▸ ha, hv⟩)
        · exact .inr (.inr (.inl ⟨i, hi, hk, hv⟩))
      · exact .inr (.inr (.inr ⟨hk ▸ ha, hv⟩))
  obtain ⟨w', hw'⟩ := populate_ok part hne hfill.all
  exact hM.bind (hM.lift hw' (P := fun w' => w.populate r₄.1 part = .ok w') hw') fun w' hw' =>
    hM.pure ⟨r₄.1, hw', hfill⟩

/-- The values of a word are free of placeholders if the values of each kind are. -/
theorem Filling.valuesOk {w : Word} {X F : Text → Prop} {I : Text × Nat → Text → Prop} {S : Text → Prop}
    {vals : Dict Text Text} (h : Filling w X F I S vals) (hx : ∀ v, X v → NoPlaceholder v)
    (hf : ∀ v, F v → NoPlaceholder v) (hi : ∀ i v, I i v → NoPlaceholder v)
    (hs : ∀ v, S v → NoPlaceholder v) : Values w.operands vals.entries := by
  constructor
  · intro e he
    simp only [Word.operands, List.mem_append]
    rcases h.entries e he with h | h | ⟨i, hi, hk, -⟩ | h
    · exact .inl (.inl (.inl h.1))
    · exact .inl (.inl (.inr h.1))
    · exact .inl (.inr (List.mem_map.mpr ⟨i, hi, hk.symm⟩))
    · exact .inr h.1
  · intro e he
    rcases h.entries e he with h | h | ⟨i, -, -, h⟩ | h
    · exact hx _ h.2
    · exact hf _ h.2
    · exact hi i _ h
    · exact hs _ h.2

end Difuzz.Mutator
