/-
  File:      DifuzzRtl/Mutator/DataAccess.lean
  Subject:   The loads, stores and atomics that `word_mem_r`, `word_mem_w` and `word_atomic` write, and
             the data sections that they access.

  * `Accesses` -- the instructions of the three handlers.
  * `accessAddress` -- the address of the access of a word: its instructions `la` and `addi` are run, and
    the last one has its offset added to its base register.
  * `accessAddress_populated` -- with symbol `d_n_k` it is at most 31 bytes away from the label.
  * `dataAccesses_inside` -- so that sixteen bytes from there on are in the section.
-/
import DifuzzRtl.Mutator.Sections
import DifuzzRtl.Mutator.Totality

namespace Difuzz.Mutator

open Text

/-! ## 1. The words -/

def loads : List String := ["lb", "lh", "lw", "ld", "lbu", "lhu", "lwu", "flw", "fld", "flq"]

def stores : List String := ["sb", "sh", "sw", "sd", "fsw", "fsd", "fsq"]

def atomics : List String := (rv32aRtype ++ rv64aRtype).map (·.name)

/-- The handlers of memory accesses, with their instructions. -/
inductive Accesses : String → Handler → Prop where
  | load {n : String} (h : n ∈ loads) : Accesses n wordMemR
  | store {n : String} (h : n ∈ stores) : Accesses n wordMemW
  | atomic {n : String} (h : n ∈ atomics) : Accesses n wordAtomic

/-- These are the handlers that `opcodes_words` has for them. -/
theorem opcodesWords_of_accesses {n : String} {h : Handler} (ha : Accesses n h) :
    opcodesWords n = some h := by
  cases ha with
  | load hn =>
      simp only [loads, List.mem_cons, List.not_mem_nil, or_false] at hn
      rcases hn with rfl | rfl | rfl | rfl | rfl | rfl | rfl | rfl | rfl | rfl
      all_goals rfl
  | store hn =>
      simp only [stores, List.mem_cons, List.not_mem_nil, or_false] at hn
      rcases hn with rfl | rfl | rfl | rfl | rfl | rfl | rfl
      all_goals rfl
  | atomic hn =>
      have hno : ∀ n ∈ atomics, ¬ (n = "jal") ∧ ¬ (n = "jalr") ∧
          (rv32iBtype.map (·.name)).contains n = false ∧ ["mret", "sret", "uret"].contains n = false ∧
          loads.contains n = false ∧ stores.contains n = false ∧ atomics.contains n = true := by
        decide
      obtain ⟨h₁, h₂, h₃, h₄, h₅, h₆, h₇⟩ := hno n hn
      simp only [loads, stores, atomics] at h₅ h₆ h₇
      unfold opcodesWords
      rw [if_neg h₁, if_neg h₂, h₃, h₄, h₅, h₆, h₇]
      rfl

/-- The operand of an access: an immediate and a register, or a register. -/
def accessOperand (n : String) : Text :=
  if n ∈ atomics then " (xreg1)".toList else " imm6(xreg1)".toList

/-- The forms of the accesses. -/
structure Opcode.AccessForm (o : Opcode) : Prop where
  fregs : ∀ x ∈ o.fregs, x = "freg0"
  imms : ∀ i ∈ o.imms, i.1 = "imm6"
  symbols : o.symbols = []
  xregs : ∀ x ∈ o.xregs, x ∈ ["xreg0", "xreg1", "xreg2"]
  base : "xreg1" ∈ o.xregs
  front : '(' ∉ (asciiText o.form).take ((asciiText o.form).length - (accessOperand o.name).length) ∧
    ':' ∉ (asciiText o.form).take ((asciiText o.form).length - (accessOperand o.name).length)
  operand : (asciiText o.form).drop ((asciiText o.form).length - (accessOperand o.name).length) =
    accessOperand o.name
  offset : o.name ∉ atomics → "imm6" ∈ o.imms.map (·.1)

instance (o : Opcode) : Decidable o.AccessForm :=
  decidable_of_iff (_ ∧ _ ∧ _ ∧ _ ∧ _ ∧ _ ∧ _ ∧ _)
    ⟨fun ⟨h₁, h₂, h₃, h₄, h₅, h₆, h₇, h₈⟩ => ⟨h₁, h₂, h₃, h₄, h₅, h₆, h₇, h₈⟩,
     fun h => ⟨h.fregs, h.imms, h.symbols, h.xregs, h.base, h.front, h.operand, h.offset⟩⟩

theorem instructions_accessForm : ∀ o ∈ instructions, o.name ∈ loads ++ stores ++ atomics →
    o.AccessForm := by
  decide +kernel

/-! ## 2. Running a word -/

/-- The instruction of a line, behind its label. -/
def instOf (line : Text) : Text := if ':' ∈ line then (line.dropWhile (· != ':')).drop 1 else line

/-- A register is written, `x0` is not. -/
def setReg (regs : Text → Int) (rd : Text) (v : Int) : Text → Int :=
  fun r => if r = rd ∧ rd ≠ ['x', '0'] then v else regs r

/-- `la` and `addi`, with the addresses of the symbols. -/
def execLine (addr regs : Text → Int) (line : Text) : Text → Int :=
  match words isSep (instOf line) with
  | [mnemonic, rd, a] => if mnemonic = "la".toList then setReg regs rd (addr a) else regs
  | [mnemonic, rd, rs, i] =>
      if mnemonic = "addi".toList then setReg regs rd (regs rs + (pyInt 10 i).getD 0) else regs
  | _ => regs

/-- The register in the parentheses. -/
def baseOf (inst : Text) : Text := (words isSep (inst.dropWhile (· != '('))).headD []

/-- The immediate in front of them, or zero. -/
def offsetOf (inst : Text) : Int :=
  (pyInt 10 ((tokens isSep (inst.takeWhile (· != '('))).getLast?.getD [])).getD 0

/-- The address that the last instruction of a word accesses. -/
def accessAddress (addr regs : Text → Int) (lines : List Text) : Int :=
  let inst := instOf (lines.getLastD [])
  lines.dropLast.foldl (execLine addr) regs (baseOf inst) + offsetOf inst

/-- The symbol that the first line of a word loads. -/
def symbolOf (lines : List Text) : Text := (words isSep (instOf (lines.headD []))).getLast?.getD []

/-- The label column in front of an instruction. -/
theorem instOf_label (part : Part) (label : Int) {t : Text} :
    words isSep (instOf (labelCol part label ++ t)) = words isSep t := by
  have hcolon : ':' ∉ part.text ++ intText label := by
    have hp : ':' ∉ part.text := by cases part <;> decide
    have hi : ':' ∉ intText label := (clean_intText label).1.2
    simp [hp, hi]
  have hcol : labelCol part label ++ t = (part.text ++ intText label) ++ ':' ::
      (List.replicate (8 - (part.text ++ intText label ++ [':']).length) ' ' ++ t) := by
    simp [labelCol, ljust]
  have hdrop : ((part.text ++ intText label) ++ ':' ::
      (List.replicate (8 - (part.text ++ intText label ++ [':']).length) ' ' ++ t)).dropWhile (· != ':') =
      ':' :: (List.replicate (8 - (part.text ++ intText label ++ [':']).length) ' ' ++ t) := by
    rw [List.dropWhile_append_of_pos]
    · simp
    · intro c hc
      simpa using fun e : c = ':' => hcolon (e ▸ hc)
  rw [instOf, if_pos (by rw [hcol]; simp), hcol, hdrop, List.drop_one, List.tail_cons]
  exact words_replicate_append (by decide) _ t

theorem instOf_plain {t : Text} (h : ':' ∉ t) : instOf t = t := if_neg h

/-! ## 3. The lines of a populated access -/

section Lines

variable {names : List Text} {es : List (Text × Text)} (hn : NamesOk names) (hv : Values names es)
  (hall : ∀ a ∈ names, a ∈ es.map (·.1)) (hu : ∀ e ∈ es, Unseparated isSep e.2 ∧ e.2 ≠ [])

include hn hv hall hu

theorem fillIn_name_unseparated {a : Text} (ha : a ∈ names) :
    Unseparated isSep (fillIn es a) ∧ fillIn es a ≠ [] :=
  hu _ (hv.fillIn_operand hn (hall a ha))

/-- The words of an instruction are filled in one by one. -/
theorem words_fillIn {t : Text} (ht : LineOk names t) :
    words isSep (fillIn es t) = (words isSep t).map (fillIn es) := by
  have hne : ∀ a ∈ tokens isSep t, (fillIn es a ≠ [] ↔ a ≠ []) ∧ Unseparated isSep (fillIn es a) := by
    intro a ha
    rcases ht a ha with hname | hfree
    · obtain ⟨hsep, hnil⟩ := fillIn_name_unseparated hn hv hall hu hname
      exact ⟨⟨fun _ => (wordNames_ok a (hn.known a hname)).1, fun _ => hnil⟩, hsep⟩
    · rw [hv.fillIn_noPlaceholder hn hfree]
      exact ⟨Iff.rfl, unseparated_of_mem_tokens ha⟩
  have htokens := (hv.tokenwise hn).tokens_eq (t := t) fun a ha => (hne a ha).2
  rw [words, htokens, words, List.filter_map]
  congr 1
  refine List.filter_congr fun a ha => ?_
  have hiff := not_iff_not.mp (by simpa using (hne a ha).1 : ¬ fillIn es a = [] ↔ ¬ a = [])
  simp [hiff]

omit hn hv hall in
theorem char_not_mem_fillIn {t : Text} {c : Char} (hc : isSep c = true) (ht : c ∉ t) :
    c ∉ fillIn es t := by
  intro hm
  rcases mem_fillIn hm with hm | ⟨e, he, hm⟩
  · exact ht hm
  · rw [(hu e he).1 c hm] at hc
    cases hc

/-- A line of a populated word, but for the column in front. -/
theorem words_body {t : Text} (ht : LineOk names t) :
    words isSep (ljust 42 (fillIn es t)) = (words isSep t).map (fillIn es) := by
  rw [ljust, words_append_replicate (by decide), words_fillIn hn hv hall hu ht]

/-- **The operand of the last line**, for any text in front of it. -/
theorem operand_body {a : Text} (hfront : '(' ∉ a) (hx : "xreg1".toList ∈ names) (o : Text)
    (ho : o = [] ∨ o ∈ names) :
    baseOf (ljust 8 [] ++ ljust 42 (fillIn es (a ++ ' ' :: (o ++ "(xreg1)".toList)))) =
        fillIn es "xreg1".toList ∧
      offsetOf (ljust 8 [] ++ ljust 42 (fillIn es (a ++ ' ' :: (o ++ "(xreg1)".toList)))) =
        (pyInt 10 (fillIn es o)).getD 0 := by
  have hwise := hv.tokenwise hn
  obtain ⟨hr, hrne⟩ := fillIn_name_unseparated hn hv hall hu hx
  have hnil : fillIn es [] = [] := hv.fillIn_noPlaceholder hn (by decide)
  have hou : Unseparated isSep (fillIn es o) := by
    rcases ho with rfl | ho
    · rw [hnil]
      exact fun c hc => (nomatch hc)
    · exact (fillIn_name_unseparated hn hv hall hu ho).1
  have hoparen : '(' ∉ fillIn es o := fun hm => absurd (hou _ hm) (by decide)
  have haparen : '(' ∉ fillIn es a := char_not_mem_fillIn hu (by decide) hfront
  -- the line, taken apart at the parenthesis
  let body := fillIn es (a ++ ' ' :: (o ++ "(xreg1)".toList))
  have hbody : body = (fillIn es a ++ ' ' :: fillIn es o) ++ '(' :: (fillIn es "xreg1".toList ++ [')']) := by
    have h₁ : fillIn es (a ++ ' ' :: (o ++ "(xreg1)".toList)) =
        fillIn es a ++ ' ' :: fillIn es (o ++ "(xreg1)".toList) := hwise ' ' (by decide) _ _
    have h₂ : fillIn es (o ++ "(xreg1)".toList) = fillIn es o ++ '(' :: fillIn es "xreg1)".toList :=
      hwise '(' (by decide) o "xreg1)".toList
    have h₃ : fillIn es "xreg1)".toList = fillIn es "xreg1".toList ++ ')' :: fillIn es [] :=
      hwise ')' (by decide) "xreg1".toList []
    show fillIn es _ = _
    rw [h₁, h₂, h₃, hnil]
    simp
  have hline : ljust 8 [] ++ ljust 42 body = (List.replicate 8 ' ' ++ fillIn es a ++ ' ' :: fillIn es o) ++
      '(' :: (fillIn es "xreg1".toList ++ ')' :: List.replicate (42 - body.length) ' ') := by
    rw [ljust, ljust, hbody]
    simp
  have hparen : '(' ∉ List.replicate 8 ' ' ++ fillIn es a ++ ' ' :: fillIn es o := by
    simp only [List.mem_append, List.mem_cons, List.mem_replicate, not_or]
    exact ⟨⟨fun h => absurd h.2 (by decide), haparen⟩, by decide, hoparen⟩
  constructor
  · have hdrop : (ljust 8 [] ++ ljust 42 body).dropWhile (· != '(') =
        '(' :: (fillIn es "xreg1".toList ++ ')' :: List.replicate (42 - body.length) ' ') := by
      rw [hline, List.dropWhile_append_of_pos]
      · simp
      · intro c hc
        simpa using fun e : c = '(' => hparen (e ▸ hc)
    have hwords : words isSep ('(' :: (fillIn es "xreg1".toList ++
        ')' :: List.replicate (42 - body.length) ' ')) =
        fillIn es "xreg1".toList :: words isSep (List.replicate (42 - body.length) ' ') := by
      have h := @words_append isSep '(' (by decide) [] (fillIn es "xreg1".toList ++
        ')' :: List.replicate (42 - body.length) ' ')
      rw [words_append (c := ')') (by decide), words_unseparated hr hrne] at h
      exact h
    show baseOf (ljust 8 [] ++ ljust 42 body) = _
    rw [baseOf, hdrop, hwords]
    rfl
  · have htake : (ljust 8 [] ++ ljust 42 body).takeWhile (· != '(') =
        List.replicate 8 ' ' ++ fillIn es a ++ ' ' :: fillIn es o := by
      rw [hline]
      exact takeWhile_mark hparen
    show offsetOf (ljust 8 [] ++ ljust 42 body) = _
    rw [offsetOf, htake, tokens_append (by decide), tokens_unseparated hou, List.getLast?_append]
    rfl

end Lines

/-! ## 4. The values of the operands -/

/-- A value that stays one operand. -/
structure Fits (v : Text) : Prop where
  noPlaceholder : NoPlaceholder v
  one : Unseparated isSep v
  nonempty : v ≠ []

theorem unseparated_intText (n : Int) : Unseparated isSep (intText n) := by
  have hd : ∀ n, Unseparated isSep (digits 10 n) := by
    intro n c hc
    have hdig : ∀ c ∈ [' ', ',', '(', ')', ':'], c ∉ digits 10 n := by
      intro c hc
      refine not_mem_digits ?_ n
      revert hc
      revert c
      decide
    by_contra hsep
    rw [Bool.not_eq_false] at hsep
    refine hdig c ?_ hc
    simpa [isSep, or_assoc] using hsep
  cases n with
  | ofNat n => exact hd n
  | negSucc n =>
      intro c hc
      rcases List.mem_cons.mp hc with rfl | hc
      · decide
      · exact hd _ c hc

theorem Fits.prefixed {t : Text} (ht : Inert t) (hs : Unseparated isSep t) (n : Int) :
    Fits (t ++ intText n) where
  noPlaceholder := (ht.append (inert_intText n)).noPlaceholder
  one := fun c hc => (List.mem_append.mp hc).elim (hs c) (unseparated_intText n c)
  nonempty := fun h => by
    have hnil : intText n = [] := (List.append_eq_nil_iff.mp h).2
    cases n with
    | ofNat n => exact Nat.toDigits_ne_nil hnil
    | negSucc n => cases hnil

theorem ensures_getXregs_nonzero (g : Generator) (region : Nat × Nat) :
    Ensures (g.getXregs region true) fun r => Fits r.1 ∧ r.1 ≠ ['x', '0'] := by
  have hreg : ∀ n : Nat, n ≠ 0 → Fits ('x' :: digits 10 n) ∧ 'x' :: digits 10 n ≠ ['x', '0'] := by
    intro n hn
    refine ⟨Fits.prefixed (t := ['x']) (by decide) (by decide) n, fun h => hn ?_⟩
    have hv := congrArg (digitsValue 10 0) (List.cons.inj h).2
    rw [digitsValue_digits (by decide) (by decide)] at hv
    exact Option.some.inj hv
  refine Ensures.bind' fun r => Ensures.ite (fun _ => ?_) fun hn => Ensures.pure (hreg _ ?_)
  · refine (ensures_choice _).bind fun n hn => Ensures.pure (hreg n fun h => ?_)
    subst h
    revert hn
    decide
  · exact fun h => hn ⟨rfl, h⟩

theorem ensures_getFregs_fits (g : Generator) : Ensures g.getFregs fun r => Fits r.1 :=
  Ensures.bind' fun _ => Ensures.ite
    (fun _ => Ensures.bind' fun n => Ensures.pure (Fits.prefixed (t := ['f']) (by decide) (by decide) n))
    fun _ => Ensures.bind' fun n => Ensures.pure (Fits.prefixed (t := ['f']) (by decide) (by decide) n)

/-- The immediates of the accesses: at most 31 up or down. -/
theorem ensures_getImm_imm6 (g : Generator) {align : Nat} (h : ImmOk ("imm6".toList, align)) :
    Ensures (g.getImm "imm6".toList align) fun r =>
      Fits r.1 ∧ ∃ i, pyInt 10 r.1 = some i ∧ -31 ≤ i ∧ i ≤ 31 := by
  have hmask : Generator.immMask "imm6".toList align = .ok (31 - 31 % align) :=
    immMask_imm (n := 6) (by decide) align
  refine Returns.ensures ((returns_getImm_value g h.1 hmask).mono fun r hr => ?_)
  obtain ⟨sign, q, hsign, hval⟩ := hr
  have hle : (31 - 31 % align) &&& q ≤ 31 := Nat.and_le_left.trans (Nat.sub_le _ _)
  rw [hval]
  rcases hsign with rfl | ⟨rfl, -⟩
  · exact ⟨Fits.prefixed (t := []) (by decide) (by decide) (Int.ofNat _), _, pyInt_intText _, by omega,
      by omega⟩
  · exact ⟨Fits.prefixed (t := ['-']) (by decide) (by decide) (Int.ofNat _), _, pyInt_neg_digits _,
      by omega, by omega⟩

/-- The symbols: a label of the sections is one of the first 28 of the six. -/
theorem ensures_getSymbol_fits (tpe : Tpe) (label maxLabel : Int) (part : Part) :
    Ensures (Generator.getSymbol tpe label maxLabel part) fun v =>
      Fits v ∧ ∀ n k, v = dataLabel n k → n ≤ 5 ∧ k ≤ 27 := by
  have hdata : Ensures (do
      let i ← randnat 0 5
      let j ← randnat 0 27
      return ['d', '_'] ++ digits 10 i ++ ['_'] ++ digits 10 j : Rand Text)
      fun v => Fits v ∧ ∀ n k, v = dataLabel n k → n ≤ 5 ∧ k ≤ 27 := by
    refine (ensures_randnat 0 5).bind fun i hi => (ensures_randnat 0 27).bind fun j hj => Ensures.pure ?_
    constructor
    · have hi' : ∀ i ≤ 5, Inert (['d', '_'] ++ digits 10 i ++ ['_']) ∧
          Unseparated isSep (['d', '_'] ++ digits 10 i ++ ['_']) := by decide
      exact Fits.prefixed (hi' i hi.2).1 (hi' i hi.2).2 j
    · intro n k h
      obtain ⟨rfl, rfl⟩ := dataLabel_injective (show dataLabel i j = dataLabel n k from h)
      exact ⟨hi.2, hj.2⟩
  have hlabel : ∀ lo, Ensures (do return part.text ++ intText (← randint lo maxLabel))
      fun v => Fits v ∧ ∀ n k, v = dataLabel n k → n ≤ 5 ∧ k ≤ 27 := by
    refine fun lo => Ensures.bind' fun m => Ensures.pure ⟨?_, fun n k h => ?_⟩
    · exact Fits.prefixed (by cases part <;> decide) (by cases part <;> decide) m
    · cases part <;> cases h
  unfold Generator.getSymbol
  split
  · exact hdata
  · exact Ensures.bind' fun p => Ensures.ite (fun _ => hlabel 0) fun _ => hdata
  · exact hlabel _

/-! ## 5. Populated accesses -/

/-- The word that `get_word` makes of a shape. -/
def Shape.word (s : Shape) (label : Int) : Word :=
  { label, insts := s.insts, tpe := s.tpe, xregs := s.ops.xregs, fregs := s.ops.fregs, imms := s.ops.imms,
    symbols := s.ops.symbols }

/-- The operands of an access. -/
structure AccessOps (ops : Operands) : Prop where
  xregs : ∀ x ∈ ops.xregs, x ∈ ["xreg0", "xreg1", "xreg2"].map String.toList
  fregs : ∀ x ∈ ops.fregs, x = "freg0".toList
  imms : ∀ i ∈ ops.imms, i.1 = "imm6".toList
  symbols : ∀ s ∈ ops.symbols, s = "symbol".toList
  base : "xreg1".toList ∈ ops.xregs
  symbol : "symbol".toList ∈ ops.symbols

/-- A shape of the handlers without the masking of the address. -/
structure AccessShape (o : Opcode) (s : Shape) : Prop where
  fillable : s.Fillable
  typed : s.tpe ≠ .none
  ops : AccessOps s.ops
  insts : s.insts = "la xreg1, symbol".toList ::
    ((if o.name ∈ atomics then ["addi xreg1, xreg1, imm6".toList] else []) ++ [o.form.toList])
  imm : "imm6".toList ∈ s.ops.imms.map (·.1)

/-- The values of a populated access. -/
structure AccessValues (names : List Text) (es : List (Text × Text)) : Prop where
  known : NamesOk names
  values : Values names es
  all : ∀ a ∈ names, a ∈ es.map (·.1)
  fits : ∀ e ∈ es, Unseparated isSep e.2 ∧ e.2 ≠ []
  has : "xreg1".toList ∈ names ∧ "symbol".toList ∈ names ∧ "imm6".toList ∈ names
  base : fillIn es "xreg1".toList ≠ ['x', '0']
  symbol : ∀ n k, fillIn es "symbol".toList = dataLabel n k → n ≤ 5 ∧ k ≤ 27
  offset : ∃ i, pyInt 10 (fillIn es "imm6".toList) = some i ∧ -31 ≤ i ∧ i ≤ 31

/-- **Populating an access** gives it a base register that is written, a symbol and an offset. -/
theorem ensures_populate_access {o : Opcode} {s : Shape} (hs : AccessShape o s) (label maxLabel : Int)
    (part : Part) (g : Generator) :
    Ensures (g.populateWord (s.word label) maxLabel part) fun r =>
      ∃ es, AccessValues s.ops.names es ∧
        r.1.retInsts = wordLines (labelCol part label) (s.insts.map fun i => ljust 42 (fillIn es i)) := by
  have htyped : decide ((s.word label).tpe ≠ .none) = true := decide_eq_true hs.typed
  refine (populateWord_logic Ensures.logic (w := s.word label)
    (X := fun v => Fits v ∧ v ≠ ['x', '0']) (F := Fits)
    (I := fun i v => Fits v ∧ ∃ n, pyInt 10 v = some n ∧ -31 ≤ n ∧ n ≤ 31)
    (S := fun v => Fits v ∧ ∀ n k, v = dataLabel n k → n ≤ 5 ∧ k ≤ 27) rfl hs.fillable.nonempty
    (fun g => htyped ▸ ensures_getXregs_nonzero g _) ensures_getFregs_fits (fun g i hi => ?_)
    (ensures_getSymbol_fits _ _ _ _) g).mono ?_
  · have hname : i = ("imm6".toList, i.2) := Prod.ext (hs.ops.imms i hi) rfl
    have hok := hs.fillable.imms i hi
    rw [hname] at hok ⊢
    exact ensures_getImm_imm6 g hok
  · intro r hr
    obtain ⟨vals, hpop, hfill⟩ := hr
    have hvals : Values s.ops.names vals.entries := hfill.valuesOk (fun _ h => h.1.noPlaceholder)
      (fun _ h => h.noPlaceholder) (fun _ _ h => h.1.noPlaceholder) (fun _ h => h.1.noPlaceholder)
    have hall : ∀ a ∈ s.ops.names, a ∈ vals.entries.map (·.1) := fun a ha =>
      Dict.get?_isSome_iff.mp (Option.isSome_iff_exists.mp (hfill.all a ha))
    obtain ⟨hprints, hlabel, -, -⟩ := Word.populate_prints hpop rfl
    have hlines := hprints.lines
    rw [hlabel] at hlines
    have hnames : ∀ a, a ∈ s.ops.names ↔ ((a ∈ s.ops.xregs ∨ a ∈ s.ops.fregs) ∨
        a ∈ s.ops.imms.map (·.1)) ∨ a ∈ s.ops.symbols := fun a => by simp only [Operands.names, List.mem_append]
    have hxname : "xreg1".toList ∈ s.ops.names := (hnames _).mpr (.inl (.inl (.inl hs.ops.base)))
    have hsname : "symbol".toList ∈ s.ops.names := (hnames _).mpr (.inr hs.ops.symbol)
    have hiname : "imm6".toList ∈ s.ops.names := (hnames _).mpr (.inl (.inr hs.imm))
    -- the kind of an operand is known by its name
    have hentry : ∀ a ∈ s.ops.names, (a, fillIn vals.entries a) ∈ vals.entries := fun a ha =>
      hvals.fillIn_operand hs.fillable.names (hall a ha)
    have hxs : ∀ a ∈ ["xreg0", "xreg1", "xreg2"].map String.toList,
        a ≠ "freg0".toList ∧ a ≠ "imm6".toList ∧ a ≠ "symbol".toList := by decide
    have hx₁ : "xreg1".toList ∈ ["xreg0", "xreg1", "xreg2"].map String.toList := by decide
    have hapart : "symbol".toList ≠ "freg0".toList ∧ "symbol".toList ≠ "imm6".toList ∧
        "imm6".toList ≠ "freg0".toList := by decide
    refine ⟨vals.entries, ⟨hs.fillable.names, hvals, hall, fun e he => ?_, ⟨hxname, hsname, hiname⟩, ?_, ?_,
      ?_⟩, hlines⟩
    · rcases hfill.entries e he with h | h | ⟨i, -, -, h⟩ | h
      · exact ⟨h.2.1.one, h.2.1.nonempty⟩
      · exact ⟨h.2.one, h.2.nonempty⟩
      · exact ⟨h.1.one, h.1.nonempty⟩
      · exact ⟨h.2.1.one, h.2.1.nonempty⟩
    · rcases hfill.entries _ (hentry _ hxname) with h | h | ⟨i, hi, hk, -⟩ | h
      · exact h.2.2
      · exact absurd (hs.ops.fregs _ h.1) (hxs _ hx₁).1
      · exact absurd (hk.trans (hs.ops.imms i hi)) (hxs _ hx₁).2.1
      · exact absurd (hs.ops.symbols _ h.1) (hxs _ hx₁).2.2
    · rcases hfill.entries _ (hentry _ hsname) with h | h | ⟨i, hi, hk, -⟩ | h
      · exact absurd rfl (hxs _ (hs.ops.xregs _ h.1)).2.2
      · exact absurd (hs.ops.fregs _ h.1) hapart.1
      · exact absurd (hk.trans (hs.ops.imms i hi)) hapart.2.1
      · exact h.2.2
    · rcases hfill.entries _ (hentry _ hiname) with h | h | ⟨i, -, -, h⟩ | h
      · exact absurd rfl (hxs _ (hs.ops.xregs _ h.1)).2.1
      · exact absurd (hs.ops.fregs _ h.1) hapart.2.2
      · exact h.2
      · exact absurd (hs.ops.symbols _ h.1).symm hapart.2.1

/-- The operand at the end of the form of an access. -/
def accessOffset (n : String) : Text := if n ∈ atomics then [] else "imm6".toList

theorem Opcode.AccessForm.form_eq {o : Opcode} (ho : o ∈ instructions) (h : o.AccessForm) :
    ∃ a, o.form.toList = a ++ ' ' :: (accessOffset o.name ++ "(xreg1)".toList) ∧ '(' ∉ a ∧ ':' ∉ a := by
  have hform : o.form.toList = asciiText o.form :=
    toList_eq_asciiText fun b hb => (instructions_checked o ho).ascii b (List.mem_append_right _ hb)
  have hoperand : accessOperand o.name = ' ' :: (accessOffset o.name ++ "(xreg1)".toList) := by
    unfold accessOperand accessOffset
    split
    · rfl
    · rfl
  refine ⟨_, ?_, h.front⟩
  calc o.form.toList = asciiText o.form := hform
    _ = _ := (List.take_append_drop _ _).symm
    _ = _ := by rw [h.operand, hoperand]

section Run

variable {names : List Text} {es : List (Text × Text)} (hv : AccessValues names es) (addr regs : Text → Int)

include hv

theorem words_la (part : Part) (label : Int) :
    words isSep (instOf (labelCol part label ++ ljust 42 (fillIn es "la xreg1, symbol".toList))) =
      ["la".toList, fillIn es "xreg1".toList, fillIn es "symbol".toList] := by
  have hline : LineOk names "la xreg1, symbol".toList := lineOk_la hv.has.1 hv.has.2.1
  have hwords : words isSep "la xreg1, symbol".toList = ["la".toList, "xreg1".toList, "symbol".toList] := by
    decide
  rw [instOf_label, words_body hv.known hv.values hv.all hv.fits hline, hwords, List.map_cons,
    hv.values.fillIn_noPlaceholder hv.known (by decide : NoPlaceholder "la".toList)]
  rfl

/-- `la` writes the address of the symbol to the base register. -/
theorem execLine_la (part : Part) (label : Int) :
    execLine addr regs (labelCol part label ++ ljust 42 (fillIn es "la xreg1, symbol".toList))
      (fillIn es "xreg1".toList) = addr (fillIn es "symbol".toList) := by
  unfold execLine
  rw [words_la hv]
  dsimp only
  rw [if_pos rfl, setReg, if_pos ⟨rfl, hv.base⟩]

theorem instOf_fillIn {t : Text} (ht : ':' ∉ t) :
    instOf (ljust 8 [] ++ ljust 42 (fillIn es t)) = ljust 8 [] ++ ljust 42 (fillIn es t) := by
  refine instOf_plain fun hm => ?_
  have hfill : ':' ∉ fillIn es t := char_not_mem_fillIn hv.fits (by decide) ht
  simp only [ljust, List.mem_append, List.mem_replicate, List.not_mem_nil, false_or] at hm
  rcases hm with ⟨-, hm⟩ | hm | ⟨-, hm⟩
  · exact absurd hm (by decide)
  · exact hfill hm
  · exact absurd hm (by decide)

/-- `addi` adds the immediate to it. -/
theorem execLine_addi :
    execLine addr regs (ljust 8 [] ++ ljust 42 (fillIn es "addi xreg1, xreg1, imm6".toList))
      (fillIn es "xreg1".toList) =
      regs (fillIn es "xreg1".toList) + (pyInt 10 (fillIn es "imm6".toList)).getD 0 := by
  have hline : LineOk names "addi xreg1, xreg1, imm6".toList := by
    have h : LineOk ["xreg1".toList, "imm6".toList] "addi xreg1, xreg1, imm6".toList := by decide
    exact h.mono (forall_mem_pair hv.has.1 hv.has.2.2)
  have hwords : words isSep "addi xreg1, xreg1, imm6".toList =
      ["addi".toList, "xreg1".toList, "xreg1".toList, "imm6".toList] := by
    decide
  have hall : words isSep (instOf (ljust 8 [] ++ ljust 42 (fillIn es "addi xreg1, xreg1, imm6".toList))) =
      ["addi".toList, fillIn es "xreg1".toList, fillIn es "xreg1".toList, fillIn es "imm6".toList] := by
    rw [instOf_fillIn hv (by decide)]
    show words isSep (List.replicate 8 ' ' ++ _) = _
    rw [words_replicate_append (by decide), words_body hv.known hv.values hv.all hv.fits hline, hwords,
      List.map_cons, hv.values.fillIn_noPlaceholder hv.known (by decide : NoPlaceholder "addi".toList)]
    rfl
  unfold execLine
  rw [hall]
  dsimp only
  rw [if_pos rfl, setReg, if_pos ⟨rfl, hv.base⟩]

/-- **A populated access** goes to its symbol, and its immediate away from it. -/
theorem accessAddress_populated {o : Opcode} {s : Shape} (ho : o ∈ instructions) (hf : o.AccessForm)
    (hs : AccessShape o s) (part : Part) (label : Int) :
    symbolOf (wordLines (labelCol part label) (s.insts.map fun i => ljust 42 (fillIn es i))) =
        fillIn es "symbol".toList ∧
      accessAddress addr regs
          (wordLines (labelCol part label) (s.insts.map fun i => ljust 42 (fillIn es i))) =
        addr (fillIn es "symbol".toList) + (pyInt 10 (fillIn es "imm6".toList)).getD 0 := by
  obtain ⟨a, hform, hparen, hcolon⟩ := hf.form_eq ho
  have hno : ':' ∉ o.form.toList := by
    rw [hform]
    have hoff : ':' ∉ accessOffset o.name := by
      unfold accessOffset
      split <;> decide
    simp [hcolon, hoff]
  have hoff : accessOffset o.name = [] ∨ accessOffset o.name ∈ names := by
    unfold accessOffset
    split
    · exact .inl rfl
    · exact .inr hv.has.2.2
  obtain ⟨hbase, hoffset⟩ := operand_body hv.known hv.values hv.all hv.fits hparen hv.has.1 _ hoff
  rw [← hform] at hbase hoffset
  have hlast := instOf_fillIn hv hno
  rw [hs.insts]
  by_cases hat : o.name ∈ atomics
  · rw [if_pos hat]
    constructor
    · show (words isSep (instOf (labelCol part label ++ _))).getLast?.getD [] = _
      rw [words_la hv]
      rfl
    · show execLine addr (execLine addr regs (labelCol part label ++ _)) (ljust 8 [] ++ _)
          (baseOf (instOf (ljust 8 [] ++ _))) + offsetOf (instOf (ljust 8 [] ++ _)) = _
      have hnone : (pyInt 10 (fillIn es (accessOffset o.name))).getD 0 = 0 := by
        rw [accessOffset, if_pos hat, hv.values.fillIn_noPlaceholder hv.known (by decide)]
        rfl
      rw [hlast, hbase, hoffset, hnone, execLine_addi hv, execLine_la hv, Int.add_zero]
  · rw [if_neg hat]
    constructor
    · show (words isSep (instOf (labelCol part label ++ _))).getLast?.getD [] = _
      rw [words_la hv]
      rfl
    · show execLine addr regs (labelCol part label ++ _) (baseOf (instOf (ljust 8 [] ++ _))) +
          offsetOf (instOf (ljust 8 [] ++ _)) = _
      rw [hlast, hbase, hoffset, execLine_la hv, accessOffset, if_neg hat]

end Run

/-! ## 6. Words of the handlers -/

/-- The instruction that starts the masking of the address. -/
def maskInst : Text := "lui xreg2, 0xffe00".toList

theorem ensures_wordMem_unmasked (tpe : Tpe) (prepare : List Text) (form : Text) (ops : Operands) :
    Ensures (wordMem tpe prepare form ops) fun s =>
      maskInst ∉ s.insts → s = ⟨tpe, "la xreg1, symbol".toList :: (prepare ++ [form]), ops.addSymbol⟩ := by
  have hmask : Ensures (maskAddr ops) fun r => maskInst ∈ r.1 ∨ (r.1 = [] ∧ r.2 = ops) :=
    Ensures.bind' fun _ => Ensures.ite (fun _ => Ensures.pure (.inl List.mem_cons_self))
      fun _ => Ensures.pure (.inr ⟨rfl, rfl⟩)
  refine hmask.bind fun r hr => Ensures.pure fun hno => ?_
  rcases hr with hm | ⟨hnil, hops⟩
  · exact absurd (List.mem_cons_of_mem _ (List.mem_append_left _ (List.mem_append_right _ hm))) hno
  · rw [hnil, hops, List.append_nil]

theorem accesses_names : (∀ n ∈ loads ++ stores ++ atomics, n ∈ baseNames ∧ n ∉ argNames) ∧
    (∀ n ∈ loads ++ stores, n ∉ atomics) ∧ ∀ n ∈ atomics, n ∈ immNames :=
  ⟨by decide, by decide, fun _ h => List.mem_cons_of_mem _ h⟩

/-- The operands of the table, with what the handlers add. -/
theorem accessOps_of_form {o : Opcode} (h : o.AccessForm) {more : List (Text × Nat)}
    (hm : ∀ i ∈ more, i.1 = "imm6".toList) :
    AccessOps { Generator.operandsOf o with
      imms := (Generator.operandsOf o).imms ++ more
      symbols := (Generator.operandsOf o).symbols ++ ["symbol".toList] } where
  xregs := fun x hx => by
    obtain ⟨y, hy, rfl⟩ := List.mem_map.mp hx
    exact List.mem_map_of_mem (h.xregs y hy)
  fregs := fun x hx => by
    obtain ⟨y, hy, rfl⟩ := List.mem_map.mp hx
    rw [h.fregs y hy]
  imms := fun i hi => by
    rcases List.mem_append.mp hi with hi | hi
    · obtain ⟨j, hj, rfl⟩ := List.mem_map.mp hi
      exact congrArg String.toList (h.imms j hj)
    · exact hm i hi
  symbols := fun s hs => by
    rcases List.mem_append.mp hs with hs | hs
    · obtain ⟨y, hy, -⟩ := List.mem_map.mp hs
      rw [h.symbols] at hy
      cases hy
    · exact List.mem_singleton.mp hs
  base := List.mem_map_of_mem h.base
  symbol := List.mem_append_right _ List.mem_cons_self

/-- **What the handlers write without the mask.** -/
theorem accessShape_of_run {o : Opcode} {h : Handler} (ho : o ∈ instructions) (ha : Accesses o.name h)
    {shape : Shape} {w w' : World}
    (hrun : h o.name o.form.toList (Generator.operandsOf o) w = .ok (shape, w'))
    (hno : maskInst ∉ shape.insts) : o.AccessForm ∧ AccessShape o shape := by
  obtain ⟨hbase, hplain, himm⟩ := accesses_names
  have hsound := instructions_sound ho
  have hmem : ∀ {l : List String}, (∀ n ∈ l, n ∈ loads ++ stores ++ atomics) → o.name ∈ l →
      o.name ∈ baseNames ∧ o.name ∉ argNames ∧ o.AccessForm := fun hl hn =>
    ⟨(hbase _ (hl _ hn)).1, (hbase _ (hl _ hn)).2, instructions_accessForm o ho (hl _ hn)⟩
  -- a load or a store has its immediate in the table
  have hplainOps : ∀ (_ : o.AccessForm) (_ : o.name ∉ atomics), AccessOps (Generator.operandsOf o).addSymbol ∧
      "imm6".toList ∈ (Generator.operandsOf o).addSymbol.imms.map (·.1) := by
    intro hform hat
    have hops := @accessOps_of_form _ hform [] fun i hi => (nomatch hi)
    rw [List.append_nil] at hops
    obtain ⟨i, hi, he⟩ := List.mem_map.mp (hform.offset hat)
    refine ⟨hops, List.mem_map.mpr ⟨(i.1.toList, i.2), List.mem_map_of_mem hi, ?_⟩⟩
    exact congrArg String.toList he
  cases ha with
  | load hn =>
      obtain ⟨h₁, h₂, hform⟩ := hmem (fun n h => List.mem_append_left _ (List.mem_append_left _ h)) hn
      have hat := hplain _ (List.mem_append_left _ hn)
      have hfill := (total_wordMemR hsound h₁ h₂).ensures _ _ _ hrun
      have hshape := ensures_wordMem_unmasked _ _ _ _ _ _ _ hrun hno
      subst hshape
      obtain ⟨hops, himm₆⟩ := hplainOps hform hat
      exact ⟨hform, hfill, Tpe.noConfusion, hops, by rw [if_neg hat], himm₆⟩
  | store hn =>
      obtain ⟨h₁, h₂, hform⟩ := hmem (fun n h => List.mem_append_left _ (List.mem_append_right _ h)) hn
      have hat := hplain _ (List.mem_append_right _ hn)
      have hfill := (total_wordMemW hsound h₁ h₂).ensures _ _ _ hrun
      have hshape := ensures_wordMem_unmasked _ _ _ _ _ _ _ hrun hno
      subst hshape
      obtain ⟨hops, himm₆⟩ := hplainOps hform hat
      exact ⟨hform, hfill, Tpe.noConfusion, hops, by rw [if_neg hat], himm₆⟩
  | atomic hn =>
      obtain ⟨h₁, h₂, hform⟩ := hmem (fun n h => List.mem_append_right _ h) hn
      have hfill := (total_wordAtomic hsound h₁ (himm _ hn) h₂).ensures _ _ _ hrun
      have hshape := ensures_wordMem_unmasked _ _ _ _ _ _ _ hrun hno
      subst hshape
      refine ⟨hform, hfill, Tpe.noConfusion, ?_, by rw [if_pos hn], ?_⟩
      · exact accessOps_of_form hform fun i hi => by rw [List.mem_singleton.mp hi]
      · exact List.mem_map.mpr ⟨_, List.mem_append_right _ List.mem_cons_self, rfl⟩

/-! ## 7. The accesses and the sections -/

/-- The labels of the sections stand where the sections do. -/
def SectionsPlaced (data : List Int) (base : Nat → Int) (addr : Text → Int) : Prop :=
  ∀ n < 6, ∀ k lines off, sectionText data n = .ok lines → labelOffset (dataLabel n k) 0 lines = some off →
    addr (dataLabel n k) = base n + off

/-- The addresses of the labels, for sections at these places. -/
def labelAddress (data : List Int) (base : Nat → Int) (name : Text) : Int :=
  ((List.range 6).findSome? fun n =>
    ((sectionText data n).toOption.bind (labelOffset name 0)).map fun off : Nat => base n + off).getD 0

theorem definedLabel_of_labelOffset {name : Text} {pos off : Nat} {lines : List Text}
    (h : labelOffset name pos lines = some off) : name ∈ lines.filterMap definedLabel := by
  induction lines generalizing pos with
  | nil => cases h
  | cons line lines ih =>
      unfold labelOffset at h
      split at h
      · rename_i hd
        exact List.mem_filterMap.mpr ⟨line, List.mem_cons_self, hd⟩
      · obtain ⟨l, hl, hd⟩ := List.mem_filterMap.mp (ih h)
        exact List.mem_filterMap.mpr ⟨l, List.mem_cons_of_mem _ hl, hd⟩

/-- A label of the sections is in one section only. -/
theorem sectionsPlaced_labelAddress {data : List Int} {h : Nat} (hsize : data.length / 6 = 2 * h)
    (hh : 4 ≤ h) (base : Nat → Int) : SectionsPlaced data base (labelAddress data base) := by
  intro n hn k lines off hl hoff
  let f : Nat → Option Int := fun m =>
    ((sectionText data m).toOption.bind (labelOffset (dataLabel n k) 0)).map fun off : Nat => base m + off
  have hf : f n = some (base n + off) := by
    show ((sectionText data n).toOption.bind (labelOffset (dataLabel n k) 0)).map
      (fun off : Nat => base n + off) = _
    rw [hl]
    show (labelOffset (dataLabel n k) 0 lines).map (fun off : Nat => base n + off) = _
    rw [hoff]
    rfl
  have honly : ∀ m < 6, f m ≠ none → m = n := by
    intro m hm hne
    obtain ⟨lines', hl', hlabels, -, -⟩ := sectionText_layout (n := m) hsize hh hm
    obtain ⟨x, hx⟩ := Option.ne_none_iff_exists'.mp hne
    obtain ⟨off', hoff', -⟩ := Option.map_eq_some_iff.mp hx
    rw [hl'] at hoff'
    have hmem := definedLabel_of_labelOffset hoff'
    rw [hlabels] at hmem
    obtain ⟨j, -, hj⟩ := List.mem_map.mp hmem
    exact (dataLabel_injective hj).1
  have hsome : (List.range 6).findSome? f = some (base n + off) := by
    obtain ⟨l₁, l₂, hsplit⟩ := List.append_of_mem (List.mem_range.mpr hn)
    refine List.findSome?_eq_some_iff.mpr ⟨l₁, n, l₂, hsplit, hf, fun m hm => ?_⟩
    by_contra hne
    have hmem : m ∈ List.range 6 := hsplit ▸ List.mem_append_left _ hm
    have hnodup := List.nodup_range (n := 6)
    rw [hsplit, List.nodup_append] at hnodup
    exact hnodup.2.2 m hm n List.mem_cons_self (honly m (List.mem_range.mp hmem) hne)
  show ((List.range 6).findSome? f).getD 0 = _
  rw [hsome]
  rfl

/-- **Data accesses stay inside their section.** The labels of a section stand where the accesses expect
    them, and sixteen bytes from the address of an access on are in the section of its label. -/
theorem dataAccesses_inside {data : List Int} {e : Nat} (hsize : data.length / 6 = 2 ^ e)
    (hlarge : 64 ≤ 2 ^ e) :
    (∀ n < 6, ∃ lines, sectionText data n = .ok lines ∧
      lines.filterMap definedLabel = (List.range (2 ^ e / 2 - 5 + 1)).map (dataLabel n) ∧
      (∀ k ≤ 2 ^ e / 2 - 5, labelOffset (dataLabel n k) 0 lines = some (32 + 16 * k)) ∧
      (lines.map dwordBytes).sum = 8 * 2 ^ e ∧
      ∀ s template text ints, process s data template 6 = .ok (text, ints) →
        ∀ line ∈ template, NamesSection n line → line :: lines <:+: text) ∧
    ∀ (o : Opcode) (h : Handler) (shape : Shape) (w w' : World), o ∈ instructions → Accesses o.name h →
      h o.name o.form.toList (Generator.operandsOf o) w = .ok (shape, w') → maskInst ∉ shape.insts →
      ∀ (g g' : Generator) (label maxLabel : Int) (part : Part) (word : Word) (v v' : World),
        g.populateWord (shape.word label) maxLabel part v = .ok ((word, g'), v') →
        ∀ (addr regs : Text → Int) (base : Nat → Int), SectionsPlaced data base addr →
          ∀ n k, symbolOf word.retInsts = dataLabel n k →
            n < 6 ∧ base n ≤ accessAddress addr regs word.retInsts ∧
              accessAddress addr regs word.retInsts + 16 ≤ base n + 8 * 2 ^ e := by
  obtain ⟨h, hh⟩ : ∃ h, 2 ^ e = 2 * h := by
    cases e with
    | zero => omega
    | succ e => exact ⟨2 ^ e, by rw [pow_succ, Nat.mul_comm]⟩
  rw [hh] at hsize hlarge ⊢
  have hhalf : 2 * h / 2 - 5 + 1 = h - 4 := by omega
  have hlayout := fun n hn => sectionText_layout (n := n) hsize (by omega) hn
  constructor
  · intro n hn
    obtain ⟨lines, hl, hlabels, hoffsets, hsum⟩ := hlayout n hn
    refine ⟨lines, hl, by rw [hhalf]; exact hlabels, fun k hk => hoffsets k (by omega), by omega, ?_⟩
    intro s template text ints hp line hline hnames
    obtain ⟨lines', hl', hinfix⟩ := process_section hp hn hline hnames
    rw [hl, Except.ok.injEq] at hl'
    exact hl' ▸ hinfix
  · intro o hd shape w w' ho ha hrun hno g g' label maxLabel part word v v' hpop addr regs base hplaced
      n k hsym
    obtain ⟨hform, hs⟩ := accessShape_of_run ho ha hrun hno
    obtain ⟨es, hv, hlines⟩ := ensures_populate_access hs label maxLabel part g v _ v' hpop
    obtain ⟨hsymbol, haddress⟩ := accessAddress_populated hv addr regs ho hform hs part label
    rw [← hlines] at hsymbol haddress
    rw [hsymbol] at hsym
    obtain ⟨hn, hk⟩ := hv.symbol n k hsym
    obtain ⟨i, hi, hlow, hhigh⟩ := hv.offset
    obtain ⟨lines, hl, -, hoffsets, -⟩ := hlayout n (by omega)
    have hplace := hplaced n (by omega) k lines _ hl (hoffsets k (by omega))
    have hbytes : (2 : Int) ^ e = 2 * h := by exact_mod_cast hh
    rw [haddress, hsym, hplace, hi, Option.getD_some, hbytes]
    exact ⟨by omega, by omega, by omega⟩

/-- `lw` at the last label, with the largest immediate. -/
def lwShape : Shape :=
  ⟨.memR, ["la xreg1, symbol".toList, "lw xreg0, imm6(xreg1)".toList],
    (Generator.operandsOf (op "lw" "lw xreg0, imm6(xreg1)" ["xreg0", "xreg1"] [] [("imm6", 4)])).addSymbol⟩

theorem dataAccesses_inside_lw : ∃ word g' v', Generator.populateWord { kind := .randomInst }
      (lwShape.word 3) 9 .mainPart ⟨[5, 50, 7, 0, 0, 60, 28, 50, 5, 27], none, none⟩ = .ok ((word, g'), v') ∧
    accessAddress (labelAddress (List.replicate 384 0) fun n => 4096 * n) (fun _ => 0) word.retInsts + 16 ≤
      4096 * 5 + 512 := by
  have hrun : (Generator.populateWord { kind := .randomInst } (lwShape.word 3) 9 .mainPart
      ⟨[5, 50, 7, 0, 0, 60, 28, 50, 5, 27], none, none⟩).map (fun r => symbolOf r.1.1.retInsts) =
        .ok (dataLabel 5 27) := by
    decide
  obtain ⟨r, hr, hsym⟩ : ∃ r, Generator.populateWord { kind := .randomInst } (lwShape.word 3) 9 .mainPart
      ⟨[5, 50, 7, 0, 0, 60, 28, 50, 5, 27], none, none⟩ = .ok r ∧
        symbolOf r.1.1.retInsts = dataLabel 5 27 := by
    revert hrun
    cases Generator.populateWord { kind := .randomInst } (lwShape.word 3) 9 .mainPart
      ⟨[5, 50, 7, 0, 0, 60, 28, 50, 5, 27], none, none⟩ with
    | error e => exact fun h => (nomatch h)
    | ok r => exact fun h => ⟨r, rfl, Except.ok.inj h⟩
  have h := (@dataAccesses_inside (List.replicate 384 0) 6 (by decide +kernel) (by decide)).2
    (op "lw" "lw xreg0, imm6(xreg1)" ["xreg0", "xreg1"] [] [("imm6", 4)]) wordMemR lwShape
    ⟨[50], none, none⟩ ⟨[], none, none⟩ (by decide) (.load (by decide)) rfl (by decide)
    { kind := .randomInst } r.1.2 3 9 .mainPart r.1.1 _ r.2 hr (labelAddress (List.replicate 384 0) fun n => 4096 * n)
    (fun _ => 0) (fun n => 4096 * n)
    (sectionsPlaced_labelAddress (h := 32) (by decide +kernel) (by decide) _) 5 27 hsym
  exact ⟨r.1.1, r.1.2, r.2, hr, h.2.2⟩

end Difuzz.Mutator
