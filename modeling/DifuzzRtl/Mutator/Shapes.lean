/-
  File:      DifuzzRtl/Mutator/Shapes.lean
  Subject:   What the instructions of a generated word look like: where a symbol can stand in them.

  Three characters decide it. An underscore is in no text that the generators write, so that after the
  operands are filled in it marks a symbol; a colon would define a label; and the letter `y` tells the
  operand name `symbol` from everything else in a word that has one.

  * `InstOk` -- the text has no symbol, or it ends with one: `..., symbol`.
  * `ShapeOk` -- a word of such instructions, with operand names that do not overlap the symbol.
  * `ensures_processOpcode` -- every handler of every generator makes such words.
  * `ensures_getWord` -- so does `getWord`, with the next label of its part.
-/
import DifuzzRtl.Mutator.Generator

namespace Difuzz.Mutator

open Text

/-! ## 1. Texts -/

/-- A text that neither defines a label nor refers to one. -/
def Plain (t : Text) : Prop := '_' ∉ t ∧ ':' ∉ t

instance (t : Text) : Decidable (Plain t) := inferInstanceAs (Decidable (_ ∧ _))

/-- A plain text without a part of the name `symbol`. -/
def Clean (t : Text) : Prop := Plain t ∧ 'y' ∉ t

instance (t : Text) : Decidable (Clean t) := inferInstanceAs (Decidable (_ ∧ _))

theorem Plain.append {t u : Text} (ht : Plain t) (hu : Plain u) : Plain (t ++ u) := by
  simp [Plain, ht.1, ht.2, hu.1, hu.2]

theorem Clean.append {t u : Text} (ht : Clean t) (hu : Clean u) : Clean (t ++ u) :=
  ⟨ht.1.append hu.1, by simp [ht.2, hu.2]⟩

theorem Plain.replace {old new t : Text} (ht : Plain t) (hn : Plain new) : Plain (replace old new t) := by
  constructor
  · intro h
    rcases mem_replace h with h | h
    · exact ht.1 h
    · exact hn.1 h
  · intro h
    rcases mem_replace h with h | h
    · exact ht.2 h
    · exact hn.2 h

theorem Clean.replace {old new t : Text} (ht : Clean t) (hn : Clean new) : Clean (replace old new t) := by
  refine ⟨ht.1.replace hn.1, fun h => ?_⟩
  rcases mem_replace h with h | h
  · exact ht.2 h
  · exact hn.2 h

theorem AllDigits.clean {b : Nat} {t : Text} (h : AllDigits b t) (h₁ : digitValue b '_' = none)
    (h₂ : digitValue b ':' = none) (h₃ : digitValue b 'y' = none) : Clean t :=
  ⟨⟨h.not_mem h₁, h.not_mem h₂⟩, h.not_mem h₃⟩

theorem clean_digits (n : Nat) : Clean (digits 10 n) :=
  AllDigits.clean (allDigits_digits (by decide) (by decide)) (by decide) (by decide) (by decide)

theorem clean_hex (n : Nat) : Clean (digits 16 n) :=
  AllDigits.clean (allDigits_digits (by decide) (by decide)) (by decide) (by decide) (by decide)

theorem clean_intText (n : Int) : Clean (intText n) := by
  cases n with
  | ofNat n => exact clean_digits n
  | negSucc n => exact Clean.append (t := ['-']) (by decide) (clean_digits (n + 1))

theorem clean_formatForm {form arg : Text} (hf : Clean form) (ha : Clean arg) :
    Clean (formatForm form arg) := hf.replace ha

/-- `Clean`, on the bytes of a string. -/
def CleanBytes (s : String) : Prop :=
  ∀ b ∈ s.toByteArray.data.toList, b ≠ 95 ∧ b ≠ 58 ∧ b ≠ 121

-- along the bytes of the string, not along all bytes
instance (s : String) : Decidable (CleanBytes s) := List.decidableBAll _ _

theorem CleanBytes.clean {s : String} (h : CleanBytes s) : Clean s.toList :=
  ⟨⟨not_mem_toList (by decide) fun hb => (h 95 hb).1 rfl,
    not_mem_toList (by decide) fun hb => (h 58 hb).2.1 rfl⟩,
    not_mem_toList (by decide) fun hb => (h 121 hb).2.2 rfl⟩

/-- An instruction of a word that has a symbol, or has none. -/
inductive InstOk : Bool → Text → Prop where
  | plain {sym : Bool} {t : Text} (h : Plain t) (hy : sym = true → 'y' ∉ t) : InstOk sym t
  | symbol {a : Text} (h : Clean a) : InstOk true (a ++ ", symbol".toList)

theorem Clean.instOk {t : Text} (h : Clean t) (sym : Bool) : InstOk sym t :=
  InstOk.plain h.1 fun _ => h.2

/-- The name of an operand that is no symbol: it has a digit and no comma. -/
def NameOk (name : Text) : Prop := ',' ∉ name ∧ ∃ d ∈ name, d.isDigit = true

instance (name : Text) : Decidable (NameOk name) := inferInstanceAs (Decidable (_ ∧ _))

structure OpsOk (ops : Operands) : Prop where
  xregs : ∀ x ∈ ops.xregs, NameOk x
  fregs : ∀ x ∈ ops.fregs, NameOk x
  imms : ∀ i ∈ ops.imms, NameOk i.1
  symbols : ∀ x ∈ ops.symbols, x = "symbol".toList

namespace OpsOk

variable {ops : Operands}

theorem addXreg (h : OpsOk ops) {x : Text} (hx : NameOk x) : OpsOk (ops.addXreg x) := by
  refine ⟨fun y hy => ?_, h.fregs, h.imms, h.symbols⟩
  rcases List.mem_append.mp hy with hy | hy
  · exact h.xregs y hy
  · rw [List.mem_singleton.mp hy]
    exact hx

theorem addImm (h : OpsOk ops) {i : String} (hi : NameOk i.toList) (align : Nat) :
    OpsOk (ops.addImm i align) := by
  refine ⟨h.xregs, h.fregs, fun y hy => ?_, h.symbols⟩
  rcases List.mem_append.mp hy with hy | hy
  · exact h.imms y hy
  · rw [List.mem_singleton.mp hy]
    exact hi

theorem addSymbol (h : OpsOk ops) : OpsOk ops.addSymbol := by
  refine ⟨h.xregs, h.fregs, h.imms, fun y hy => ?_⟩
  rcases List.mem_append.mp hy with hy | hy
  · exact h.symbols y hy
  · exact List.mem_singleton.mp hy

end OpsOk

/-- The word has a symbol among its operands. -/
def Operands.hasSymbol (ops : Operands) : Bool := !ops.symbols.isEmpty

@[simp] theorem hasSymbol_addSymbol (ops : Operands) : ops.addSymbol.hasSymbol = true := by
  simp [Operands.hasSymbol, Operands.addSymbol]

structure ShapeOk (s : Shape) : Prop where
  ops : OpsOk s.ops
  insts : ∀ i ∈ s.insts, InstOk s.ops.hasSymbol i

/-- Clean instructions make a word, whatever its operands are. -/
theorem shapeOk_of_clean {tpe : Tpe} {insts : List Text} {ops : Operands} (ho : OpsOk ops)
    (hi : ∀ i ∈ insts, Clean i) : ShapeOk ⟨tpe, insts, ops⟩ :=
  ⟨ho, fun i h => (hi i h).instOk _⟩

/-- A word that loads the address of its symbol first. -/
theorem shapeOk_symbol {tpe : Tpe} {a : Text} {insts : List Text} {ops : Operands} (ho : OpsOk ops)
    (ha : Clean a) (hi : ∀ i ∈ insts, Clean i) :
    ShapeOk ⟨tpe, (a ++ ", symbol".toList) :: insts, ops.addSymbol⟩ := by
  refine ⟨ho.addSymbol, fun i h => ?_⟩
  show InstOk ops.addSymbol.hasSymbol i
  rw [hasSymbol_addSymbol]
  rcases List.mem_cons.mp h with rfl | h
  · exact InstOk.symbol ha
  · exact (hi i h).instOk true

/-! ## 2. Handlers -/

/-- What a handler is given: an instruction without a symbol. -/
structure Given (opcode : String) (form : Text) (ops : Operands) : Prop where
  nameOk : Clean opcode.toList
  formOk : Clean form
  opsOk : OpsOk ops
  noSymbol : ops.symbols = []

/-- A handler that makes words as they should be. -/
def HandlerOk (h : Handler) : Prop :=
  ∀ opcode form ops, Given opcode form ops → Ensures (h opcode form ops) ShapeOk

theorem forall_mem_pair {P : Text → Prop} {a b : Text} (ha : P a) (hb : P b) : ∀ i ∈ [a, b], P i := by
  intro i hi
  rcases List.mem_cons.mp hi with rfl | hi
  · exact ha
  · rw [List.mem_singleton.mp hi]
    exact hb

theorem forall_mem_concat {P : Text → Prop} {l : List Text} {a : Text} (hl : ∀ i ∈ l, P i) (ha : P a) :
    ∀ i ∈ l ++ [a], P i := by
  intro i hi
  rcases List.mem_append.mp hi with hi | hi
  · exact hl i hi
  · rw [List.mem_singleton.mp hi]
    exact ha

theorem handlerOk_wordPlain : HandlerOk wordPlain := fun _ _ _ h =>
  Ensures.pure (shapeOk_of_clean h.opsOk (forall_mem_concat (l := []) (by simp) h.formOk))

theorem handlerOk_wordJalr : HandlerOk wordJalr := fun _ _ _ h =>
  Ensures.pure (shapeOk_symbol (a := "la xreg1".toList) h.opsOk (by decide)
    (forall_mem_concat (l := []) (by simp) h.formOk))

theorem handlerOk_wordRet : HandlerOk wordRet := by
  intro opcode form ops h
  refine Ensures.pure (shapeOk_symbol (a := "la xreg0".toList) (h.opsOk.addXreg (by decide)) (by decide)
    (forall_mem_pair ?_ h.formOk))
  split
  · decide
  · split <;> decide

theorem ensures_maskAddr {ops : Operands} (h : OpsOk ops) :
    Ensures (maskAddr ops) fun r => (∀ i ∈ r.1, Clean i) ∧ OpsOk r.2 := by
  refine Ensures.bind' fun n => Ensures.ite (fun _ => ?_) fun _ => ?_
  · refine Ensures.pure ⟨?_, h.addXreg (by decide)⟩
    exact forall_mem_pair (by decide) (by decide)
  · exact Ensures.pure ⟨fun i hi => (nomatch hi), h⟩

theorem ensures_wordMem {tpe : Tpe} {prepare : List Text} {form : Text} {ops : Operands}
    (hp : ∀ i ∈ prepare, Clean i) (hf : Clean form) (ho : OpsOk ops) :
    Ensures (wordMem tpe prepare form ops) ShapeOk := by
  refine (ensures_maskAddr ho).bind fun r hr => Ensures.pure ?_
  refine shapeOk_symbol (a := "la xreg1".toList) hr.2 (by decide) (forall_mem_concat ?_ hf)
  intro i hi
  rcases List.mem_append.mp hi with hi | hi
  · exact hp i hi
  · exact hr.1 i hi

theorem handlerOk_wordMemR : HandlerOk wordMemR := fun _ _ _ h =>
  ensures_wordMem (by simp) h.formOk h.opsOk

theorem handlerOk_wordMemW : HandlerOk wordMemW := fun _ _ _ h =>
  ensures_wordMem (by simp) h.formOk h.opsOk

theorem handlerOk_wordAtomic : HandlerOk wordAtomic := fun _ _ _ h =>
  ensures_wordMem (by decide) h.formOk (h.opsOk.addImm (by decide) _)

theorem ensures_chooseCsr {csrs : List String} (h : ∀ c ∈ csrs, Clean c.toList) :
    Ensures (chooseCsr csrs) Clean := by
  refine Ensures.bind' fun n => Ensures.ite (fun _ => ?_) fun _ => ?_
  · exact (ensures_choice csrs).bind fun c hc => Ensures.pure (h c hc)
  · exact Ensures.bind' fun n => Ensures.pure (Clean.append (by decide) (clean_hex n))

theorem ensures_csrContext : Ensures csrContext fun r => ∀ i ∈ r, Clean i := by
  refine Ensures.bind' fun n => Ensures.ite (fun _ => ?_) fun _ => Ensures.pure (by decide)
  exact Ensures.bind' fun n =>
    Ensures.ite (fun _ => Ensures.pure (by decide)) fun _ => Ensures.pure (by decide)

theorem ensures_csrSource {opcode : String} {csr rs1 : Text} (h : Clean rs1) :
    Ensures (csrSource opcode csr rs1) fun r => (∀ i ∈ r.1, Clean i) ∧ Clean r.2 := by
  refine Ensures.ite (fun _ => Ensures.bind' fun n => ?_) fun _ => Ensures.bind' fun n =>
    Ensures.pure ⟨by simp, clean_digits _⟩
  split
  · refine Ensures.pure ⟨?_, h⟩
    refine forall_mem_concat (l := []) (by simp) ?_
    exact ((show Clean "mv ".toList by decide).append h).append (by decide)
  · refine Ensures.pure ⟨?_, h⟩
    refine forall_mem_concat (l := []) (by simp) ?_
    exact ((show Clean "li ".toList by decide).append h).append (by decide)
  · refine Ensures.bind' fun v => Ensures.pure ⟨?_, h⟩
    refine forall_mem_concat (l := []) (by simp) ?_
    exact (((show Clean "li ".toList by decide).append h).append (by decide)).append (clean_digits v)
  · exact Ensures.pure ⟨by simp, h⟩

theorem ensures_csrFakeUse {rd : Text} (h : Clean rd) :
    Ensures (csrFakeUse rd) fun r => ∀ i ∈ r, Clean i := by
  refine Ensures.bind' fun n => Ensures.ite (fun _ => Ensures.bind' fun k => Ensures.pure ?_)
    fun _ => Ensures.pure (by simp)
  refine forall_mem_concat (l := []) (by simp) ?_
  exact ((((show Clean "addi x".toList by decide).append (clean_digits k)).append
    (by decide)).append h).append (by decide)

theorem ensures_csrStore {rd : Text} (h : Clean rd) :
    Ensures (csrStore rd) fun r => ∀ i ∈ r, Clean i := by
  refine Ensures.bind' fun n => Ensures.ite (fun _ => Ensures.pure ?_) fun _ => Ensures.pure (by simp)
  refine forall_mem_concat (l := []) (by simp) ?_
  exact ((show Clean "sw ".toList by decide).append h).append (by decide)

theorem clean_tempRegs : ∀ r ∈ tempRegs, Clean r.toList := by decide

theorem handlerOk_wordCsrCsrs {csrs : List String} (hc : ∀ c ∈ csrs, Clean c.toList) :
    HandlerOk (wordCsrCsrs csrs) := by
  intro opcode form ops h
  refine (ensures_chooseCsr hc).bind fun csr hcsr => Ensures.ite (fun _ => ?_) fun _ => ?_
  · refine Ensures.pure (shapeOk_symbol (a := "la xreg1".toList) h.opsOk (by decide) ?_)
    exact forall_mem_pair (by decide) (clean_formatForm h.formOk hcsr)
  · refine (ensures_choice tempRegs).bind fun rd hrd => ?_
    refine (ensures_choice tempRegs).bind fun rs1 hrs1 => ?_
    refine ensures_csrContext.bind fun context hcontext => ?_
    refine (ensures_csrSource (clean_tempRegs rs1 hrs1)).bind fun source hsource => ?_
    refine (ensures_csrFakeUse (clean_tempRegs rd hrd)).bind fun use huse => ?_
    refine (ensures_csrStore (clean_tempRegs rd hrd)).bind fun store hstore => ?_
    refine Ensures.pure (shapeOk_of_clean h.opsOk fun i hi => ?_)
    have hinst : Clean (opcode.toList ++ [' '] ++ rd.toList ++ ", ".toList ++ csr ++ ", ".toList ++
        source.2) :=
      (((((h.nameOk.append (by decide)).append (clean_tempRegs rd hrd)).append (by decide)).append
        hcsr).append (by decide)).append hsource.2
    simp only [List.mem_append, List.mem_singleton] at hi
    rcases hi with (((hi | hi) | rfl) | hi) | hi
    · exact hcontext i hi
    · exact hsource.1 i hi
    · exact hinst
    · exact huse i hi
    · exact hstore i hi

theorem handlerOk_wordSfence : HandlerOk wordSfence := by
  intro opcode form ops h
  refine (ensures_choice _).bind fun pt hpt => Ensures.pure ?_
  have hpt' : Clean pt.toList := by
    revert pt
    decide
  refine shapeOk_of_clean ((h.opsOk.addImm (by decide) _).addImm (by decide) _) fun i hi => ?_
  simp only [List.mem_cons, List.not_mem_nil, or_false] at hi
  rcases hi with rfl | rfl | rfl | rfl
  · decide
  · exact Clean.append (by decide) hpt'
  · decide
  · exact h.formOk

theorem handlerOk_wordFp : HandlerOk wordFp := fun _ _ _ h =>
  Ensures.pure (shapeOk_of_clean h.opsOk
    (forall_mem_concat (l := []) (by simp) (clean_formatForm h.formOk (by decide))))

theorem clean_csrs : ∀ c ∈ csrNames ++ hvCsrs ++ csrBitmap ++ csrMpt ++ csrsCbo,
    Clean c.toList := by
  have h : ∀ c ∈ csrNames ++ hvCsrs ++ csrBitmap ++ csrMpt ++ csrsCbo, CleanBytes c := by
    decide +kernel
  exact fun c hc => (h c hc).clean

theorem clean_csrNames : ∀ c ∈ csrNames, Clean c.toList := fun c hc =>
  clean_csrs c (by simp [hc])

theorem handlerOk_wordCsr : HandlerOk wordCsr := handlerOk_wordCsrCsrs clean_csrNames

theorem handlerOk_wordJal : HandlerOk wordJal := fun _ _ _ h =>
  Ensures.pure (shapeOk_of_clean h.opsOk (forall_mem_concat (l := []) (by simp) h.formOk))

theorem handlerOk_wordBranch : HandlerOk wordBranch := fun _ _ _ h =>
  Ensures.pure (shapeOk_of_clean h.opsOk (forall_mem_concat (l := []) (by simp) h.formOk))

/-- An entry of a chain of tests, or what the rest of the chain gives. -/
theorem handlerOk_ite {c : Prop} [Decidable c] {a : Handler} {r : Option Handler} (ha : HandlerOk a)
    (hr : ∀ h, r = some h → HandlerOk h) : ∀ h, (if c then some a else r) = some h → HandlerOk h := by
  intro h hh
  split at hh
  · cases hh
    exact ha
  · exact hr h hh

theorem handlerOk_none : ∀ h, (none : Option Handler) = some h → HandlerOk h := fun _ hh => (nomatch hh)

theorem handlerOk_opcodesWords (opcode : String) : ∀ h, opcodesWords opcode = some h → HandlerOk h := by
  unfold opcodesWords
  refine handlerOk_ite handlerOk_wordJal ?_
  refine handlerOk_ite handlerOk_wordJalr ?_
  refine handlerOk_ite handlerOk_wordBranch ?_
  refine handlerOk_ite handlerOk_wordRet ?_
  refine handlerOk_ite handlerOk_wordMemR ?_
  refine handlerOk_ite handlerOk_wordMemW ?_
  refine handlerOk_ite handlerOk_wordAtomic ?_
  refine handlerOk_ite handlerOk_wordCsr ?_
  refine handlerOk_ite handlerOk_wordSfence ?_
  exact handlerOk_ite handlerOk_wordFp handlerOk_none

/-! ### Handlers of single generators -/

namespace GeneratorKind

theorem handlerOk_wordAt (tpe : Tpe) (address : Rand Int) : HandlerOk (wordAt tpe address) := by
  intro opcode form ops h
  refine Ensures.bind' fun a => Ensures.pure (shapeOk_of_clean h.opsOk (forall_mem_pair ?_ h.formOk))
  exact Clean.append (by decide) (clean_intText a)

theorem handlerOk_wordMemAt (address : Rand Int) : HandlerOk (wordMemAt address) :=
  fun opcode => handlerOk_wordAt _ address opcode

/-- The name of a numbered register. -/
theorem nameOk_xreg (n : Nat) : NameOk ("xreg".toList ++ digits 10 n) := by
  constructor
  · have : ',' ∉ digits 10 n := not_mem_digits (by decide) n
    simp [this]
  · obtain ⟨c, hc⟩ := List.exists_mem_of_ne_nil _ (Nat.toDigits_ne_nil (b := 10) (n := n))
    exact ⟨c, List.mem_append_right _ hc, Nat.isDigit_of_mem_toDigits (by decide) (by decide) hc⟩

theorem clean_xreg (n : Nat) : Clean ("xreg".toList ++ digits 10 n) :=
  Clean.append (by decide) (clean_digits n)

theorem handlerOk_wordCsrR : HandlerOk wordCsrR := by
  intro opcode form ops h
  refine (ensures_choice _).bind fun csr hcsr => Ensures.bind' fun k => ?_
  have hcsr' : Clean csr.toList := by
    revert csr
    decide
  refine (Ensures.mapM (R := fun _ b => NameOk b.1 ∧ ∀ i ∈ b.2, Clean i) fun j _ => ?_).bind
    fun bits hbits => Ensures.pure ?_
  · refine Ensures.bind' fun sb => Ensures.bind' fun off => Ensures.pure ⟨nameOk_xreg _, ?_⟩
    have hx := clean_xreg (j + 2)
    intro i hi
    simp only [List.mem_cons, List.not_mem_nil, or_false] at hi
    rcases hi with rfl | rfl | rfl
    · exact ((Clean.append (by decide) hx).append (by decide)).append (clean_digits sb)
    · exact (((Clean.append (by decide) hx).append (by decide)).append hx).append
        (by decide) |>.append (clean_digits off)
    · exact Clean.append (by decide) hx
  · have hmem : ∀ b ∈ bits, NameOk b.1 ∧ ∀ i ∈ b.2, Clean i := fun b hb =>
      (Forall₂.mem_right hbits hb).elim fun a ha => ha.2
    refine shapeOk_of_clean ⟨fun x hx => ?_, h.opsOk.fregs, h.opsOk.imms, h.opsOk.symbols⟩ fun i hi => ?_
    · rcases List.mem_append.mp hx with hx | hx
      · exact h.opsOk.xregs x hx
      · obtain ⟨b, hb, rfl⟩ := List.mem_map.mp hx
        exact (hmem b hb).1
    · rcases List.mem_cons.mp hi with rfl | hi
      · decide
      rcases List.mem_append.mp hi with hi | hi
      · obtain ⟨l, hl, hil⟩ := List.mem_flatten.mp hi
        obtain ⟨b, hb, rfl⟩ := List.mem_map.mp hl
        exact (hmem b hb).2 i hil
      · rw [List.mem_singleton.mp hi]
        exact clean_formatForm h.formOk hcsr'

theorem handlerOk_wordSwitch {epc status back : String} {clear : Int} {more : List Text} {after : Bool}
    (he : Clean epc.toList) (hs : Clean status.toList) (hm : ∀ i ∈ more, Clean i)
    (hb : Clean back.toList) : HandlerOk (wordSwitch epc status clear more back after) := by
  intro opcode form ops h
  refine (ensures_choice _).bind fun csr hcsr => ?_
  have hform : Clean (formatForm form csr.toList) := by
    refine clean_formatForm h.formOk ?_
    rcases List.mem_cons.mp hcsr with rfl | hcsr
    · exact he
    · rw [List.mem_singleton.mp hcsr]
      exact hs
  refine Ensures.ite (fun _ => Ensures.pure (shapeOk_of_clean h.opsOk fun i hi => ?_)) fun _ =>
    Ensures.bind' fun k => Ensures.pure (shapeOk_of_clean (h.opsOk.addXreg (nameOk_xreg _))
      fun i hi => ?_)
  · rcases List.mem_append.mp hi with hi | hi
    · simp only [List.mem_cons, List.not_mem_nil, or_false] at hi
      rcases hi with rfl | rfl | rfl
      · decide
      · decide
      · exact hform
    · split at hi
      · rw [List.mem_singleton.mp hi]
        exact hb
      · cases hi
  · have hx := clean_xreg (k + 3)
    simp only [List.mem_append, List.mem_cons, List.not_mem_nil, or_false] at hi
    rcases hi with ((rfl | rfl | rfl) | hi) | rfl | rfl
    · exact Clean.append (by decide) hs
    · exact ((Clean.append (by decide) hx).append (by decide)).append (clean_intText clear)
    · exact Clean.append (by decide) hx
    · exact hm i hi
    · exact hform
    · exact hb

theorem handlerOk_wordM2s : HandlerOk wordM2s :=
  handlerOk_wordSwitch (by decide) (by decide) (by decide) (by decide)

theorem handlerOk_wordS2u : HandlerOk wordS2u :=
  handlerOk_wordSwitch (by decide) (by decide) (by simp) (by decide)

theorem handlerOk_wordCsrrs : HandlerOk wordCsrrs := by
  intro opcode form ops h
  refine Ensures.bind' fun n => Ensures.pure (shapeOk_of_clean h.opsOk fun i hi => ?_)
  simp only [List.mem_cons, List.not_mem_nil, or_false] at hi
  rcases hi with rfl | rfl | rfl
  · exact Clean.append (by decide) (clean_digits _)
  · decide
  · exact clean_formatForm h.formOk (by decide)

theorem handlerOk_wordEcall : HandlerOk wordEcall := by
  intro opcode form ops h
  refine Ensures.bind' fun n => Ensures.ite (fun _ => Ensures.bind' fun v => Ensures.pure ?_) fun _ =>
    Ensures.pure (shapeOk_of_clean h.opsOk (forall_mem_concat (l := []) (by simp) h.formOk))
  refine shapeOk_of_clean (h.opsOk.addXreg (by decide)) fun i hi => ?_
  simp only [List.mem_cons, List.not_mem_nil, or_false] at hi
  rcases hi with rfl | rfl | rfl
  · exact Clean.append (by decide) (clean_digits v)
  · decide
  · exact h.formOk

/-- A word without a symbol: `cycle` has the letter `y`. -/
theorem shapeOk_of_noSymbol {tpe : Tpe} {insts : List Text} {ops : Operands} (ho : OpsOk ops)
    (hn : ops.symbols = []) (hi : ∀ i ∈ insts, Plain i) : ShapeOk ⟨tpe, insts, ops⟩ := by
  refine ⟨ho, fun i h => InstOk.plain (hi i h) fun e => ?_⟩
  simp [Operands.hasSymbol, hn] at e

theorem handlerOk_wordCounter : HandlerOk wordCounter := by
  intro opcode form ops h
  refine (ensures_choice _).bind fun reg hreg => ?_
  have hr : Plain reg.toList := by
    revert reg
    decide +kernel
  have hinst : Plain (formatForm form reg.toList) := h.formOk.1.replace hr
  refine Ensures.ite (fun _ => Ensures.bind' fun v => Ensures.pure ?_) fun _ =>
    Ensures.bind' fun k => Ensures.pure ?_
  · refine shapeOk_of_noSymbol h.opsOk h.noSymbol fun i hi => ?_
    simp only [List.mem_cons, List.not_mem_nil, or_false] at hi
    rcases hi with rfl | rfl | rfl
    · exact Plain.append (by decide) hr
    · exact Plain.append (by decide) (clean_intText v).1
    · exact hinst
  · refine shapeOk_of_noSymbol h.opsOk h.noSymbol fun i hi => ?_
    rcases List.mem_append.mp hi with hi | hi
    · rw [List.eq_of_mem_replicate hi]
      exact hinst
    · rw [List.mem_singleton.mp hi]
      exact hinst

theorem handlerOk_wordCsrOwn {own : List String} (ho : ∀ c ∈ own, Clean c.toList) :
    HandlerOk (wordCsrOwn own) := by
  intro opcode form ops h
  refine (ensures_sample _ _).bind fun csrs hcsrs => ?_
  refine handlerOk_wordCsrCsrs (fun c hc => ?_) opcode form ops h
  rcases List.mem_append.mp hc with hc | hc
  · exact clean_csrNames c (hcsrs c hc)
  · exact ho c hc

theorem handlerOk_wordSfencePlain : HandlerOk wordSfencePlain := by
  intro opcode form ops h
  refine Ensures.pure (shapeOk_of_clean ((h.opsOk.addImm (by decide) _).addImm (by decide) _)
    fun i hi => ?_)
  simp only [List.mem_cons, List.not_mem_nil, or_false] at hi
  rcases hi with rfl | rfl | rfl
  · decide
  · decide
  · exact h.formOk

theorem handlerOk_wordMemMpt : HandlerOk wordMemMpt := by
  intro opcode form ops h
  refine Ensures.ite (fun _ => handlerOk_wordMemAt mptAddress opcode form ops h) fun _ =>
    Ensures.bind' fun _ => Ensures.throw

/-- The control registers of single generators. -/
theorem clean_ownCsrs {c : String} (h : c ∈ csrBitmap ++ csrMpt ++ csrsCbo) : Clean c.toList := by
  refine clean_csrs c ?_
  simp only [List.mem_append] at h ⊢
  tauto

theorem handlerOk_ownHandler (k : GeneratorKind) (opcode : String) :
    ∀ h, k.ownHandler opcode = some h → HandlerOk h := by
  cases k with
  | randSwitch => exact handlerOk_none
  | randomInst => exact handlerOk_none
  | illLow2high => exact handlerOk_ite handlerOk_wordCsrR handlerOk_none
  | m2sLegalSwitch => exact handlerOk_ite handlerOk_wordM2s handlerOk_none
  | s2uLegalSwitch => exact handlerOk_ite handlerOk_wordS2u handlerOk_none
  | interrupt => exact handlerOk_ite handlerOk_wordCsrrs handlerOk_none
  | counterTimer => exact handlerOk_ite handlerOk_wordCounter handlerOk_none
  | exceptions =>
      refine handlerOk_ite (handlerOk_wordAt _ _) ?_
      refine handlerOk_ite (handlerOk_wordMemAt _) ?_
      exact handlerOk_ite handlerOk_wordEcall handlerOk_none
  | hyperviser =>
      refine handlerOk_ite handlerOk_wordSfencePlain ?_
      refine handlerOk_ite (handlerOk_wordCsrCsrs fun c hc => clean_csrs c ?_) handlerOk_none
      simp only [List.mem_append] at hc ⊢
      tauto
  | bitmapr =>
      refine handlerOk_ite (handlerOk_wordCsrOwn fun c hc => clean_ownCsrs (by simp [hc])) ?_
      refine handlerOk_ite handlerOk_wordSfencePlain ?_
      exact handlerOk_ite (handlerOk_wordMemAt _) handlerOk_none
  | mpt =>
      refine handlerOk_ite (handlerOk_wordCsrOwn fun c hc => clean_ownCsrs (by simp [hc])) ?_
      refine handlerOk_ite handlerOk_wordSfencePlain ?_
      refine handlerOk_ite (handlerOk_wordAt _ _) ?_
      exact handlerOk_ite handlerOk_wordMemMpt handlerOk_none
  | cbo =>
      refine handlerOk_ite (handlerOk_wordAt _ _) ?_
      refine handlerOk_ite (handlerOk_wordAt _ _) ?_
      refine handlerOk_ite (handlerOk_wordCsrOwn fun c hc => clean_ownCsrs (by simp [hc])) ?_
      exact handlerOk_ite handlerOk_wordPlain handlerOk_none

/-- The digits of a raw word. -/
theorem clean_upper (n : Nat) : Clean ((digits 16 n).map Char.toUpper) := by
  have h : ∀ d < 16, Clean [(Nat.digitChar d).toUpper] := by decide
  have hmem : ∀ c ∈ (digits 16 n).map Char.toUpper, Clean [c] := by
    intro c hc
    obtain ⟨x, hx, rfl⟩ := List.mem_map.mp hc
    obtain ⟨d, hd, rfl⟩ := mem_digits (by decide) hx
    exact h d hd
  exact ⟨⟨fun hc => absurd (hmem _ hc) (by decide), fun hc => absurd (hmem _ hc) (by decide)⟩,
    fun hc => absurd (hmem _ hc) (by decide)⟩

theorem ensures_insertRaw {sym : Bool} {insts : List Text} (h : ∀ i ∈ insts, InstOk sym i) :
    Ensures (insertRaw insts) fun r => ∀ i ∈ r, InstOk sym i := by
  refine Ensures.bind' fun n => Ensures.ite (fun _ => ?_) fun _ => Ensures.pure h
  refine Ensures.bind' fun p => Ensures.bind' fun raw => Ensures.pure fun i hi => ?_
  simp only [List.mem_append, List.mem_singleton] at hi
  rcases hi with (hi | rfl) | hi
  · exact h i (List.mem_of_mem_take hi)
  · exact (Clean.append (by decide) (clean_upper raw)).instOk sym
  · exact h i (List.mem_of_mem_drop hi)

end GeneratorKind

/-! ## 3. Instructions of the tables -/

/-- The names of the operands in the tables. -/
def operandNames : List String :=
  ["xreg0", "xreg1", "xreg2", "freg0", "freg1", "freg2", "freg3", "imm6", "imm12", "uimm5", "uimm6",
   "uimm20"]

theorem nameOk_operandNames : ∀ x ∈ operandNames, NameOk x.toList := by decide +kernel

/-- The operands of an instruction, and that only jumps and branches have a symbol: as the last of
    them. -/
structure Opcode.Ok (o : Opcode) : Prop where
  xregs : ∀ x ∈ o.xregs, x ∈ operandNames
  fregs : ∀ x ∈ o.fregs, x ∈ operandNames
  imms : ∀ i ∈ o.imms, i.1 ∈ operandNames
  name : CleanBytes o.name
  form : (o.symbols = [] ∧ CleanBytes o.form) ∨
    (o.symbols = ["symbol"] ∧ (o.name = "jal" ∨ o.name ∈ rv32iBtype.map (·.name)) ∧
      Clean (o.form.toList.take (o.form.length - 8)) ∧
      o.form.toList.drop (o.form.length - 8) = ", symbol".toList)

instance (o : Opcode) : Decidable o.Ok :=
  decidable_of_iff (_ ∧ _ ∧ _ ∧ _ ∧ _)
    ⟨fun h => ⟨h.1, h.2.1, h.2.2.1, h.2.2.2.1, h.2.2.2.2⟩,
     fun h => ⟨h.xregs, h.fregs, h.imms, h.name, h.form⟩⟩

/-- The instructions of all tables. -/
def instructions : List Opcode :=
  hvInstructions ++ cboInstructions ++ (trapRet ++ rv32i ++ rv64i ++ rv32aRtype ++ rv64aRtype ++ rv32f ++
    rv64fRtype ++ rvZifencei ++ rvZicsr)

theorem table_ok : ∀ o ∈ instructions, o.Ok := by decide +kernel

/-- What is looked up is in the tables. -/
theorem lookup_mem {opcode : String} {o : Opcode} (h : Generator.lookup opcode = .ok o) :
    o.name = opcode ∧ o ∈ instructions := by
  unfold Generator.lookup at h
  split at h
  · rename_i o' ho
    cases h
    exact ⟨by simpa using List.find?_some ho,
      List.mem_append_left _ (List.mem_of_find?_eq_some ho)⟩
  · split at h
    · rename_i o' ho
      cases h
      rw [opcodesMap, Dict.get?_ofList] at ho
      have hm := List.mem_reverse.mp (Dict.mem_of_lookup ho)
      obtain ⟨o', ho', e⟩ := List.mem_map.mp hm
      cases e
      exact ⟨rfl, List.mem_append_right _ ho'⟩
    · cases h

theorem lookup_ok {opcode : String} {o : Opcode} (h : Generator.lookup opcode = .ok o) :
    o.name = opcode ∧ o.Ok :=
  ⟨(lookup_mem h).1, table_ok o (lookup_mem h).2⟩

theorem Opcode.Ok.opsOk {o : Opcode} (h : o.Ok) : OpsOk (Generator.operandsOf o) where
  xregs x hx := by
    obtain ⟨y, hy, rfl⟩ := List.mem_map.mp hx
    exact nameOk_operandNames y (h.xregs y hy)
  fregs x hx := by
    obtain ⟨y, hy, rfl⟩ := List.mem_map.mp hx
    exact nameOk_operandNames y (h.fregs y hy)
  imms i hi := by
    obtain ⟨y, hy, rfl⟩ := List.mem_map.mp hi
    exact nameOk_operandNames y.1 (h.imms y hy)
  symbols x hx := by
    obtain ⟨y, hy, rfl⟩ := List.mem_map.mp hx
    rcases h.form with ⟨hs, -⟩ | ⟨hs, -⟩
    · rw [hs] at hy
      cases hy
    · rw [hs] at hy
      rw [List.mem_singleton.mp hy]

/-- No generator has a handler of its own for jumps and branches. -/
theorem ownHandler_target (k : GeneratorKind) :
    ∀ n ∈ "jal" :: rv32iBtype.map (·.name), (k.ownHandler n).isNone = true := by
  cases k <;> decide +kernel

/-- A jump or a branch is a word of one instruction. -/
theorem opcodesWords_target {n : String} (h : n = "jal" ∨ n ∈ rv32iBtype.map (·.name)) :
    ∃ tpe, opcodesWords n = some fun _ form ops => pure ⟨tpe, [form], ops⟩ := by
  rcases h with rfl | h
  · exact ⟨.cfJ, rfl⟩
  · refine ⟨.cfBr, ?_⟩
    have hb : n ≠ "jal" ∧ n ≠ "jalr" := by
      revert n
      decide
    rw [opcodesWords, if_neg hb.1, if_neg hb.2, if_pos (by simpa using h)]
    rfl

/-- **Every generator makes words as they should be**, from every instruction of the tables. -/
theorem ensures_processOpcode (k : GeneratorKind) {o : Opcode} (ho : o.Ok) :
    Ensures (k.processOpcode o.name o.form.toList (Generator.operandsOf o)) ShapeOk := by
  have hshape : Ensures (((k.ownHandler o.name).or (opcodesWords o.name)).getD wordPlain o.name
      o.form.toList (Generator.operandsOf o)) ShapeOk := by
    rcases ho.form with ⟨hs, hf⟩ | ⟨hs, hn, ha, hb⟩
    · have hgiven : Given o.name o.form.toList (Generator.operandsOf o) :=
        ⟨ho.name.clean, hf.clean, ho.opsOk, by simp [Generator.operandsOf, hs]⟩
      cases hown : k.ownHandler o.name with
      | some h => exact k.handlerOk_ownHandler _ h hown _ _ _ hgiven
      | none =>
          cases hw : opcodesWords o.name with
          | some h => exact handlerOk_opcodesWords _ h hw _ _ _ hgiven
          | none => exact handlerOk_wordPlain _ _ _ hgiven
    · have hown : k.ownHandler o.name = none := by
        have := ownHandler_target k o.name (by simpa using hn)
        simpa using this
      obtain ⟨tpe, hw⟩ := opcodesWords_target hn
      rw [hown, hw]
      refine Ensures.pure ⟨ho.opsOk, fun i hi => ?_⟩
      rw [List.mem_singleton.mp hi]
      have hsym : (Generator.operandsOf o).hasSymbol = true := by
        simp [Operands.hasSymbol, Generator.operandsOf, hs]
      show InstOk (Generator.operandsOf o).hasSymbol _
      rw [hsym, ← List.take_append_drop (o.form.length - 8) o.form.toList, hb]
      exact InstOk.symbol ha
  refine hshape.bind fun shape hs => Ensures.ite (fun _ => ?_) fun _ => Ensures.pure hs
  exact (GeneratorKind.ensures_insertRaw hs.insts).bind fun r hr => Ensures.pure ⟨hs.ops, hr⟩

/-! ## 4. Words that are not populated yet -/

/-- The operands of a word. -/
def Word.ops (w : Word) : Operands := ⟨w.xregs, w.fregs, w.imms, w.symbols⟩

/-- A word as `getWord` returns it. -/
structure Word.Fresh (w : Word) : Prop where
  unpopulated : w.populated = false
  noPrefix : w.labelPrefix = []
  shape : ShapeOk ⟨w.tpe, w.insts, w.ops⟩

/-- **`getWord` returns a word as it should be**, with the next label of its part. -/
theorem ensures_getWord (g : Generator) (part : Part) :
    Ensures (g.getWord part) fun r => r.1.Fresh ∧ r.1.label = g.num part ∧ r.2 = g.next part := by
  refine Ensures.bind' fun opcode => ?_
  refine (Ensures.lift fun o ho => lookup_ok ho).bind fun o ho => ?_
  obtain ⟨rfl, ho⟩ := ho
  exact (ensures_processOpcode g.kind ho).bind fun shape hs =>
    Ensures.pure ⟨⟨rfl, rfl, hs⟩, rfl, rfl⟩

end Difuzz.Mutator
