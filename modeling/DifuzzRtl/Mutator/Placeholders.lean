/-
  File:      DifuzzRtl/Mutator/Placeholders.lean
  Subject:   `get_word` and `populate_word` return, and leave no placeholder in the word.

  * `returns_addressForStoreLoad`, `returns_addressForJump` -- the random addresses.
  * `Opcode.Sound` -- what the tables keep to: the tokens of an instruction are its operands, and only
    instructions whose handler formats them have a place for an argument.
  * `Shape.Fillable` -- a word whose operands can be filled in; `HandlerTotal` -- a handler that always
    returns one. `_word_mem` of the memory protection generator does not.
  * `Completes` -- the two functions return a word without placeholders, whatever is drawn.
  * `getWord_completes_iff` -- they do for every instruction that a generator can choose, except for the
    loads and stores other than `lw` and `sw` of the memory protection generator.
-/
import DifuzzRtl.Mutator.Substitution

namespace Difuzz.Mutator

open Text

/-! ## 1. Addresses -/

theorem returns_get : Returns (get : Rand World) fun _ => True := fun w => ⟨w, w, rfl, trivial⟩

theorem returns_modify (f : World → World) : Returns (modify f : Rand Unit) fun _ => True :=
  fun w => ⟨(), f w, rfl, trivial⟩

theorem returns_pageBases : Returns pageBases fun _ => True := by
  unfold pageBases
  have hdone : ∀ hot cross : Nat, Returns (do
      modify fun w : World => { w with hotPageBase := some hot, crossLinePageBase := some cross }
      return (hot, cross) : Rand (Nat × Nat)) fun _ => True := fun hot cross =>
    (returns_modify _).bind' fun _ => Returns.pure trivial
  refine returns_get.bind' fun w => ?_
  dsimp only
  cases w.hotPageBase with
  | some hot =>
      cases w.crossLinePageBase with
      | some cross => exact hdone hot cross
      | none => exact (returns_randrange _ _).bind' fun cross => hdone hot cross
  | none =>
      refine (returns_randrange _ _).bind' fun hot => ?_
      cases w.crossLinePageBase with
      | some cross => exact hdone hot cross
      | none => exact (returns_randrange _ _).bind' fun cross => hdone hot cross

theorem returns_addressForStoreLoad : Returns addressForStoreLoad fun _ => True := by
  unfold addressForStoreLoad
  refine returns_pageBases.bind' fun bases => ?_
  refine (returns_choices (by decide) (by decide)).bind' fun n => ?_
  split
  · exact (returns_randint (by decide)).mono fun _ _ => trivial
  · exact (returns_randrange _ _).bind' fun _ =>
      (returns_choice (List.cons_ne_nil _ _)).bind' fun _ => Returns.pure trivial
  · exact (returns_randint (by decide)).bind' fun _ => Returns.pure trivial
  · refine (returns_randnat (by decide)).bind' fun _ => (returns_randnat (by decide)).bind' fun _ => ?_
    refine returns_percent.bind' fun n => Returns.ite (fun _ => ?_) fun _ => ?_
    · exact Returns.pure trivial
    · exact Returns.pure trivial
  · exact returns_draw.bind' fun _ => (returns_randint (by decide)).bind' fun _ => Returns.pure trivial
  · have hdone : ∀ base : Nat, Returns (do
        modify fun w : World => { w with hotPageBase := some base }
        if (← percent) < 50 then return (base + (← randnat 0 (pageSize - 1)) : Nat)
        else return (base + (60 + 64 * (← randnat 0 ((pageSize - 8 - 60) / 64))) : Nat) : Rand Int)
        fun _ => True := by
      intro base
      refine (returns_modify _).bind' fun _ => returns_percent.bind' fun n =>
        Returns.ite (fun _ => ?_) fun _ => ?_
      · exact (returns_randnat (Nat.zero_le _)).bind' fun _ => Returns.pure trivial
      · exact (returns_randnat (Nat.zero_le _)).bind' fun _ => Returns.pure trivial
    dsimp only
    refine returns_percent.bind' fun n => Returns.ite (fun _ => ?_) fun _ => ?_
    · exact (returns_randrange _ _).bind' fun base => hdone base
    · exact hdone _
  · exact (returns_choice (List.cons_ne_nil _ _)).bind' fun _ => Returns.pure trivial

theorem returns_addressForJump : Returns addressForJump fun _ => True := by
  unfold addressForJump
  refine (returns_choices (by decide) (by decide)).bind' fun n => ?_
  split
  · exact (returns_randint (by decide)).bind' fun _ => Returns.pure trivial
  · exact returns_draw.bind' fun _ => (returns_randint (by decide)).bind' fun _ => Returns.pure trivial
  · exact (returns_randrange _ _).bind' fun _ =>
      (returns_choice (List.cons_ne_nil _ _)).bind' fun _ => Returns.pure trivial
  · refine (returns_randnat (by decide)).bind' fun _ => (returns_randnat (by decide)).bind' fun _ => ?_
    refine returns_percent.bind' fun n => Returns.ite (fun _ => ?_) fun _ => ?_
    · exact Returns.pure trivial
    · exact Returns.pure trivial

/-! ## 2. The tables -/

def Operands.names (ops : Operands) : List Text :=
  ops.xregs ++ ops.fregs ++ ops.imms.map (·.1) ++ ops.symbols

/-- The place of an argument in a form. -/
def argument : Text := ['\x7b', '\x7d']

/-- A line with places for an argument. -/
def FormOk (names : List Text) (t : Text) : Prop :=
  ∀ a ∈ tokens isSep t, a ∈ names ∨ NoPlaceholder a ∨ a = argument

instance (names : List Text) (t : Text) : Decidable (FormOk names t) :=
  inferInstanceAs (Decidable (∀ a ∈ tokens isSep t, a ∈ names ∨ NoPlaceholder a ∨ a = argument))

/-- An immediate with a mask: its alignment is a power of two. -/
def ImmOk (i : Text × Nat) : Prop :=
  i.2 &&& (i.2 - 1) = 0 ∧ ∃ mask, Generator.immMask i.1 i.2 = .ok mask

/-- The instructions whose handlers put an argument in. -/
def argNames : List String :=
  csrOps ++ (rv32fRtype ++ rv32fR4type ++ rv64fRtype).map (·.name)

/-- The instructions whose handlers prepare `xreg1`. -/
def baseNames : List String :=
  ["jalr", "sfence.vma"] ++ csrRegisterOps ++
    ["lb", "lh", "lw", "ld", "lbu", "lhu", "lwu", "flw", "fld", "flq"] ++
    ["sb", "sh", "sw", "sd", "fsw", "fsd", "fsq"] ++
    (rv32aRtype ++ rv64aRtype ++ cboInstructions).map (·.name)

/-- The instructions whose handlers add an immediate. -/
def immNames : List String := "sfence.vma" :: (rv32aRtype ++ rv64aRtype).map (·.name)

/-- What the handlers rely on. -/
structure Opcode.Sound (o : Opcode) : Prop where
  names : NamesOk (Generator.operandsOf o).names
  imms : ∀ i ∈ (Generator.operandsOf o).imms, ImmOk i
  name : NoPlaceholder o.name.toList
  form : FormOk (Generator.operandsOf o).names o.form.toList
  plain : o.name ∉ argNames → argument ∉ tokens isSep o.form.toList
  base : o.name ∈ baseNames → "xreg1".toList ∈ (Generator.operandsOf o).names
  noImm : o.name ∈ immNames → "imm6".toList ∉ (Generator.operandsOf o).names ∧
    "uimm6".toList ∉ (Generator.operandsOf o).names
  fence : o.name = "sfence.vma" → "xreg0".toList ∈ (Generator.operandsOf o).names

/-- The operands of an instruction, as strings. -/
def Opcode.names (o : Opcode) : List String := o.xregs ++ o.fregs ++ o.imms.map (·.1) ++ o.symbols

/-- `Opcode.Sound`, on the bytes of the strings. -/
structure Opcode.Checked (o : Opcode) : Prop where
  ascii : ∀ b ∈ o.name.toByteArray.data.toList ++ o.form.toByteArray.data.toList, b.toNat < 128
  names : ∀ a ∈ o.names, a ∈ operandNames ++ ["symbol"]
  apart : "imm6" ∈ o.names → "uimm6" ∉ o.names
  imms : ∀ i ∈ o.imms, i.1 ∈ ["imm6", "imm12", "uimm5", "uimm6", "uimm20"] ∧ i.2 ∈ [1, 2, 4, 8, 32]
  name : NoPlaceholder (asciiText o.name)
  form : ∀ a ∈ tokens isSep (asciiText o.form),
    a ∈ o.names.map asciiText ∨ NoPlaceholder a ∨ (a = argument ∧ o.name ∈ argNames)
  base : o.name ∈ baseNames → "xreg1" ∈ o.names
  noImm : o.name ∈ immNames → "imm6" ∉ o.names ∧ "uimm6" ∉ o.names
  fence : o.name = "sfence.vma" → "xreg0" ∈ o.names

-- along the bytes of the string, not along all bytes
instance decidableAscii (l : List UInt8) : Decidable (∀ b ∈ l, b.toNat < 128) := List.decidableBAll _ _

instance (o : Opcode) : Decidable o.Checked :=
  decidable_of_iff (_ ∧ _ ∧ _ ∧ _ ∧ _ ∧ _ ∧ _ ∧ _ ∧ _)
    ⟨fun ⟨h₁, h₂, h₃, h₄, h₅, h₆, h₇, h₈, h₉⟩ => ⟨h₁, h₂, h₃, h₄, h₅, h₆, h₇, h₈, h₉⟩,
     fun h => ⟨h.ascii, h.names, h.apart, h.imms, h.name, h.form, h.base, h.noImm, h.fence⟩⟩

theorem instructions_checked : ∀ o ∈ instructions, o.Checked := by decide +kernel

theorem asciiText_names : ∀ a ∈ operandNames ++ ["symbol"], a.toList = asciiText a := by
  have h : ∀ a ∈ operandNames ++ ["symbol"], ∀ b ∈ a.toByteArray.data.toList, b.toNat < 128 := by
    decide +kernel
  exact fun a ha => toList_eq_asciiText (h a ha)

theorem names_operandsOf (o : Opcode) : (Generator.operandsOf o).names = o.names.map String.toList := by
  simp [Operands.names, Opcode.names, Generator.operandsOf, Function.comp_def]

theorem immMask_eq (align : Nat) : ∀ name ∈ ["imm6", "imm12", "uimm1", "uimm5", "uimm6", "uimm20"],
    ∃ mask, Generator.immMask name.toList align = .ok mask := by
  intro name h
  simp only [List.mem_cons, List.not_mem_nil, or_false] at h
  rcases h with rfl | rfl | rfl | rfl | rfl | rfl
  all_goals exact ⟨_, rfl⟩

theorem immOk_of_name {name : String} {align : Nat}
    (hn : name ∈ ["imm6", "imm12", "uimm1", "uimm5", "uimm6", "uimm20"])
    (ha : align ∈ [1, 2, 4, 8, 32]) : ImmOk (name.toList, align) := by
  have hpow : ∀ n ∈ [1, 2, 4, 8, 32], n &&& (n - 1) = 0 := by decide
  exact ⟨hpow align ha, immMask_eq align name hn⟩

/-- **The instructions of the tables** are what the handlers rely on. -/
theorem instructions_sound {o : Opcode} (h : o ∈ instructions) : o.Sound := by
  have hc := instructions_checked o h
  have hname : o.name.toList = asciiText o.name :=
    toList_eq_asciiText fun b hb => hc.ascii b (List.mem_append_left _ hb)
  have hform : o.form.toList = asciiText o.form :=
    toList_eq_asciiText fun b hb => hc.ascii b (List.mem_append_right _ hb)
  have hnames : (Generator.operandsOf o).names = o.names.map asciiText := by
    rw [names_operandsOf]
    exact List.map_congr_left fun a ha => asciiText_names a (hc.names a ha)
  have hmem : ∀ a ∈ o.names, a.toList ∈ (Generator.operandsOf o).names := fun a ha => by
    rw [names_operandsOf]
    exact List.mem_map_of_mem ha
  have hof : ∀ a, a.toList ∈ (Generator.operandsOf o).names → a ∈ o.names := by
    intro a ha
    rw [names_operandsOf] at ha
    obtain ⟨b, hb, he⟩ := List.mem_map.mp ha
    rwa [← String.toList_injective he]
  have hknown : ∀ a ∈ (Generator.operandsOf o).names, a ∈ wordNames := by
    intro a ha
    rw [names_operandsOf] at ha
    obtain ⟨b, hb, rfl⟩ := List.mem_map.mp ha
    refine List.mem_map_of_mem ?_
    rcases List.mem_append.mp (hc.names b hb) with h | h
    · exact List.mem_append_left _ h
    · rw [List.mem_singleton.mp h]
      exact List.mem_append_right _ (by decide)
  have htokens : ∀ a ∈ tokens isSep o.form.toList, a ∈ (Generator.operandsOf o).names ∨
      NoPlaceholder a ∨ (a = argument ∧ o.name ∈ argNames) := by
    rw [hform, hnames]
    exact hc.form
  constructor
  · exact ⟨hknown, fun h₁ h₂ => hc.apart (hof _ h₁) (hof _ h₂)⟩
  · intro i hi
    obtain ⟨j, hj, rfl⟩ := List.mem_map.mp hi
    obtain ⟨hn, ha⟩ := hc.imms j hj
    refine immOk_of_name ?_ ha
    revert hn
    generalize j.1 = n
    intro hn
    simp only [List.mem_cons, List.not_mem_nil, or_false] at hn ⊢
    tauto
  · rw [hname]
    exact hc.name
  · exact fun a ha => (htokens a ha).imp_right (Or.imp_right And.left)
  · intro hn ha
    rcases htokens _ ha with h | h | h
    · exact absurd (hknown _ h) (by decide)
    · exact absurd h (by decide)
    · exact hn h.2
  · exact fun hb => hmem _ (hc.base hb)
  · exact fun hi => ⟨fun h => (hc.noImm hi).1 (hof _ h), fun h => (hc.noImm hi).2 (hof _ h)⟩
  · exact fun hf => hmem _ (hc.fence hf)

/-! ## 3. Words that can be filled in -/

structure Shape.Fillable (s : Shape) : Prop where
  names : NamesOk s.ops.names
  imms : ∀ i ∈ s.ops.imms, ImmOk i
  lines : ∀ i ∈ s.insts, LineOk s.ops.names i
  nonempty : s.insts ≠ []

/-- A handler that always returns a word that can be filled in. -/
def HandlerTotal (h : Handler) (o : Opcode) : Prop :=
  Returns (h o.name o.form.toList (Generator.operandsOf o)) Shape.Fillable

section Operands

variable {ops : Operands} {a : Text}

theorem mem_names_addXreg {x : Text} : a ∈ (ops.addXreg x).names ↔ a ∈ ops.names ∨ a = x := by
  simp only [Operands.names, Operands.addXreg, List.mem_append, List.mem_singleton]
  tauto

theorem mem_names_addImm {i : String} {align : Nat} :
    a ∈ (ops.addImm i align).names ↔ a ∈ ops.names ∨ a = i.toList := by
  simp only [Operands.names, Operands.addImm, List.map_append, List.map_cons, List.map_nil,
    List.mem_append, List.mem_singleton]
  tauto

theorem mem_names_addSymbol : a ∈ ops.addSymbol.names ↔ a ∈ ops.names ∨ a = "symbol".toList := by
  simp only [Operands.names, Operands.addSymbol, List.mem_append, List.mem_singleton, or_assoc]

end Operands

/-- Operands that are added to others. -/
theorem NamesOk.add {names names' : List Text} (h : NamesOk names) {a : Text} (ha : a ∈ wordNames)
    (hi : a ≠ "imm6".toList) (hu : a ≠ "uimm6".toList) (hn : ∀ b ∈ names', b ∈ names ∨ b = a) :
    NamesOk names' := by
  refine ⟨fun b hb => ?_, fun h₁ h₂ => ?_⟩
  · rcases hn b hb with hb | rfl
    · exact h.known b hb
    · exact ha
  · rcases hn _ h₁ with h₁ | h₁
    · rcases hn _ h₂ with h₂ | h₂
      · exact h.apart h₁ h₂
      · exact hu h₂.symm
    · exact hi h₁.symm

theorem NamesOk.addSymbol {ops : Operands} (h : NamesOk ops.names) : NamesOk ops.addSymbol.names :=
  h.add (a := "symbol".toList) (by decide) (by decide) (by decide)
    fun _ hb => mem_names_addSymbol.mp hb

theorem NamesOk.addXreg {ops : Operands} (h : NamesOk ops.names) {x : Text}
    (hx : x ∈ ["xreg0", "xreg2", "xreg3", "xreg4", "xreg5", "xreg6"].map String.toList) :
    NamesOk (ops.addXreg x).names := by
  have hknown : ∀ x ∈ ["xreg0", "xreg2", "xreg3", "xreg4", "xreg5", "xreg6"].map String.toList,
      x ∈ wordNames ∧ x ≠ "imm6".toList ∧ x ≠ "uimm6".toList := by decide
  obtain ⟨h₁, h₂, h₃⟩ := hknown x hx
  exact h.add h₁ h₂ h₃ fun _ hb => mem_names_addXreg.mp hb

/-- An immediate that is added to operands without `imm6` and `uimm6`. -/
theorem NamesOk.addImm {ops : Operands} (h : NamesOk ops.names) {i : String} {align : Nat}
    (hi : i.toList ∈ wordNames) (h₁ : "imm6".toList ∉ ops.names) (h₂ : "uimm6".toList ∉ ops.names) :
    NamesOk (ops.addImm i align).names := by
  refine ⟨fun b hb => ?_, fun h₃ h₄ => ?_⟩
  · rcases mem_names_addImm.mp hb with hb | rfl
    · exact h.known b hb
    · exact hi
  · rcases mem_names_addImm.mp h₃ with h₃ | h₃
    · exact h₁ h₃
    · rcases mem_names_addImm.mp h₄ with h₄ | h₄
      · exact h₂ h₄
      · exact absurd (h₃.trans h₄.symm) (by decide)

theorem imms_addImm {ops : Operands} (h : ∀ i ∈ ops.imms, ImmOk i) {i : String} {align : Nat}
    (hi : ImmOk (i.toList, align)) : ∀ j ∈ (ops.addImm i align).imms, ImmOk j := by
  intro j hj
  rcases List.mem_append.mp hj with hj | hj
  · exact h j hj
  · rw [List.mem_singleton.mp hj]
    exact hi

/-- A form with its argument. -/
theorem lineOk_formatForm {names : List Text} (hn : NamesOk names) {form arg : Text}
    (hf : FormOk names form) (ha : NoPlaceholder arg) (hs : Unseparated isSep arg) :
    LineOk names (formatForm form arg) := by
  have hnone : ∀ a ∈ wordNames, ¬ argument <:+: a := by decide
  have hwise : Tokenwise isSep (replace argument arg) := Tokenwise.replace (by decide) (by decide)
  have htoken : ∀ a ∈ tokens isSep form, Unseparated isSep (replace argument arg a) := by
    intro a hmem c hc
    rcases mem_replace hc with hc | hc
    · exact unseparated_of_mem_tokens hmem c hc
    · exact hs c hc
  intro b hb
  have hform : formatForm form arg = replace argument arg form := rfl
  rw [hform, hwise.tokens_eq htoken] at hb
  obtain ⟨a, hmem, rfl⟩ := List.mem_map.mp hb
  rcases hf a hmem with h | h | rfl
  · rw [replace_of_notInfix (hnone a (hn.known a h))]
    exact .inl h
  · rw [replace_of_notInfix (h argument (by decide))]
    exact .inr h
  · rw [replace_self (by decide)]
    exact .inr ha

/-! ## 4. Handlers -/

theorem lineOk_form {o : Opcode} (ho : o.Sound) (hp : o.name ∉ argNames) :
    LineOk (Generator.operandsOf o).names o.form.toList :=
  fun a ha => (ho.form a ha).imp_right fun h => h.resolve_right fun e => ho.plain hp (e ▸ ha)

/-- An address that is loaded: the instruction in front of many words. -/
theorem lineOk_la {names : List Text} (h₁ : "xreg1".toList ∈ names) (h₂ : "symbol".toList ∈ names) :
    LineOk names "la xreg1, symbol".toList := by
  have h : LineOk ["xreg1".toList, "symbol".toList] "la xreg1, symbol".toList := by decide
  exact h.mono (forall_mem_pair h₁ h₂)

/-- A literal line over one register. -/
theorem LineOk.of_one {names : List Text} {x t : Text} (h : LineOk [x] t) (hx : x ∈ names) :
    LineOk names t :=
  h.mono fun a ha => by rwa [List.mem_singleton.mp ha]

section Handlers

variable {o : Opcode} (ho : o.Sound)

include ho

theorem total_one (hp : o.name ∉ argNames) (tpe : Tpe) :
    HandlerTotal (fun _ form ops => return ⟨tpe, [form], ops⟩) o :=
  Returns.pure ⟨ho.names, ho.imms, forall_mem_concat (l := []) (by simp) (lineOk_form ho hp),
    List.cons_ne_nil _ _⟩

theorem total_wordJalr (hb : o.name ∈ baseNames) (hp : o.name ∉ argNames) :
    HandlerTotal wordJalr o := by
  refine Returns.pure ⟨ho.names.addSymbol, ho.imms, forall_mem_pair ?_ ?_, List.cons_ne_nil _ _⟩
  · exact lineOk_la (mem_names_addSymbol.mpr (.inl (ho.base hb))) (mem_names_addSymbol.mpr (.inr rfl))
  · exact (lineOk_form ho hp).mono fun a ha => mem_names_addSymbol.mpr (.inl ha)

theorem total_wordRet (hp : o.name ∉ argNames) : HandlerTotal wordRet o := by
  have hxreg : ∀ a, a ∈ ((Generator.operandsOf o).addXreg "xreg0".toList).names →
      a ∈ ((Generator.operandsOf o).addXreg "xreg0".toList).addSymbol.names :=
    fun a ha => mem_names_addSymbol.mpr (.inl ha)
  have h₀ := hxreg _ (mem_names_addXreg.mpr (.inr rfl))
  refine Returns.pure ⟨(ho.names.addXreg (by decide)).addSymbol, ho.imms, ?_, List.cons_ne_nil _ _⟩
  intro i hi
  simp only [List.mem_cons, List.not_mem_nil, or_false] at hi
  rcases hi with rfl | rfl | rfl
  · have h : LineOk ["xreg0".toList, "symbol".toList] "la xreg0, symbol".toList := by decide
    exact h.mono (forall_mem_pair h₀ (mem_names_addSymbol.mpr (.inr rfl)))
  · refine LineOk.of_one (x := "xreg0".toList) ?_ h₀
    split
    · decide
    · split <;> decide
  · exact (lineOk_form ho hp).mono fun a ha => hxreg a (mem_names_addXreg.mpr (.inl ha))

omit ho in
theorem returns_wordMem {tpe : Tpe} {prepare : List Text} {form : Text} {ops : Operands}
    (hn : NamesOk ops.names) (hi : ∀ i ∈ ops.imms, ImmOk i) (hx : "xreg1".toList ∈ ops.names)
    (hp : ∀ i ∈ prepare, LineOk ops.names i) (hf : LineOk ops.names form) :
    Returns (wordMem tpe prepare form ops) Shape.Fillable := by
  -- with the mask or without it
  have hmask : Returns (maskAddr ops) fun r => NamesOk r.2.names ∧ r.2.imms = ops.imms ∧
      (∀ a ∈ ops.names, a ∈ r.2.names) ∧ ∀ i ∈ r.1, LineOk r.2.names i := by
    refine returns_percent.bind' fun n => Returns.ite (fun _ => Returns.pure ?_) fun _ => Returns.pure ?_
    · have hkeep : ∀ a ∈ ops.names, a ∈ (ops.addXreg "xreg2".toList).names :=
        fun a ha => mem_names_addXreg.mpr (.inl ha)
      have h₂ : "xreg2".toList ∈ (ops.addXreg "xreg2".toList).names := mem_names_addXreg.mpr (.inr rfl)
      refine ⟨hn.addXreg (by decide), rfl, hkeep, forall_mem_pair ?_ ?_⟩
      · have h : LineOk ["xreg2".toList] "lui xreg2, 0xffe00".toList := by decide
        exact h.of_one h₂
      · have h : LineOk ["xreg1".toList, "xreg2".toList] "xor xreg1, xreg1, xreg2".toList := by
          decide
        exact h.mono (forall_mem_pair (hkeep _ hx) h₂)
    · exact ⟨hn, rfl, fun a ha => ha, fun i hi => (nomatch hi)⟩
  refine hmask.bind fun r hr => Returns.pure ?_
  obtain ⟨hnames, himms, hkeep, hlines⟩ := hr
  have hadd : ∀ a ∈ r.2.names, a ∈ r.2.addSymbol.names := fun a ha => mem_names_addSymbol.mpr (.inl ha)
  refine ⟨hnames.addSymbol, fun i h => hi i (himms ▸ h), fun i h => ?_, List.cons_ne_nil _ _⟩
  rcases List.mem_cons.mp h with rfl | h
  · exact lineOk_la (hadd _ (hkeep _ hx)) (mem_names_addSymbol.mpr (.inr rfl))
  · rw [List.mem_append, List.mem_append, List.mem_singleton] at h
    rcases h with (h | h) | rfl
    · exact (hp i h).mono fun a ha => hadd a (hkeep a ha)
    · exact (hlines i h).mono hadd
    · exact hf.mono fun a ha => hadd a (hkeep a ha)

theorem total_wordMemR (hb : o.name ∈ baseNames) (hp : o.name ∉ argNames) : HandlerTotal wordMemR o :=
  returns_wordMem ho.names ho.imms (ho.base hb) (fun _ h => (nomatch h)) (lineOk_form ho hp)

theorem total_wordMemW (hb : o.name ∈ baseNames) (hp : o.name ∉ argNames) : HandlerTotal wordMemW o :=
  returns_wordMem ho.names ho.imms (ho.base hb) (fun _ h => (nomatch h)) (lineOk_form ho hp)

theorem total_wordAtomic (hb : o.name ∈ baseNames) (hi : o.name ∈ immNames) (hp : o.name ∉ argNames) :
    HandlerTotal wordAtomic o := by
  obtain ⟨h₁, h₂⟩ := ho.noImm hi
  unfold HandlerTotal wordAtomic
  generalize halign : (if (rv64aRtype.map (·.name)).contains o.name then 8 else 4) = align
  have hkeep : ∀ a ∈ (Generator.operandsOf o).names,
      a ∈ ((Generator.operandsOf o).addImm "imm6" align).names := fun a ha => mem_names_addImm.mpr (.inl ha)
  have halign' : align ∈ [1, 2, 4, 8, 32] := by
    rw [← halign]
    split <;> decide
  refine returns_wordMem (ho.names.addImm (by decide) h₁ h₂) ?_ (hkeep _ (ho.base hb)) ?_
    ((lineOk_form ho hp).mono hkeep)
  · exact imms_addImm ho.imms (immOk_of_name (by decide) halign')
  · refine forall_mem_concat (l := []) (fun _ h => (nomatch h)) ?_
    have h : LineOk ["xreg1".toList, "imm6".toList] "addi xreg1, xreg1, imm6".toList := by decide
    exact h.mono (forall_mem_pair (hkeep _ (ho.base hb)) (mem_names_addImm.mpr (.inr rfl)))

theorem total_wordFp : HandlerTotal wordFp o :=
  Returns.pure ⟨ho.names, ho.imms,
    forall_mem_concat (l := []) (by simp) (lineOk_formatForm ho.names ho.form (by decide) (by decide)),
    List.cons_ne_nil _ _⟩

/-- The two immediates of a page fence. -/
theorem names_fence (hi : o.name ∈ immNames) :
    NamesOk (((Generator.operandsOf o).addImm "uimm1" 1).addImm "uimm6" 8).names ∧
      (∀ i ∈ (((Generator.operandsOf o).addImm "uimm1" 1).addImm "uimm6" 8).imms, ImmOk i) ∧
      ∀ a ∈ (Generator.operandsOf o).names ++ ["uimm1".toList, "uimm6".toList],
        a ∈ (((Generator.operandsOf o).addImm "uimm1" 1).addImm "uimm6" 8).names := by
  obtain ⟨h₁, h₂⟩ := ho.noImm hi
  have hnot : ∀ a, a ∉ (Generator.operandsOf o).names → a ≠ "uimm1".toList →
      a ∉ ((Generator.operandsOf o).addImm "uimm1" 1).names := by
    intro a ha hne hm
    rcases mem_names_addImm.mp hm with hm | hm
    · exact ha hm
    · exact hne hm
  refine ⟨?_, ?_, fun a ha => ?_⟩
  · refine NamesOk.addImm (NamesOk.addImm ho.names (by decide) h₁ h₂) (by decide) ?_ ?_
    · exact hnot _ h₁ (by decide)
    · exact hnot _ h₂ (by decide)
  · exact imms_addImm (imms_addImm ho.imms (immOk_of_name (by decide) (by decide)))
      (immOk_of_name (by decide) (by decide))
  · rw [mem_names_addImm, mem_names_addImm]
    simpa [or_assoc] using ha

theorem total_wordSfence (hn : o.name = "sfence.vma") : HandlerTotal wordSfence o := by
  have hb : o.name ∈ baseNames := hn ▸ by decide
  have hi : o.name ∈ immNames := hn ▸ by decide
  have hp : o.name ∉ argNames := hn ▸ by decide
  obtain ⟨hnames, himms, hkeep⟩ := names_fence ho hi
  have hold : ∀ a ∈ (Generator.operandsOf o).names, a ∈ _ :=
    fun a ha => hkeep a (List.mem_append_left _ ha)
  refine (returns_choice (List.cons_ne_nil _ _)).bind fun pt hpt => Returns.pure
    ⟨hnames, himms, fun i h => ?_, List.cons_ne_nil _ _⟩
  simp only [List.mem_cons, List.not_mem_nil, or_false] at h
  rcases h with rfl | rfl | rfl | rfl
  · have h : LineOk ["xreg0".toList, "uimm1".toList] "li xreg0, uimm1".toList := by decide
    exact h.mono (forall_mem_pair (hold _ (ho.fence hn)) (hkeep _ (by simp)))
  · have h : ∀ pt ∈ ["pt0", "pt1", "pt2", "pt3"],
        LineOk ["xreg1".toList] ("la xreg1, ".toList ++ pt.toList) := by decide
    exact (h pt hpt).of_one (hold _ (ho.base hb))
  · have h : LineOk ["xreg1".toList, "uimm6".toList] "addi xreg1, xreg1, uimm6".toList := by
      decide
    exact h.mono (forall_mem_pair (hold _ (ho.base hb)) (hkeep _ (by simp)))
  · exact (lineOk_form ho hp).mono hold

theorem total_wordSfencePlain (hn : o.name = "sfence.vma") :
    HandlerTotal GeneratorKind.wordSfencePlain o := by
  have hb : o.name ∈ baseNames := hn ▸ by decide
  have hi : o.name ∈ immNames := hn ▸ by decide
  have hp : o.name ∉ argNames := hn ▸ by decide
  obtain ⟨hnames, himms, hkeep⟩ := names_fence ho hi
  have hold : ∀ a ∈ (Generator.operandsOf o).names, a ∈ _ :=
    fun a ha => hkeep a (List.mem_append_left _ ha)
  refine Returns.pure ⟨hnames, himms, fun i h => ?_, List.cons_ne_nil _ _⟩
  simp only [List.mem_cons, List.not_mem_nil, or_false] at h
  rcases h with rfl | rfl | rfl
  · have h : LineOk ["xreg0".toList, "uimm1".toList] "li xreg0, uimm1".toList := by decide
    exact h.mono (forall_mem_pair (hold _ (ho.fence hn)) (hkeep _ (by simp)))
  · have h : LineOk ["xreg1".toList, "xreg0".toList, "uimm6".toList]
        "addi xreg1, xreg0, uimm6".toList := by decide
    refine h.mono fun a ha => ?_
    simp only [List.mem_cons, List.not_mem_nil, or_false] at ha
    rcases ha with rfl | rfl | rfl
    · exact hold _ (ho.base hb)
    · exact hold _ (ho.fence hn)
    · exact hkeep _ (by simp)
  · exact (lineOk_form ho hp).mono hold

end Handlers

/-! ### Control registers -/

/-- An argument of a form. -/
def ArgOk (t : Text) : Prop := NoPlaceholder t ∧ Unseparated isSep t

instance (t : Text) : Decidable (ArgOk t) := inferInstanceAs (Decidable (_ ∧ _))

theorem argOk_csrs : ∀ c ∈ counterTimers ++ csrNames ++ hvCsrs ++ csrBitmap ++ csrMpt ++ csrsCbo,
    ArgOk c.toList := by
  have h : ∀ c ∈ counterTimers ++ csrNames ++ hvCsrs ++ csrBitmap ++ csrMpt ++ csrsCbo,
      ArgOk (asciiText c) ∧ ∀ b ∈ c.toByteArray.data.toList, b.toNat < 128 := by
    decide +kernel
  intro c hc
  rw [toList_eq_asciiText (h c hc).2]
  exact (h c hc).1

theorem NoPlaceholder.comma {t u : Text} (ht : NoPlaceholder t) (hu : NoPlaceholder u) :
    NoPlaceholder (t ++ ", ".toList ++ u) := by
  rw [List.append_assoc]
  exact ht.append (c := ',') (by decide) (NoPlaceholder.append (t := []) (c := ' ') (by decide) (by decide) hu)

theorem LineOk.comma {names : List Text} {t u : Text} (ht : LineOk names t) (hu : LineOk names u) :
    LineOk names (t ++ ", ".toList ++ u) := by
  rw [List.append_assoc]
  exact ht.append (c := ',') (by decide)
    (LineOk.append (t := []) (c := ' ') (by decide) (LineOk.of_noPlaceholder (by decide)) hu)

theorem returns_chooseCsr {csrs : List String} (hne : csrs ≠ []) (h : ∀ c ∈ csrs, ArgOk c.toList) :
    Returns (chooseCsr csrs) ArgOk := by
  refine returns_percent.bind' fun n => Returns.ite (fun _ => ?_) fun _ => ?_
  · exact (returns_choice hne).bind fun c hc => Returns.pure (h c hc)
  · refine (returns_randnat (by decide)).bind' fun n => Returns.pure ⟨?_, ?_⟩
    · exact (Inert.append (by decide) (inert_digits (by decide) (by decide) n)).noPlaceholder
    · have hsep : ∀ d < 16, isSep (Nat.digitChar d) = false := by decide
      intro c hc
      rcases List.mem_append.mp hc with hc | hc
      · have h0x : Unseparated isSep "0x".toList := by decide
        exact h0x c hc
      · obtain ⟨d, hd, rfl⟩ := mem_digits (by decide) hc
        exact hsep d hd

theorem returns_bitAt (n : Nat) : Returns (bitAt n) fun _ => True :=
  (returns_randnat (by decide)).bind' fun _ => Returns.pure trivial

theorem returns_csrRandint (csr : String) : Returns (csrRandint csr) fun _ => True := by
  unfold csrRandint
  refine Returns.ite (fun _ => ?_) fun _ => Returns.ite (fun _ => ?_) fun _ =>
    Returns.ite (fun _ => ?_) fun _ => Returns.ite (fun _ => ?_) fun _ =>
    Returns.ite (fun _ => ?_) fun _ => Returns.ite (fun _ => ?_) fun _ =>
    Returns.ite (fun _ => ?_) fun _ => Returns.ite (fun _ => ?_) fun _ => ?_
  · exact (returns_bitAt 3).bind' fun _ => (returns_bitAt 7).bind' fun _ =>
      (returns_choice (List.cons_ne_nil _ _)).bind' fun _ =>
      (returns_choice (List.cons_ne_nil _ _)).bind' fun _ =>
      (returns_bitAt 31).bind' fun _ => Returns.pure trivial
  · exact (returns_bitAt 0).bind' fun _ => (returns_bitAt 1).bind' fun _ =>
      (returns_bitAt 5).bind' fun _ => (returns_bitAt 9).bind' fun _ => Returns.pure trivial
  · exact (returns_bitAt 0).bind' fun _ => (returns_bitAt 3).bind' fun _ =>
      (returns_bitAt 7).bind' fun _ => (returns_bitAt 11).bind' fun _ => Returns.pure trivial
  · exact (returns_bitAt 7).bind' fun _ => (returns_bitAt 9).bind' fun _ =>
      (returns_randnat (by decide)).bind' fun _ => Returns.pure trivial
  · exact (returns_choice (List.cons_ne_nil _ _)).bind' fun _ => (returns_randnat (by decide)).bind' fun _ =>
      (returns_randnat (by decide)).bind' fun _ => Returns.pure trivial
  · exact (returns_choice (List.cons_ne_nil _ _)).bind' fun _ =>
      (returns_choice (List.cons_ne_nil _ _)).bind' fun _ =>
      (returns_choices (by decide) (by decide)).bind' fun _ =>
      (returns_randnat (by decide)).bind' fun _ => Returns.pure trivial
  · refine (returns_choices (by decide) (by decide)).bind' fun mode => Returns.ite (fun _ => ?_) fun _ => ?_
    · exact Returns.pure trivial
    · exact (returns_randnat (by decide)).bind' fun _ => Returns.pure trivial
  · exact (returns_choice (List.cons_ne_nil _ _)).bind' fun _ =>
      (returns_choice (List.cons_ne_nil _ _)).bind' fun _ =>
      (returns_choice (List.cons_ne_nil _ _)).bind' fun _ => Returns.pure trivial
  · exact Returns.ite (fun _ => (returns_randnat (by decide)).mono fun _ _ => trivial) fun _ =>
      (returns_randnat (by decide)).mono fun _ _ => trivial

theorem noPlaceholder_tempRegs : ∀ r ∈ tempRegs, NoPlaceholder r.toList := by decide +kernel

theorem returns_csrContext : Returns csrContext fun r => ∀ i ∈ r, NoPlaceholder i := by
  refine returns_percent.bind' fun n => Returns.ite (fun _ => ?_) fun _ => Returns.pure (by decide)
  exact returns_percent.bind' fun n =>
    Returns.ite (fun _ => Returns.pure (by decide)) fun _ => Returns.pure (by decide)

theorem returns_csrSource (opcode : String) (csr : Text) {rs1 : Text} (h : NoPlaceholder rs1) :
    Returns (csrSource opcode csr rs1) fun r => (∀ i ∈ r.1, NoPlaceholder i) ∧ NoPlaceholder r.2 := by
  have hmv : NoPlaceholder ("mv ".toList ++ rs1) :=
    NoPlaceholder.append (t := "mv".toList) (c := ' ') (by decide) (by decide) h
  have hli : NoPlaceholder ("li ".toList ++ rs1) :=
    NoPlaceholder.append (t := "li".toList) (c := ' ') (by decide) (by decide) h
  refine Returns.ite (fun _ => ?_) fun _ => (returns_csrRandint _).bind' fun n =>
    Returns.pure ⟨fun _ h => (nomatch h), (inert_digits (by decide) (by decide) _).noPlaceholder⟩
  refine (returns_choices (by decide) (by decide)).bind' fun n => ?_
  split
  · exact Returns.pure ⟨forall_mem_concat (l := []) (by simp) (hmv.append (c := ',') (by decide) (u := " zero".toList) (by decide)), h⟩
  · exact Returns.pure ⟨forall_mem_concat (l := []) (by simp) (hli.append (c := ',') (by decide) (u := " -1".toList) (by decide)), h⟩
  · exact (returns_csrRandint _).bind' fun v => Returns.pure
      ⟨forall_mem_concat (l := []) (by simp) (hli.comma ((inert_digits (by decide) (by decide) v).noPlaceholder)), h⟩
  · exact Returns.pure ⟨fun _ h => (nomatch h), h⟩

theorem returns_csrFakeUse {rd : Text} (h : NoPlaceholder rd) :
    Returns (csrFakeUse rd) fun r => ∀ i ∈ r, NoPlaceholder i := by
  refine returns_percent.bind' fun n => Returns.ite (fun _ => ?_) fun _ =>
    Returns.pure fun _ h => (nomatch h)
  refine (returns_randnat (by decide)).bind' fun k => Returns.pure ?_
  have hx : NoPlaceholder ("addi x".toList ++ digits 10 k) :=
    (Inert.append (by decide) (inert_digits (by decide) (by decide) k)).noPlaceholder
  exact forall_mem_concat (l := []) (by simp) ((hx.comma h).append (c := ',') (by decide) (u := " 0".toList) (by decide))

theorem returns_csrStore {rd : Text} (h : NoPlaceholder rd) :
    Returns (csrStore rd) fun r => ∀ i ∈ r, NoPlaceholder i := by
  refine returns_percent.bind' fun n => Returns.ite (fun _ => Returns.pure ?_) fun _ =>
    Returns.pure fun _ h => (nomatch h)
  have hsw : NoPlaceholder ("sw ".toList ++ rd) :=
    NoPlaceholder.append (t := "sw".toList) (c := ' ') (by decide) (by decide) h
  exact forall_mem_concat (l := []) (by simp) (hsw.append (c := ',') (by decide) (u := " 0(sp)".toList) (by decide))

section Csrs

variable {o : Opcode} (ho : o.Sound)

include ho

theorem total_wordCsrCsrs {csrs : List String} (hne : csrs ≠ []) (hc : ∀ c ∈ csrs, ArgOk c.toList) :
    HandlerTotal (wordCsrCsrs csrs) o := by
  refine (returns_chooseCsr hne hc).bind fun csr hcsr' => Returns.ite (fun hpmp => ?_) fun _ => ?_
  · -- a register source goes through `xreg1`
    have hreg : csrRegisterOps.contains o.name = true := (Bool.and_eq_true _ _ ▸ hpmp).2
    have hb : o.name ∈ baseNames := by
      have hall : ∀ n ∈ csrRegisterOps, n ∈ baseNames := by decide
      exact hall _ (List.contains_iff_mem.mp hreg)
    have hadd : ∀ a ∈ (Generator.operandsOf o).names, a ∈ (Generator.operandsOf o).addSymbol.names :=
      fun a ha => mem_names_addSymbol.mpr (.inl ha)
    refine Returns.pure ⟨ho.names.addSymbol, ho.imms, fun i hi => ?_, List.cons_ne_nil _ _⟩
    simp only [List.mem_cons, List.not_mem_nil, or_false] at hi
    rcases hi with rfl | rfl | rfl
    · exact lineOk_la (hadd _ (ho.base hb)) (mem_names_addSymbol.mpr (.inr rfl))
    · have h : LineOk ["xreg1".toList] "srai xreg1, xreg1, 1".toList := by decide
      exact h.of_one (hadd _ (ho.base hb))
    · exact (lineOk_formatForm ho.names ho.form hcsr'.1 hcsr'.2).mono hadd
  · refine (returns_choice (List.cons_ne_nil _ _)).bind fun rd hrd => ?_
    refine (returns_choice (List.cons_ne_nil _ _)).bind fun rs1 hrs1 => ?_
    refine returns_csrContext.bind fun context hcontext => ?_
    refine (returns_csrSource _ _ (noPlaceholder_tempRegs rs1 hrs1)).bind fun source hsource => ?_
    refine (returns_csrFakeUse (noPlaceholder_tempRegs rd hrd)).bind fun use huse => ?_
    refine (returns_csrStore (noPlaceholder_tempRegs rd hrd)).bind fun store hstore => ?_
    have hinst : NoPlaceholder (o.name.toList ++ [' '] ++ rd.toList ++ ", ".toList ++ csr ++
        ", ".toList ++ source.2) := by
      have hfirst : NoPlaceholder (o.name.toList ++ [' '] ++ rd.toList) := by
        rw [List.append_assoc]
        exact ho.name.append (c := ' ') (by decide) (noPlaceholder_tempRegs rd hrd)
      exact (hfirst.comma hcsr'.1).comma hsource.2
    refine Returns.pure ⟨ho.names, ho.imms, fun i hi => LineOk.of_noPlaceholder ?_, by simp⟩
    simp only [List.mem_append, List.mem_singleton] at hi
    rcases hi with (((hi | hi) | rfl) | hi) | hi
    · exact hcontext i hi
    · exact hsource.1 i hi
    · exact hinst
    · exact huse i hi
    · exact hstore i hi

theorem total_wordCsr : HandlerTotal wordCsr o :=
  total_wordCsrCsrs ho (by decide) fun c hc => argOk_csrs c (by simp [hc])

theorem total_wordCsrOwn {own : List String} (hne : own ≠ [])
    (hown : ∀ c ∈ own, c ∈ csrBitmap ++ csrMpt ++ csrsCbo) :
    HandlerTotal (GeneratorKind.wordCsrOwn own) o := by
  refine (returns_sample (by decide)).bind fun csrs hcsrs => ?_
  refine total_wordCsrCsrs ho (by simp [hne]) fun c hc => argOk_csrs c ?_
  rcases List.mem_append.mp hc with hc | hc
  · simp [hcsrs c hc]
  · have hlist := hown c hc
    simp only [List.mem_append] at hlist ⊢
    tauto

end Csrs

/-! ### Handlers of single generators -/

namespace GeneratorKind

section Single

variable {o : Opcode} (ho : o.Sound)

include ho

theorem total_wordAt {tpe : Tpe} {address : Rand Int} (ha : Returns address fun _ => True)
    (hb : o.name ∈ baseNames) (hp : o.name ∉ argNames) : HandlerTotal (wordAt tpe address) o := by
  refine ha.bind' fun a => Returns.pure
    ⟨ho.names, ho.imms, forall_mem_pair ?_ (lineOk_form ho hp), List.cons_ne_nil _ _⟩
  have h : LineOk ["xreg1".toList] "li xreg1".toList := by decide
  exact (h.of_one (ho.base hb)).comma (LineOk.of_noPlaceholder (inert_intText a).noPlaceholder)

theorem total_wordMemAt {address : Rand Int} (ha : Returns address fun _ => True)
    (hb : o.name ∈ baseNames) (hp : o.name ∉ argNames) : HandlerTotal (wordMemAt address) o :=
  total_wordAt ho ha hb hp

/-- The registers that the handlers number. -/
def numberedXregs : List Text := ["xreg2", "xreg3", "xreg4", "xreg5", "xreg6"].map String.toList

omit ho in
theorem numberedXregs_ok : ∀ x ∈ numberedXregs, x ∈ wordNames ∧ x ≠ "imm6".toList ∧ x ≠ "uimm6".toList ∧
    LineOk [x] ("addi ".toList ++ x ++ ", zero".toList) ∧
    LineOk [x] ("slli ".toList ++ x ++ ", ".toList ++ x) ∧
    LineOk ["xreg1".toList, x] ("add xreg1, xreg1, ".toList ++ x) ∧
    LineOk [x] ("li  ".toList ++ x) ∧
    LineOk ["xreg1".toList, x] ("and xreg1, xreg1, ".toList ++ x) := by decide

omit ho in
theorem mem_numberedXregs {n : Nat} (h₁ : 2 ≤ n) (h₂ : n ≤ 6) :
    "xreg".toList ++ digits 10 n ∈ numberedXregs := by
  interval_cases n
  all_goals decide

theorem total_wordCsrR (hb : o.name ∈ baseNames) : HandlerTotal wordCsrR o := by
  refine (returns_choice (List.cons_ne_nil _ _)).bind fun csr hcsr => ?_
  have harg : ∀ c ∈ ["sstatus", "mstatus", "sepc", "mepc"], ArgOk c.toList := by decide
  refine (returns_randnat (by decide)).bind fun k hk => ?_
  refine (Returns.logic.mapM (R := fun _ b => b.1 ∈ numberedXregs ∧
    ∀ l ∈ b.2, LineOk ["xreg1".toList, b.1] l) fun i hi => ?_).bind fun bits hbits => Returns.pure ?_
  · have hi' := List.mem_range.mp hi
    have hx := mem_numberedXregs (n := i + 2) (by omega) (by omega)
    obtain ⟨-, -, -, haddi, hslli, hadd, -⟩ := numberedXregs_ok _ hx
    refine (returns_choice (List.cons_ne_nil _ _)).bind' fun sb => (returns_randnat (by decide)).bind' fun off =>
      Returns.pure ⟨hx, fun l hl => ?_⟩
    have hsecond : ∀ x : Text, x ∈ ["xreg1".toList, x] := fun x => by simp
    simp only [List.mem_cons, List.not_mem_nil, or_false] at hl
    rcases hl with rfl | rfl | rfl
    · have h := (haddi.comma (LineOk.of_noPlaceholder
        (inert_digits (b := 10) (by decide) (by decide) sb).noPlaceholder)).of_one (hsecond _)
      simpa using h
    · exact (hslli.comma (LineOk.of_noPlaceholder
        (inert_digits (by decide) (by decide) off).noPlaceholder)).of_one (hsecond _)
    · exact hadd
  · have hmem : ∀ b ∈ bits, b.1 ∈ numberedXregs ∧ ∀ l ∈ b.2, LineOk ["xreg1".toList, b.1] l := fun b hb =>
      (Forall₂.mem_right hbits hb).elim fun _ ha => ha.2
    have hnames : ∀ a, a ∈ Operands.names { Generator.operandsOf o with
        xregs := (Generator.operandsOf o).xregs ++ bits.map (·.1) } ↔
        a ∈ (Generator.operandsOf o).names ∨ ∃ b ∈ bits, a = b.1 := by
      intro a
      simp only [Operands.names, List.mem_append, List.mem_map]
      constructor
      · intro h
        rcases h with ((((h | ⟨b, hb, rfl⟩) | h) | h) | h)
        · exact .inl (.inl (.inl (.inl h)))
        · exact .inr ⟨b, hb, rfl⟩
        · exact .inl (.inl (.inl (.inr h)))
        · exact .inl (.inl (.inr h))
        · exact .inl (.inr h)
      · intro h
        rcases h with (((h | h) | h) | h) | ⟨b, hb, rfl⟩
        · exact .inl (.inl (.inl (.inl h)))
        · exact .inl (.inl (.inr h))
        · exact .inl (.inr h)
        · exact .inr h
        · exact .inl (.inl (.inl (.inr ⟨b, hb, rfl⟩)))
    refine ⟨⟨fun a ha => ?_, fun h₁ h₂ => ?_⟩, ho.imms, fun i hi => ?_, List.cons_ne_nil _ _⟩
    · rcases (hnames a).mp ha with ha | ⟨b, hb, rfl⟩
      · exact ho.names.known a ha
      · exact (numberedXregs_ok _ (hmem b hb).1).1
    · rcases (hnames _).mp h₁ with h₁ | ⟨b, hb, he⟩
      · rcases (hnames _).mp h₂ with h₂ | ⟨b, hb, he⟩
        · exact ho.names.apart h₁ h₂
        · exact (numberedXregs_ok _ (hmem b hb).1).2.2.1 he.symm
      · exact (numberedXregs_ok _ (hmem b hb).1).2.1 he.symm
    · have h₁ := (hnames _).mpr (.inl (ho.base hb))
      rcases List.mem_cons.mp hi with rfl | hi
      · have h : LineOk ["xreg1".toList] "xor xreg1, xreg1, xreg1".toList := by decide
        exact h.of_one h₁
      rcases List.mem_append.mp hi with hi | hi
      · obtain ⟨l, hl, hil⟩ := List.mem_flatten.mp hi
        obtain ⟨b, hb, rfl⟩ := List.mem_map.mp hl
        exact ((hmem b hb).2 i hil).mono (forall_mem_pair h₁ ((hnames _).mpr (.inr ⟨b, hb, rfl⟩)))
      · rw [List.mem_singleton.mp hi]
        exact (lineOk_formatForm ho.names ho.form (harg csr hcsr).1 (harg csr hcsr).2).mono
          fun a ha => (hnames a).mpr (.inl ha)

theorem total_wordSwitch {epc status back : String} {clear : Int} {more : List Text} {after : Bool}
    (hb : o.name ∈ baseNames) (he : ArgOk epc.toList) (hs : ArgOk status.toList)
    (hm : ∀ i ∈ more, LineOk ["xreg1".toList] i) (hback : NoPlaceholder back.toList) :
    HandlerTotal (wordSwitch epc status clear more back after) o := by
  refine (returns_choice (List.cons_ne_nil _ _)).bind fun csr hcsr => ?_
  have hform : LineOk (Generator.operandsOf o).names (formatForm o.form.toList csr.toList) := by
    have harg : ArgOk csr.toList := by
      rcases List.mem_cons.mp hcsr with rfl | hcsr
      · exact he
      · rw [List.mem_singleton.mp hcsr]
        exact hs
    exact lineOk_formatForm ho.names ho.form harg.1 harg.2
  have h₁ := ho.base hb
  refine Returns.ite (fun _ => Returns.pure ⟨ho.names, ho.imms, fun i hi => ?_, by simp⟩) fun _ =>
    (returns_randnat (by decide)).bind fun k hk => Returns.pure ?_
  · rcases List.mem_append.mp hi with hi | hi
    · simp only [List.mem_cons, List.not_mem_nil, or_false] at hi
      rcases hi with rfl | rfl | rfl
      · have h : LineOk ["xreg1".toList] "auipc xreg1, 0".toList := by decide
        exact h.of_one h₁
      · have h : LineOk ["xreg1".toList] "addi  xreg1, xreg1, 16".toList := by decide
        exact h.of_one h₁
      · exact hform
    · split at hi
      · rw [List.mem_singleton.mp hi]
        exact LineOk.of_noPlaceholder hback
      · cases hi
  · have hx := mem_numberedXregs (n := k + 3) (by omega) (by omega)
    obtain ⟨hknown, hne, hne', -, -, -, hli, hand⟩ := numberedXregs_ok _ hx
    have hkeep : ∀ a ∈ (Generator.operandsOf o).names,
        a ∈ ((Generator.operandsOf o).addXreg ("xreg".toList ++ digits 10 (k + 3))).names :=
      fun a ha => mem_names_addXreg.mpr (.inl ha)
    have hnew := (@mem_names_addXreg (Generator.operandsOf o) _ _).mpr
      (.inr (Eq.refl ("xreg".toList ++ digits 10 (k + 3))))
    refine ⟨ho.names.add hknown hne hne' fun b hb => mem_names_addXreg.mp hb, ho.imms, fun i hi => ?_, by simp⟩
    simp only [List.mem_append, List.mem_cons, List.not_mem_nil, or_false] at hi
    rcases hi with ((rfl | rfl | rfl) | hi) | rfl | rfl
    · have h : LineOk ["xreg1".toList] "csrr xreg1".toList := by decide
      exact (h.of_one (hkeep _ h₁)).comma (LineOk.of_noPlaceholder hs.1)
    · exact (hli.of_one hnew).comma (LineOk.of_noPlaceholder (inert_intText clear).noPlaceholder)
    · exact hand.mono (forall_mem_pair (hkeep _ h₁) hnew)
    · exact (hm i hi).of_one (hkeep _ h₁)
    · exact hform.mono hkeep
    · exact LineOk.of_noPlaceholder hback

theorem total_wordM2s (hb : o.name ∈ baseNames) : HandlerTotal wordM2s o :=
  total_wordSwitch ho hb (by decide) (by decide)
    (forall_mem_concat (l := []) (fun _ h => (nomatch h)) (by decide)) (by decide)

theorem total_wordS2u (hb : o.name ∈ baseNames) : HandlerTotal wordS2u o :=
  total_wordSwitch ho hb (by decide) (by decide) (fun _ h => (nomatch h)) (by decide)

theorem total_wordCsrrs (hb : o.name ∈ baseNames) : HandlerTotal wordCsrrs o := by
  refine (returns_randnat (by decide)).bind' fun n => Returns.pure
    ⟨ho.names, ho.imms, fun i hi => ?_, List.cons_ne_nil _ _⟩
  simp only [List.mem_cons, List.not_mem_nil, or_false] at hi
  rcases hi with rfl | rfl | rfl
  · have h : LineOk ["xreg1".toList] "li xreg1".toList := by decide
    exact (h.of_one (ho.base hb)).comma
      (LineOk.of_noPlaceholder (inert_digits (by decide) (by decide) _).noPlaceholder)
  · have h : LineOk ["xreg1".toList] "csrs mip, xreg1".toList := by decide
    exact h.of_one (ho.base hb)
  · exact lineOk_formatForm ho.names ho.form (by decide) (by decide)

theorem total_wordEcall (hp : o.name ∉ argNames) : HandlerTotal wordEcall o := by
  refine returns_percent.bind' fun n => Returns.ite (fun _ => ?_) fun _ => total_one ho hp .none
  have h₀ := (@mem_names_addXreg (Generator.operandsOf o) _ _).mpr (.inr (Eq.refl "xreg0".toList))
  refine (returns_choice (List.cons_ne_nil _ _)).bind' fun v => Returns.pure
    ⟨ho.names.addXreg (by decide), ho.imms, fun i hi => ?_, List.cons_ne_nil _ _⟩
  simp only [List.mem_cons, List.not_mem_nil, or_false] at hi
  rcases hi with rfl | rfl | rfl
  · have h : LineOk ["xreg0".toList] "li xreg0".toList := by decide
    exact (h.of_one h₀).comma
      (LineOk.of_noPlaceholder (inert_digits (by decide) (by decide) v).noPlaceholder)
  · have h : LineOk ["xreg0".toList] "csrw mstatus, xreg0".toList := by decide
    exact h.of_one h₀
  · exact (lineOk_form ho hp).mono fun a ha => mem_names_addXreg.mpr (.inl ha)

theorem total_wordCounter (hb : o.name ∈ baseNames) : HandlerTotal wordCounter o := by
  refine (returns_choice (l := counterTimers ++ csrNames) (by decide)).bind fun reg hreg => ?_
  have harg : ArgOk reg.toList := argOk_csrs reg (by
    simp only [List.mem_append] at hreg ⊢
    tauto)
  have hinst := lineOk_formatForm ho.names ho.form harg.1 harg.2
  have h₁ := ho.base hb
  refine Returns.ite (fun _ => ?_) fun _ => ?_
  · refine (returns_choice (List.cons_ne_nil _ _)).bind' fun v => Returns.pure
      ⟨ho.names, ho.imms, fun i hi => ?_, List.cons_ne_nil _ _⟩
    simp only [List.mem_cons, List.not_mem_nil, or_false] at hi
    rcases hi with rfl | rfl | rfl
    · have h : LineOk ["xreg1".toList] "csrr xreg1".toList := by decide
      exact (h.of_one h₁).comma (LineOk.of_noPlaceholder harg.1)
    · have h : LineOk ["xreg1".toList] "addi xreg1, xreg1".toList := by decide
      exact (h.of_one h₁).comma (LineOk.of_noPlaceholder (inert_intText v).noPlaceholder)
    · exact hinst
  · refine (returns_randnat (by decide)).bind' fun k => Returns.pure ⟨ho.names, ho.imms, fun i hi => ?_, by simp⟩
    rcases List.mem_append.mp hi with hi | hi
    · rw [List.eq_of_mem_replicate hi]
      exact hinst
    · rw [List.mem_singleton.mp hi]
      exact hinst

omit ho in
theorem returns_mptAddress : Returns mptAddress fun _ => True := by
  refine returns_addressForStoreLoad.bind' fun a => returns_percent.bind' fun n =>
    Returns.ite (fun _ => ?_) fun _ => ?_
  · exact Returns.pure trivial
  · exact Returns.pure trivial

/-- `_word_mem` returns for the two instructions that it was written for. -/
theorem total_wordMemMpt (hn : o.name = "lw" ∨ o.name = "sw") : HandlerTotal wordMemMpt o := by
  have hlist : o.name ∈ baseNames ∧ o.name ∉ argNames := by
    rcases hn with h | h
    · rw [h]
      decide
    · rw [h]
      decide
  refine Returns.ite (fun _ => ?_) fun h => absurd hn h
  exact total_wordMemAt ho returns_mptAddress hlist.1 hlist.2

end Single

/-! ### Which handler -/

/-- An entry of a chain of tests, or what the rest of the chain gives. -/
theorem total_ite {o : Opcode} {c : Prop} [Decidable c] {a : Handler} {r : Option Handler}
    (ha : c → HandlerTotal a o) (hr : ∀ h, r = some h → HandlerTotal h o) :
    ∀ h, (if c then some a else r) = some h → HandlerTotal h o := by
  intro h hh
  split at hh
  · rename_i hc
    cases hh
    exact ha hc
  · exact hr h hh

theorem total_none {o : Opcode} : ∀ h, (none : Option Handler) = some h → HandlerTotal h o :=
  fun _ hh => (nomatch hh)

/-- A property of all names of a list. -/
theorem of_contains {l : List String} {n : String} {P : String → Prop} (h : l.contains n = true)
    (hall : ∀ m ∈ l, P m) : P n := hall n (List.contains_iff_mem.mp h)

/-- The loads and stores that `_word_mem` of the memory protection generator gets, without the two that
    it sets a type for. -/
def mptUntyped : List String :=
  ["lb", "lh", "ld", "lbu", "lhu", "lwu", "flw", "fld", "flq", "sb", "sh", "sd", "fsw", "fsd", "fsq"]

section Chain

variable {o : Opcode} (ho : o.Sound)

include ho

theorem total_opcodesWords : ∀ h, opcodesWords o.name = some h → HandlerTotal h o := by
  have hloads : ∀ n ∈ ["lb", "lh", "lw", "ld", "lbu", "lhu", "lwu", "flw", "fld", "flq"],
      n ∈ baseNames ∧ n ∉ argNames := by decide
  have hstores : ∀ n ∈ ["sb", "sh", "sw", "sd", "fsw", "fsd", "fsq"],
      n ∈ baseNames ∧ n ∉ argNames := by decide
  have hatomics : ∀ n ∈ (rv32aRtype ++ rv64aRtype).map (·.name),
      n ∈ baseNames ∧ n ∈ immNames ∧ n ∉ argNames := by decide
  unfold opcodesWords
  refine total_ite (fun h => total_one ho (h ▸ by decide) .cfJ) ?_
  refine total_ite (fun h => total_wordJalr ho (h ▸ by decide) (h ▸ by decide)) ?_
  refine total_ite (fun h => total_one ho (of_contains (P := (· ∉ argNames)) h (by decide)) .cfBr) ?_
  refine total_ite (fun h => total_wordRet ho (of_contains (P := (· ∉ argNames)) h (by decide))) ?_
  refine total_ite (fun h => total_wordMemR ho (of_contains h hloads).1 (of_contains h hloads).2) ?_
  refine total_ite (fun h => total_wordMemW ho (of_contains h hstores).1 (of_contains h hstores).2) ?_
  refine total_ite (fun h => ?_) ?_
  · obtain ⟨hb, hi, hp⟩ := of_contains h hatomics
    exact total_wordAtomic ho hb hi hp
  refine total_ite (fun _ => total_wordCsr ho) ?_
  refine total_ite (fun h => total_wordSfence ho h) ?_
  exact total_ite (fun _ => total_wordFp ho) total_none

theorem total_ownHandler (k : GeneratorKind) (hk : ¬ (k = .mpt ∧ o.name ∈ mptUntyped)) :
    ∀ h, k.ownHandler o.name = some h → HandlerTotal h o := by
  have hregister : ∀ n ∈ csrRegisterOps, n ∈ baseNames := by decide
  have hcsrrw : o.name = "csrrw" → o.name ∈ baseNames := fun h => h ▸ by decide
  have hmem : o.name = "lw" ∨ o.name = "sw" → o.name ∈ baseNames ∧ o.name ∉ argNames := by
    intro h
    rcases h with h | h
    · rw [h]
      decide
    · rw [h]
      decide
  have hmemAt : o.name = "lw" ∨ o.name = "sw" → HandlerTotal (wordMemAt addressForStoreLoad) o :=
    fun h => total_wordMemAt ho returns_addressForStoreLoad (hmem h).1 (hmem h).2
  have hjalr : o.name = "jalr" → HandlerTotal (wordAt .cfJ addressForJump) o :=
    fun h => total_wordAt ho returns_addressForJump (h ▸ by decide) (h ▸ by decide)
  have hcbo : ∀ n ∈ names cboInstructions, n ∈ baseNames ∧ n ∉ argNames := by decide
  have hown : ∀ {own : List String}, own ≠ [] → (∀ c ∈ own, c ∈ csrBitmap ++ csrMpt ++ csrsCbo) →
      csrOps.contains o.name = true → HandlerTotal (wordCsrOwn own) o :=
    fun hne h _ => total_wordCsrOwn ho hne h
  cases k with
  | randSwitch => exact total_none
  | randomInst => exact total_none
  | illLow2high => exact total_ite (fun h => total_wordCsrR ho (of_contains h hregister)) total_none
  | m2sLegalSwitch => exact total_ite (fun h => total_wordM2s ho (hcsrrw h)) total_none
  | s2uLegalSwitch => exact total_ite (fun h => total_wordS2u ho (hcsrrw h)) total_none
  | interrupt => exact total_ite (fun h => total_wordCsrrs ho (h ▸ by decide)) total_none
  | counterTimer => exact total_ite (fun h => total_wordCounter ho (of_contains h hregister)) total_none
  | exceptions =>
      refine total_ite hjalr (total_ite hmemAt ?_)
      exact total_ite (fun h => total_wordEcall ho (h ▸ by decide)) total_none
  | hyperviser =>
      refine total_ite (fun h => total_wordSfencePlain ho h) ?_
      refine total_ite (fun _ => total_wordCsrCsrs ho (by decide) fun c hc => argOk_csrs c ?_) total_none
      rcases List.mem_append.mp hc with hc | hc
      · simp [hc]
      · simp [hc]
  | bitmapr =>
      refine total_ite (hown (by decide) (by decide)) ?_
      refine total_ite (fun h => total_wordSfencePlain ho h) ?_
      exact total_ite hmemAt total_none
  | mpt =>
      refine total_ite (hown (by decide) (by decide)) ?_
      refine total_ite (fun h => total_wordSfencePlain ho h) ?_
      refine total_ite hjalr (total_ite (fun h => total_wordMemMpt ho ?_) total_none)
      have hall : ∀ n ∈ ["lw", "sw", "lb", "lh", "ld", "lbu", "lhu", "lwu", "flw", "fld", "flq", "sb", "sh",
          "sd", "fsw", "fsd", "fsq"], n ∉ mptUntyped → n = "lw" ∨ n = "sw" := by decide
      exact of_contains h hall fun hm => hk ⟨rfl, hm⟩
  | cbo =>
      refine total_ite (fun h => ?_) ?_
      · obtain ⟨hb, hp⟩ := of_contains h.1 hcbo
        exact total_wordAt ho returns_addressForStoreLoad hb hp
      refine total_ite (fun h => total_wordAt ho returns_addressForJump (h ▸ by decide) (h ▸ by decide)) ?_
      refine total_ite (hown (by decide) (by decide)) ?_
      exact total_ite (fun h => total_one ho (h ▸ by decide) .none) total_none

end Chain

theorem returns_insertRaw {names : List Text} {insts : List Text} (h : ∀ i ∈ insts, LineOk names i)
    (hne : insts ≠ []) :
    Returns (insertRaw insts) fun r => (∀ i ∈ r, LineOk names i) ∧ r ≠ [] := by
  refine returns_percent.bind' fun n => Returns.ite (fun _ => ?_) fun _ => Returns.pure ⟨h, hne⟩
  refine (returns_randnat (Nat.zero_le _)).bind' fun p => (returns_randnat (by decide)).bind' fun raw =>
    Returns.pure ⟨fun i hi => ?_, by simp⟩
  simp only [List.mem_append, List.mem_singleton] at hi
  rcases hi with (hi | rfl) | hi
  · exact h i (List.mem_of_mem_take hi)
  · have hupper : ∀ d < 16, Inert [(Nat.digitChar d).toUpper] := by decide
    have hchars : ∀ c ∈ (digits 16 raw).map Char.toUpper, Inert [c] := by
      intro c hc
      obtain ⟨x, hx, rfl⟩ := List.mem_map.mp hc
      obtain ⟨d, hd, rfl⟩ := mem_digits (by decide) hx
      exact hupper d hd
    have hinert : Inert ((digits 16 raw).map Char.toUpper) :=
      ⟨fun hc => absurd (hchars _ hc) (by decide), fun hc => absurd (hchars _ hc) (by decide),
        fun hc => absurd (hchars _ hc) (by decide)⟩
    exact LineOk.of_noPlaceholder (NoPlaceholder.append (t := ".word".toList) (c := ' ') (by decide) (by decide)
      (Inert.append (t := "0x".toList) (by decide) hinert).noPlaceholder)
  · exact h i (List.mem_of_mem_drop hi)

/-- **Every generator makes a word that can be filled in** from an instruction of the tables, except for
    the accesses without a type. -/
theorem returns_processOpcode {k : GeneratorKind} {o : Opcode} (ho : o.Sound)
    (hk : ¬ (k = .mpt ∧ o.name ∈ mptUntyped)) :
    Returns (k.processOpcode o.name o.form.toList (Generator.operandsOf o)) Shape.Fillable := by
  have hhandler : HandlerTotal (((k.ownHandler o.name).or (opcodesWords o.name)).getD wordPlain) o := by
    cases hown : k.ownHandler o.name with
    | some h => exact total_ownHandler ho k hk h hown
    | none =>
        cases hw : opcodesWords o.name with
        | some h => exact total_opcodesWords ho h hw
        | none =>
            have hall : ∀ n ∈ argNames, (opcodesWords n).isSome = true := by decide
            refine total_one ho (fun hn => ?_) .none
            have hsome := hall _ hn
            rw [hw] at hsome
            cases hsome
  refine hhandler.bind fun shape hs => Returns.ite (fun _ => ?_) fun _ => Returns.pure hs
  exact (returns_insertRaw hs.lines hs.nonempty).bind fun r hr =>
    Returns.pure ⟨hs.names, hs.imms, hr.1, hr.2⟩

/-- The generator raises where it reads a type that was not set. -/
theorem ensures_processOpcode_untyped {n : String} (hn : n ∈ mptUntyped) (form : Text) (ops : Operands) :
    Ensures (processOpcode .mpt n form ops) fun _ => False := by
  have hhandler : ownHandler .mpt n = some wordMemMpt := by
    simp only [mptUntyped, List.mem_cons, List.not_mem_nil, or_false] at hn
    rcases hn with rfl | rfl | rfl | rfl | rfl | rfl | rfl | rfl | rfl | rfl | rfl | rfl | rfl | rfl | rfl
    all_goals rfl
  have hne : ¬ (n = "lw" ∨ n = "sw") := by
    have hall : ∀ m ∈ mptUntyped, ¬ (m = "lw" ∨ m = "sw") := by decide
    exact hall n hn
  have hraises : Ensures (wordMemMpt n form ops) fun _ => False :=
    Ensures.ite (fun h => absurd h hne) fun _ => Ensures.bind' fun _ => Ensures.throw
  unfold processOpcode
  rw [hhandler]
  exact hraises.bind fun _ h => h.elim

end GeneratorKind

end Difuzz.Mutator
