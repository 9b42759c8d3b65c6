/-
  File:      DifuzzRtl/Mutator/Totality.lean
  Subject:   `get_word` and `populate_word` return, and leave no placeholder in the word.

  * `returns_selectOpcode` -- every generator chooses an instruction of the tables.
  * `returns_populateWord` -- a word that can be filled in is filled in.
  * `Completes` -- the two functions return a complete word, whatever is drawn and was drawn before.
  * `word_completes_iff` -- they do for every instruction that a generator can choose, except for the
    loads and stores other than `lw` and `sw` of the memory protection generator.
-/
import DifuzzRtl.Mutator.Immediates

namespace Difuzz.Mutator

open Text

/-! ## 1. Instructions that are chosen -/

/-- The names of the tables are found. -/
theorem lookup_of_mem {n : String} (h : n ∈ instructions.map (·.name)) :
    ∃ o, Generator.lookup n = .ok o := by
  unfold Generator.lookup
  cases hf : (hvInstructions ++ cboInstructions).find? (·.name == n) with
  | some o => exact ⟨o, rfl⟩
  | none =>
      obtain ⟨o, ho, rfl⟩ := List.mem_map.mp h
      rcases List.mem_append.mp ho with ho | ho
      · have hno := List.find?_eq_none.mp hf o ho
        simp at hno
      · have hkey : o.name ∈ opcodesMap.keys := by
          rw [opcodesMap, Dict.mem_keys_ofList, List.map_map]
          exact List.mem_map.mpr ⟨o, ho, rfl⟩
        obtain ⟨o', ho'⟩ := Dict.get?_isSome_iff.mpr hkey
        exact ⟨o', by rw [ho']⟩

namespace GeneratorKind

/-- The lists that the generators choose from on their own. -/
def ownOpcodes : List String :=
  csrRegisterOps ++ ["jalr", "ebreak", "lw", "sw", "ecall", "fence", "mret", "sret", "sfence.vma"] ++
    names rvZicsr ++ names rvZifencei ++ names hvInstructions ++ names rv32iStype ++ names rv32iItype ++
    names rv32iJtype ++ names cboInstructions

theorem lookup_ownOpcodes {n : String} (h : n ∈ ownOpcodes) : ∃ o, Generator.lookup n = .ok o := by
  have hall : ∀ n ∈ ownOpcodes, n ∈ instructions.map (·.name) := by decide
  exact lookup_of_mem (hall n h)

theorem returns_choice_own {l : List String} (hne : l ≠ []) (hl : ∀ n ∈ l, n ∈ ownOpcodes) :
    Returns (choice l) fun n => ∃ o, Generator.lookup n = .ok o :=
  (returns_choice hne).mono fun n hn => lookup_ownOpcodes (hl n hn)

theorem returns_baseSelect (part : Part) :
    Returns (baseSelect part) fun n => ∃ o, Generator.lookup n = .ok o := by
  refine Returns.ite (fun _ => returns_choice_own (by decide) fun n hn => by simp [ownOpcodes, hn]) fun _ => ?_
  have hne : opcodesMap.keys ≠ [] := by
    have hmem : "mret" ∈ opcodesMap.keys := by
      rw [opcodesMap, Dict.mem_keys_ofList, List.map_map]
      exact List.mem_map.mpr ⟨op "mret" "mret", by simp [trapRet], rfl⟩
    exact List.ne_nil_of_mem hmem
  refine (returns_choice hne).mono fun n hn => lookup_of_mem ?_
  rw [opcodesMap, Dict.mem_keys_ofList, List.map_map] at hn
  rw [instructions, List.map_append]
  exact List.mem_append_right _ hn

theorem returns_selectFrom {p : Nat} {parts : List Part} {own : Rand String} (part : Part)
    (h : Returns own fun n => ∃ o, Generator.lookup n = .ok o) :
    Returns (selectFrom p parts own part) fun n => ∃ o, Generator.lookup n = .ok o :=
  returns_percent.bind' fun _ => Returns.ite (fun _ => h) fun _ => returns_baseSelect part

/-- **Every generator chooses an instruction of the tables.** -/
theorem returns_selectOpcode (k : GeneratorKind) (part : Part) :
    Returns (k.selectOpcode part) fun n => ∃ o, Generator.lookup n = .ok o := by
  cases k with
  | counterTimer =>
      exact returns_selectFrom part (returns_choice_own (by decide) fun n hn => by simp [ownOpcodes, hn])
  | exceptions =>
      have hall : ∀ n ∈ ["jalr", "ebreak", "lw", "sw", "ecall"], n ∈ ownOpcodes := by decide
      exact returns_selectFrom part ((returns_choices (by decide) (by decide)).mono
        fun n hn => lookup_ownOpcodes (hall n hn))
  | interrupt => exact returns_selectFrom part (Returns.pure (lookup_ownOpcodes (by decide)))
  | randSwitch =>
      refine returns_selectFrom part (returns_choice_own (by decide) ?_)
      decide
  | randomInst => exact returns_baseSelect part
  | illLow2high =>
      refine returns_selectFrom part ((returns_randnat (by decide)).bind' fun dice => ?_)
      refine Returns.ite (fun _ => returns_choice_own (by decide) (by decide)) fun _ =>
        Returns.ite (fun _ => Returns.pure (lookup_ownOpcodes (by decide))) fun _ =>
          returns_choice_own (by decide) (by decide)
  | m2sLegalSwitch => exact returns_selectFrom part (Returns.pure (lookup_ownOpcodes (by decide)))
  | s2uLegalSwitch => exact returns_selectFrom part (Returns.pure (lookup_ownOpcodes (by decide)))
  | hyperviser => exact returns_selectFrom part (returns_choice_own (by decide) (by decide))
  | bitmapr => exact returns_selectFrom part (returns_choice_own (by decide) (by decide))
  | mpt => exact returns_selectFrom part (returns_choice_own (by decide) (by decide))
  | cbo =>
      exact returns_selectFrom part (returns_choice_own (by decide) fun n hn => by simp [ownOpcodes, hn])

end GeneratorKind

/-! ## 2. Populating -/

section Populate

variable (g : Generator)

theorem noPlaceholder_reg {c : Char} (hc : Inert [c]) (n : Nat) : NoPlaceholder (c :: digits 10 n) :=
  (Inert.append (t := [c]) hc (inert_digits (by decide) (by decide) n)).noPlaceholder

theorem returns_xNum {region : Nat × Nat} (h : ((List.range 32).take region.2).drop region.1 ≠ []) :
    Returns (g.xNum region) fun _ => True := by
  refine Returns.bind (Q := fun b => b = true → g.usedXNums ≠ []) ?_ fun b hb => Returns.ite (fun hb' => ?_)
    fun _ => (returns_choice h).bind' fun n => Returns.pure trivial
  · exact Returns.ite (fun _ => returns_again _) fun _ => Returns.pure fun h => (nomatch h)
  · exact (returns_choice (hb hb')).bind' fun n => Returns.pure trivial

theorem returns_getXregs (part : Part) (noZero : Bool) :
    Returns (g.getXregs (if part = .prefixPart then (10, 15) else (0, 31)) noZero)
      fun r => NoPlaceholder r.1 := by
  have hregion : ((List.range 32).take (if part = .prefixPart then (10, 15) else (0, 31)).2).drop
      (if part = .prefixPart then (10, 15) else (0, 31)).1 ≠ [] := by
    cases part <;> decide
  refine (returns_xNum g hregion).bind' fun r => Returns.ite (fun _ => ?_) fun _ =>
    Returns.pure (noPlaceholder_reg (by decide) _)
  exact (returns_choice (by decide)).bind' fun n => Returns.pure (noPlaceholder_reg (by decide) n)

theorem returns_getFregs : Returns g.getFregs fun r => NoPlaceholder r.1 := by
  refine (returns_again _).bind fun b hb => Returns.ite (fun hb' => ?_) fun _ => ?_
  · exact (returns_choice (hb hb')).bind' fun n => Returns.pure (noPlaceholder_reg (by decide) n)
  · exact (returns_choice (by decide)).bind' fun n => Returns.pure (noPlaceholder_reg (by decide) n)

theorem returns_getImm {i : Text × Nat} (h : ImmOk i) :
    Returns (g.getImm i.1 i.2) fun r => NoPlaceholder r.1 := by
  obtain ⟨halign, mask, hmask⟩ := h
  refine (returns_getImm_value g halign hmask).mono fun r hr => ?_
  obtain ⟨sign, q, hsign, hval⟩ := hr
  have hinert : Inert sign := by
    rcases hsign with rfl | ⟨rfl, -⟩
    · decide
    · decide
  rw [hval]
  exact (hinert.append (inert_digits (by decide) (by decide) _)).noPlaceholder

theorem returns_getSymbol {tpe : Tpe} {label maxLabel : Int} (part : Part) (h₀ : 0 ≤ label)
    (h : label < maxLabel) : Returns (Generator.getSymbol tpe label maxLabel part) NoPlaceholder := by
  have hpart : Inert part.text := by cases part <;> decide
  have hdata : Returns (do
      let i ← randnat 0 5
      let j ← randnat 0 27
      return ['d', '_'] ++ digits 10 i ++ ['_'] ++ digits 10 j : Rand Text) NoPlaceholder := by
    refine (returns_randnat (by decide)).bind' fun i => (returns_randnat (by decide)).bind' fun j =>
      Returns.pure (Inert.noPlaceholder ?_)
    exact ((Inert.append (by decide) (inert_digits (by decide) (by decide) i)).append (by decide)).append
      (inert_digits (by decide) (by decide) j)
  have hlabel : ∀ lo, lo ≤ maxLabel → Returns (do return part.text ++ intText (← randint lo maxLabel))
      NoPlaceholder := fun lo hlo =>
    (returns_randint hlo).bind' fun k => Returns.pure (hpart.append (inert_intText k)).noPlaceholder
  unfold Generator.getSymbol
  split
  · exact hdata
  · exact returns_percent.bind' fun n => Returns.ite (fun _ => hlabel 0 (by omega)) fun _ => hdata
  · exact hlabel _ (by omega)

end Populate

/-! ## 3. The two functions -/

/-- A populated word without placeholders, with a line for each of its instructions. -/
structure Word.Complete (w : Word) : Prop where
  filled : ∀ l ∈ w.retInsts, NoPlaceholder l
  lines : w.retInsts.length = w.lenInsts
  nonempty : 1 ≤ w.lenInsts

/-- The generator chooses the instruction in some run. -/
def Selects (k : GeneratorKind) (part : Part) (opcode : String) : Prop :=
  ∃ world world', k.selectOpcode part world = .ok (opcode, world')

/-- `get_word` and `populate_word` return a complete word in every run in which the generator chooses the
    instruction, whatever it has used before. -/
def Completes (k : GeneratorKind) (part : Part) (opcode : String) : Prop :=
  ∀ (g g' : Generator) (maxLabel : Int) (world world' : World), g.kind = k → g.num part < maxLabel →
    k.selectOpcode part world = .ok (opcode, world') →
      ∃ word next world₁ populated next' world₂, g.getWord part world = .ok ((word, next), world₁) ∧
        g'.populateWord word maxLabel part world₁ = .ok ((populated, next'), world₂) ∧ populated.Complete

theorem wordLines_length (col : Text) (bodies : List Text) : (wordLines col bodies).length = bodies.length := by
  cases bodies with
  | nil => rfl
  | cons b bs => simp [wordLines]

/-- Populating a word that can be filled in. -/
theorem returns_populateWord {w : Word} (hw : w.populated = false) (hp : w.labelPrefix = [])
    (hs : Shape.Fillable ⟨w.tpe, w.insts, w.ops⟩) (h₀ : 0 ≤ w.label) {maxLabel : Int}
    (hl : w.label < maxLabel) (part : Part) (g : Generator) :
    Returns (g.populateWord w maxLabel part) fun r => r.1.Complete := by
  have hnames : NamesOk w.operands := hs.names
  refine (populateWord_logic Returns.logic (X := NoPlaceholder) (F := NoPlaceholder)
    (I := fun _ => NoPlaceholder) (S := NoPlaceholder) hw hs.nonempty (fun g => returns_getXregs g part _)
    returns_getFregs (fun g i hi => returns_getImm g (hs.imms i hi)) (returns_getSymbol part h₀ hl) g).mono ?_
  intro r hr
  obtain ⟨vals, hpop, hfill⟩ := hr
  have hvals := hfill.valuesOk (fun _ h => h) (fun _ h => h) (fun _ _ h => h) (fun _ h => h)
  obtain ⟨hprints, -, hinsts, -⟩ := Word.populate_prints hpop hp
  refine ⟨?_, ?_, ?_⟩
  · rw [hprints.lines]
    refine noPlaceholder_wordLines fun b hb => ?_
    obtain ⟨i, hi, rfl⟩ := List.mem_map.mp hb
    exact (popInst_noPlaceholder hnames hvals hfill.all (hs.lines i hi)).append_blanks _
  · rw [hprints.lines, wordLines_length, List.length_map, Word.lenInsts, hinsts]
  · rw [Word.lenInsts, hinsts]
    exact List.length_pos_iff.mpr hs.nonempty

theorem completes_of_typed {k : GeneratorKind} {part : Part} {opcode : String}
    (hk : ¬ (k = .mpt ∧ opcode ∈ GeneratorKind.mptUntyped)) : Completes k part opcode := by
  intro g g' maxLabel world world' hg hl hsel
  obtain ⟨n, world'', hn, o, ho⟩ := GeneratorKind.returns_selectOpcode k part world
  rw [hsel, Except.ok.injEq, Prod.mk.injEq] at hn
  obtain ⟨rfl, rfl⟩ := hn
  obtain ⟨hname, hmem⟩ := lookup_mem ho
  subst hname
  obtain ⟨shape, world₁, hshape, hfill⟩ :=
    GeneratorKind.returns_processOpcode (k := k) (instructions_sound hmem) hk world'
  let word : Word :=
    { label := g.num part, insts := shape.insts, tpe := shape.tpe, xregs := shape.ops.xregs,
      fregs := shape.ops.fregs, imms := shape.ops.imms, symbols := shape.ops.symbols }
  have hget : g.getWord part world = .ok ((word, g.next part), world₁) := by
    unfold Generator.getWord
    rw [hg]
    refine StateT.bind_ok.mpr ⟨o.name, world', hsel, StateT.bind_ok.mpr ⟨o, world', ?_, ?_⟩⟩
    · rw [ho]
      rfl
    · exact StateT.bind_ok.mpr ⟨shape, world₁, hshape, rfl⟩
  obtain ⟨r, world₂, hpop, hcomplete⟩ :=
    returns_populateWord (w := word) rfl rfl hfill (Int.natCast_nonneg _) hl part g' world₁
  exact ⟨word, g.next part, world₁, r.1, r.2, world₂, hget, hpop, hcomplete⟩

theorem not_completes_of_untyped {part : Part} {opcode : String}
    (hopcode : opcode ∈ GeneratorKind.mptUntyped) (hsel : Selects .mpt part opcode) :
    ¬ Completes .mpt part opcode := by
  intro h
  obtain ⟨world, world', hw⟩ := hsel
  have hnum : (({ kind := .mpt } : Generator).num part : Int) < 1 := by cases part <;> decide
  obtain ⟨word, next, world₁, -, -, -, hget, -⟩ :=
    h { kind := .mpt } { kind := .mpt } 1 world world' rfl hnum hw
  obtain ⟨n, w, hn, hget⟩ := StateT.bind_ok.mp hget
  have hsame : n = opcode := by
    have heq := hn.symm.trans hw
    rw [Except.ok.injEq, Prod.mk.injEq] at heq
    exact heq.1
  subst hsame
  obtain ⟨o, w', -, hget⟩ := StateT.bind_ok.mp hget
  obtain ⟨shape, w'', hshape, -⟩ := StateT.bind_ok.mp hget
  exact GeneratorKind.ensures_processOpcode_untyped hopcode _ _ _ _ _ hshape

/-- **The generators are total and leave no placeholder**, except where the memory protection generator
    reads a type that it has not set. Choosing the instruction never raises. -/
theorem word_completes_iff (k : GeneratorKind) (part : Part) :
    Returns (k.selectOpcode part) (fun _ => True) ∧
      ∀ opcode, Selects k part opcode →
        (Completes k part opcode ↔ ¬ (k = .mpt ∧ opcode ∈ GeneratorKind.mptUntyped)) := by
  refine ⟨(GeneratorKind.returns_selectOpcode k part).mono fun _ _ => trivial, fun opcode hsel => ?_⟩
  constructor
  · intro h hk
    obtain ⟨rfl, hopcode⟩ := hk
    exact not_completes_of_untyped hopcode hsel h
  · exact completes_of_typed

theorem word_completes_csrrw : Completes .m2sLegalSwitch .mainPart "csrrw" :=
  ((word_completes_iff .m2sLegalSwitch .mainPart).2 "csrrw" ⟨⟨[], none, none⟩, ⟨[], none, none⟩, rfl⟩).mpr
    fun h => absurd h.1 (by decide)

/-- The memory protection generator chooses `lb`, and `get_word` raises. -/
theorem mpt_lb_raises : ¬ Completes .mpt .mainPart "lb" := by
  intro h
  have hnum : (({ kind := .mpt } : Generator).num .mainPart : Int) < 1 := by decide
  obtain ⟨word, next, world₁, -, -, -, hget, -⟩ :=
    h { kind := .mpt } { kind := .mpt } 1 ⟨[0, 10], none, none⟩ ⟨[], none, none⟩ rfl hnum (by decide)
  have hraises : ({ kind := .mpt } : Generator).getWord .mainPart ⟨[0, 10], none, none⟩ =
      .error .unboundLocal := by
    decide
  rw [hraises] at hget
  cases hget

end Difuzz.Mutator
