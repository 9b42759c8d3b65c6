/-
  File:      DifuzzRtl/Mutator/Populate.lean
  Subject:   What the lines of a populated word refer to.

  * `Body` -- a line refers to nothing, to a label of its part, or to a word of the data sections. The
    labels satisfy a predicate `R`, which the users of this module choose.
  * `Word.Lines` -- a populated word whose lines are all of this kind.
  * `ensures_getSymbol`, `ensures_fill` -- the values of the operands.
  * `ensures_populateWord` -- a fresh word becomes one whose labels are in range, and ahead of it
    unless it is a load.
-/
import DifuzzRtl.Lib.Tokens
import DifuzzRtl.Mutator.Mutate
import DifuzzRtl.Mutator.Shapes

namespace Difuzz.Mutator

open Text

/-! ## 1. Lines -/

/-- A line of a word, after the columns of the label. -/
inductive Body (part : Part) (R : Nat → Prop) : Text → Prop where
  | plain {b : Text} (h : Plain b) : Body part R b
  | ref {a : Text} {k : Nat} (blanks : Nat) (h : Plain a) (hk : R k) : Body part R (refBody part a k blanks)
  | data {a : Text} {i j : Nat} (blanks : Nat) (h : Plain a) (hi : i ≤ 5) (hj : j ≤ 27) :
      Body part R (dataBody a i j blanks)

theorem Plain.replicate (n : Nat) : Plain (List.replicate n ' ') := by
  simp [Plain]

theorem Plain.ljust {t : Text} (h : Plain t) (w : Nat) : Plain (ljust w t) :=
  h.append (Plain.replicate _)

/-- Filling a line with blanks does not change what it refers to. -/
theorem Body.ljust {part : Part} {R : Nat → Prop} {b : Text} (h : Body part R b) (w : Nat) :
    Body part R (ljust w b) := by
  cases h with
  | plain h => exact Body.plain (h.ljust w)
  | ref blanks h hk =>
      rename_i a k
      have e : Text.ljust w (refBody part a k blanks) =
          refBody part a k (blanks + (w - (refBody part a k blanks).length)) := by
        simp [Text.ljust, refBody]
      rw [e]
      exact Body.ref _ h hk
  | data blanks h hi hj =>
      rename_i a i j
      have e : Text.ljust w (dataBody a i j blanks) =
          dataBody a i j (blanks + (w - (dataBody a i j blanks).length)) := by
        simp [Text.ljust, dataBody]
      rw [e]
      exact Body.data _ h hi hj

theorem Body.mono {part : Part} {R R' : Nat → Prop} {b : Text} (h : Body part R b)
    (hR : ∀ k, R k → R' k) : Body part R' b := by
  cases h with
  | plain h => exact Body.plain h
  | ref blanks h hk => exact Body.ref blanks h (hR _ hk)
  | data blanks h hi hj => exact Body.data blanks h hi hj

/-- A populated word, one line for each instruction, with what the lines refer to. -/
def Word.Lines (w : Word) (part : Part) (R : Nat → Prop) : Prop :=
  ∃ bodies, w.Prints part bodies ∧ bodies.length = w.insts.length ∧ ∀ b ∈ bodies, Body part R b

/-! ## 2. Values of operands -/

/-- The value of a symbol: a label or a data word. -/
inductive SymbolValue (part : Part) (R : Nat → Prop) : Text → Prop where
  | ref {k : Nat} (hk : R k) : SymbolValue part R (part.text ++ digits 10 k)
  | data {i j : Nat} (hi : i ≤ 5) (hj : j ≤ 27) :
      SymbolValue part R (['d', '_'] ++ digits 10 i ++ ['_'] ++ digits 10 j)

/-- The labels that a new word may refer to. -/
def NewRef (w : Word) (maxLabel : Nat) (k : Nat) : Prop :=
  k ≤ maxLabel ∧ (w.tpe ≠ .memR → w.label < k)

theorem ensures_getSymbol (w : Word) {label : Nat} (hl : w.label = label) (maxLabel : Nat)
    (part : Part) :
    Ensures (Generator.getSymbol w.tpe w.label maxLabel part) (SymbolValue part (NewRef w maxLabel)) := by
  have hdata : Ensures (do
      let i ← randnat 0 5
      let j ← randnat 0 27
      return ['d', '_'] ++ digits 10 i ++ ['_'] ++ digits 10 j)
      (SymbolValue part (NewRef w maxLabel)) :=
    (ensures_randnat 0 5).bind fun i hi => (ensures_randnat 0 27).bind fun j hj =>
      Ensures.pure (SymbolValue.data hi.2 hj.2)
  have hlater : Ensures (do return part.text ++ intText (← randint (w.label + 1) maxLabel))
      (SymbolValue part (NewRef w maxLabel)) := by
    refine (ensures_randint _ _).bind fun k hk => Ensures.pure ?_
    obtain ⟨k, rfl⟩ := Int.eq_ofNat_of_zero_le (show 0 ≤ k by omega)
    exact SymbolValue.ref ⟨by omega, fun _ => by omega⟩
  unfold Generator.getSymbol
  split
  · exact hdata
  · rename_i htpe
    refine Ensures.bind' fun p => Ensures.ite (fun _ => ?_) fun _ => hdata
    refine (ensures_randint _ _).bind fun k hk => Ensures.pure ?_
    obtain ⟨k, rfl⟩ := Int.eq_ofNat_of_zero_le hk.1
    exact SymbolValue.ref ⟨by omega, fun h => absurd htpe h⟩
  · exact hlater

theorem ensures_getXregs (g : Generator) (region : Nat × Nat) (noZero : Bool) :
    Ensures (g.getXregs region noZero) fun r => Clean r.1 := by
  refine Ensures.bind' fun r => Ensures.ite (fun _ => ?_) fun _ => Ensures.pure ?_
  · exact Ensures.bind' fun n => Ensures.pure (Clean.append (t := ['x']) (by decide) (clean_digits n))
  · exact Clean.append (t := ['x']) (by decide) (clean_digits r.1)

theorem ensures_getFregs (g : Generator) : Ensures g.getFregs fun r => Clean r.1 := by
  refine Ensures.bind' fun again => Ensures.ite (fun _ => ?_) fun _ => ?_
  · exact Ensures.bind' fun n => Ensures.pure (Clean.append (t := ['f']) (by decide) (clean_digits n))
  · exact Ensures.bind' fun n => Ensures.pure (Clean.append (t := ['f']) (by decide) (clean_digits n))

theorem ensures_getImm (g : Generator) (iName : Text) (align : Nat) :
    Ensures (g.getImm iName align) fun r => Clean r.1 := by
  have hrest : ∀ sign, Clean sign → Ensures (do
      let mask ← lift (Generator.immMask iName align)
      let _ ← percent
      let r ← g.immValue mask
      return (sign ++ intText (Int.land mask r.1), r.2)) fun r => Clean r.1 := fun sign hs =>
    Ensures.bind' fun mask => Ensures.bind' fun p => Ensures.bind' fun r =>
      Ensures.pure (hs.append (clean_intText _))
  refine Ensures.ite (fun _ => Ensures.throw) fun _ => Ensures.ite (fun _ => ?_) fun _ => ?_
  · exact hrest [] (by decide)
  · refine (ensures_choice _).bind fun sign hs => hrest sign ?_
    revert sign
    decide

/-- The entries that the fills before the symbols make. -/
def OperandEntries (es : List (Text × Text)) : Prop := ∀ e ∈ es, NameOk e.1 ∧ Clean e.2

theorem ensures_fill {α : Type} {f : Generator → α → Rand (Text × Generator)} {name : α → Text}
    {as : List α} (hf : ∀ g a, Ensures (f g a) fun r => Clean r.1) (hn : ∀ a ∈ as, NameOk (name a))
    {g : Generator} {vals : Dict Text Text} (hv : OperandEntries vals.entries) :
    Ensures (Generator.fill f name g vals as) fun r => OperandEntries r.1.entries := by
  induction as generalizing g vals with
  | nil => exact Ensures.pure hv
  | cons a as ih =>
      refine (hf g a).bind fun r hr => ?_
      refine ih (fun b hb => hn b (List.mem_cons_of_mem _ hb)) fun e he => ?_
      rcases Dict.mem_setEntries he with rfl | he
      · exact ⟨hn a List.mem_cons_self, hr⟩
      · exact hv e he

theorem setEntries_last {es : List (Text × Text)} {k : Text} (v v' : Text) (h : k ∉ es.map (·.1)) :
    Dict.setEntries (es ++ [(k, v)]) k v' = es ++ [(k, v')] := by
  induction es with
  | nil => simp [Dict.setEntries]
  | cons e es ih =>
      rw [List.map_cons, List.mem_cons, not_or] at h
      have hne : e.1 ≠ k := fun e => h.1 e.symm
      simp only [List.cons_append, Dict.setEntries, if_neg hne, ih h.2]

/-- Operands of one name share one entry, the last one. -/
theorem ensures_fill_same {α : Type} {f : Generator → α → Rand (Text × Generator)} {name : α → Text}
    {as : List α} {Q : Text → Prop} {key : Text} (hf : ∀ g a, Ensures (f g a) fun r => Q r.1)
    (hn : ∀ a ∈ as, name a = key) {g : Generator} {vals : Dict Text Text}
    (hk : key ∉ vals.entries.map (·.1)) :
    Ensures (Generator.fill f name g vals as) fun r => (as = [] ∧ r.1.entries = vals.entries) ∨
      (as ≠ [] ∧ ∃ v, Q v ∧ r.1.entries = vals.entries ++ [(key, v)]) := by
  -- After the first operand the entry is there; the others write over it.
  have hlater : ∀ (as : List α) (g : Generator) (vals' : Dict Text Text), (∀ a ∈ as, name a = key) →
      (∃ v, Q v ∧ vals'.entries = vals.entries ++ [(key, v)]) →
      Ensures (Generator.fill f name g vals' as) fun r =>
        ∃ v, Q v ∧ r.1.entries = vals.entries ++ [(key, v)] := by
    intro as
    induction as with
    | nil => exact fun g vals' _ hv => Ensures.pure hv
    | cons a as ih =>
        intro g vals' hn hv
        refine (hf g a).bind fun r hr => ?_
        refine ih _ _ (fun b hb => hn b (List.mem_cons_of_mem _ hb)) ⟨r.1, hr, ?_⟩
        obtain ⟨v, -, hv⟩ := hv
        show Dict.setEntries vals'.entries (name a) r.1 = _
        rw [hv, hn a List.mem_cons_self, setEntries_last v r.1 hk]
  cases as with
  | nil => exact Ensures.pure (.inl ⟨rfl, rfl⟩)
  | cons a as =>
      refine (hf g a).bind fun r hr => ?_
      refine (hlater as _ _ (fun b hb => hn b (List.mem_cons_of_mem _ hb)) ⟨r.1, hr, ?_⟩).mono
        fun r' hr' => .inr ⟨List.cons_ne_nil _ _, hr'⟩
      show Dict.setEntries vals.entries (name a) r.1 = _
      rw [hn a List.mem_cons_self, Dict.setEntries_of_not_mem _ hk]

/-! ## 3. Instructions with their operands filled in -/

theorem fillIn_plain {es : List (Text × Text)} (he : OperandEntries es) {t : Text} (ht : Plain t) :
    Plain (fillIn es t) := by
  induction es generalizing t with
  | nil => exact ht
  | cons e es ih =>
      exact ih (fun x hx => he x (List.mem_cons_of_mem _ hx))
        (ht.replace (he e List.mem_cons_self).2.1)

theorem fillIn_clean {es : List (Text × Text)} (he : OperandEntries es) {t : Text} (ht : Clean t) :
    Clean (fillIn es t) := by
  induction es generalizing t with
  | nil => exact ht
  | cons e es ih =>
      exact ih (fun x hx => he x (List.mem_cons_of_mem _ hx)) (ht.replace (he e List.mem_cons_self).2)

/-- The operands before a symbol do not touch it: their names have a digit and no comma. -/
theorem fillIn_symbol {es : List (Text × Text)} (he : OperandEntries es) {a : Text} (ha : Clean a) :
    ∃ a', Clean a' ∧ fillIn es (a ++ ", symbol".toList) = a' ++ ", symbol".toList := by
  induction es generalizing a with
  | nil => exact ⟨a, ha, rfl⟩
  | cons e es ih =>
      obtain ⟨⟨hcomma, d, hd, hdigit⟩, hval⟩ := he e List.mem_cons_self
      have hrest : replace e.1 e.2 " symbol".toList = " symbol".toList := by
        obtain ⟨x, y, hxy⟩ := List.append_of_mem hd
        have hno : d ∉ " symbol".toList := by
          intro h
          have : ∀ c ∈ " symbol".toList, c.isDigit = false := by decide
          rw [this d h] at hdigit
          cases hdigit
        rw [hxy]
        exact replace_of_not_mem hno
      have hsplit : replace e.1 e.2 (a ++ ", symbol".toList) =
          replace e.1 e.2 a ++ ", symbol".toList := by
        have hne : e.1 ≠ [] := List.ne_nil_of_mem hd
        have h : replace e.1 e.2 (a ++ ',' :: " symbol".toList) =
            replace e.1 e.2 a ++ ',' :: replace e.1 e.2 " symbol".toList :=
          replace_append_char hne hcomma a _
        rw [hrest] at h
        exact h
      have ha₁ : Clean (replace e.1 e.2 a) := ha.replace hval
      obtain ⟨a', ha', e'⟩ := ih (fun x hx => he x (List.mem_cons_of_mem _ hx)) ha₁
      refine ⟨a', ha', ?_⟩
      show fillIn es (replace e.1 e.2 (a ++ ", symbol".toList)) = _
      rw [hsplit, e']

theorem replace_symbol {a : Text} (ha : Clean a) (v : Text) :
    replace "symbol".toList v (a ++ ", symbol".toList) = a ++ ([',', ' '] ++ v) := by
  have hy : 'y' ∉ a ++ [',', ' '] := by simp [ha.2]
  have h : replace (['s'] ++ 'y' :: "mbol".toList) v
      ((a ++ [',', ' ']) ++ (['s'] ++ 'y' :: "mbol".toList ++ [])) = (a ++ [',', ' ']) ++ (v ++ []) :=
    replace_append_self (by decide) hy
  rw [List.append_nil, List.append_nil, List.append_assoc, List.append_assoc] at h
  exact h

/-- **An instruction with its operands filled in** refers to what its symbol was filled in with. -/
theorem body_popInst {part : Part} {R : Nat → Prop} {sym : Bool} {inst : Text} (hi : InstOk sym inst)
    {opvals : Dict Text Text} {es : List (Text × Text)} (he : OperandEntries es)
    (hs : (sym = false ∧ opvals.entries = es) ∨
      (sym = true ∧ ∃ v, SymbolValue part R v ∧ opvals.entries = es ++ [("symbol".toList, v)])) :
    Body part R (Word.popInst inst opvals) := by
  have hpop : Word.popInst inst opvals = fillIn opvals.entries inst := rfl
  rw [hpop]
  rcases hs with ⟨rfl, hs⟩ | ⟨rfl, v, hv, hs⟩
  · rw [hs]
    cases hi with
    | plain h _ => exact Body.plain (fillIn_plain he h)
  · have hfill : fillIn opvals.entries inst = replace "symbol".toList v (fillIn es inst) := by
      rw [hs, fillIn, List.foldl_append]
      rfl
    rw [hfill]
    cases hi with
    | plain h hy =>
        have hc : Clean (fillIn es inst) := fillIn_clean he ⟨h, hy rfl⟩
        have hno : replace "symbol".toList v (fillIn es inst) = fillIn es inst :=
          replace_of_not_mem (x := ['s']) (y := "mbol".toList) hc.2
        rw [hno]
        exact Body.plain hc.1
    | symbol ha =>
        obtain ⟨a', ha', e⟩ := fillIn_symbol he ha
        rw [e, replace_symbol ha' v]
        cases hv with
        | ref hk =>
            have h : Body part R (refBody part a' _ 0) := Body.ref 0 ha'.1 hk
            simpa [refBody, intText] using h
        | data hi hj =>
            have h : Body part R (dataBody a' _ _ 0) := Body.data 0 ha'.1 hi hj
            simpa [dataBody] using h

/-! ## 4. Populating -/

/-- **Populating a fresh word**: the labels it refers to are in range, and after its own unless the
    word is a load. -/
theorem ensures_populateWord {g : Generator} {w : Word} (hw : w.Fresh) {label : Nat}
    (hl : w.label = label) (maxLabel : Nat) (part : Part) :
    Ensures (g.populateWord w maxLabel part) fun r =>
      r.1.Lines part (NewRef w maxLabel) ∧ r.1.label = w.label ∧ r.1.tpe = w.tpe ∧
        r.1.insts = w.insts := by
  refine Ensures.ite (fun h => ?_) fun _ => ?_
  · rw [hw.unpopulated] at h
    cases h
  have hops := hw.shape.ops
  have h₀ : OperandEntries (Dict.empty : Dict Text Text).entries := fun e he => (nomatch he)
  refine (ensures_fill (fun g x => ensures_getXregs g _ _) hops.xregs h₀).bind fun r₁ h₁ => ?_
  refine (ensures_fill (fun g x => ensures_getFregs g) hops.fregs h₁).bind fun r₂ h₂ => ?_
  refine (ensures_fill (fun g i => ensures_getImm g _ _) hops.imms h₂).bind fun r₃ h₃ => ?_
  have hkey : "symbol".toList ∉ r₃.1.entries.map (·.1) := by
    intro h
    obtain ⟨e, he, hs⟩ := List.mem_map.mp h
    have := (h₃ e he).1
    rw [hs] at this
    exact absurd this (by decide)
  have hsym : ∀ (g : Generator) (x : Text), Ensures (do
      return (← Generator.getSymbol w.tpe w.label maxLabel part, g))
      fun r : Text × Generator => SymbolValue part (NewRef w maxLabel) r.1 := fun g x =>
    (ensures_getSymbol w hl maxLabel part).bind fun v hv => Ensures.pure hv
  refine (ensures_fill_same hsym hops.symbols hkey).bind fun r₄ h₄ => ?_
  refine (Ensures.lift fun w' hw' => Word.populate_prints hw' hw.noPrefix).bind fun w' hw' =>
    Ensures.pure ?_
  obtain ⟨hp, hlabel, hinsts, htpe⟩ := hw'
  refine ⟨⟨_, hp, ?_, ?_⟩, hlabel, htpe, hinsts⟩
  · rw [List.length_map, hinsts]
  · intro b hb
    obtain ⟨i, hi, rfl⟩ := List.mem_map.mp hb
    refine (body_popInst (hw.shape.insts i hi) h₃ ?_).ljust 42
    rcases h₄ with ⟨hs, he⟩ | ⟨hs, hv⟩
    · have hsym : w.ops.hasSymbol = false := by
        rw [Operands.hasSymbol, hs]
        rfl
      exact .inl ⟨hsym, he⟩
    · have hsym : w.ops.hasSymbol = true := by
        rw [Operands.hasSymbol, Bool.not_eq_true', List.isEmpty_eq_false_iff]
        exact hs
      exact .inr ⟨hsym, hv⟩

end Difuzz.Mutator
