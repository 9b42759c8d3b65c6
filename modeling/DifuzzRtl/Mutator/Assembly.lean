/-
  File:      DifuzzRtl/Mutator/Assembly.lean
  Subject:   The assembly text of an input (`rvPreProcessor.process` of src/preprocessor.py), and the
             symbols that lines of assembly define and use.

  * `process` -- a template, with the instructions of the input after the lines that name their place
    and the data after the lines that name a section.
  * `definedLabel`, `symbolsOf` -- the label in front of a line; the symbols in a line that start with
    a mark.
  * `sectionLines_labels` -- the labels that the loop over a section of 64 words writes: 28 of them.
-/
import DifuzzRtl.Mutator.SimInput
import DifuzzRtl.Mutator.Shapes

namespace Difuzz.Mutator

open Text

/-! ## 1. The text -/

/-- The interrupt of each instruction; `la` is two instructions. -/
def expandInts : List Text → List Int → Except Exn (List Int)
  | [], _ => .ok []
  | _ :: _, [] => .error .index
  | inst :: insts, i :: ints => do
      let rest ← expandInts insts ints
      return if contains ['l', 'a'] inst then i :: 0 :: rest else i :: rest

def dataLabel (n k : Nat) : Text := ['d', '_'] ++ digits 10 n ++ ['_'] ++ digits 10 k

def dataLine (label : Text) (a b : Int) : Text :=
  ljust 16 label ++ ".dword 0x".toList ++ formatInt 16 16 a ++ ", 0x".toList ++ formatInt 16 16 b ++
    ['\n']

/-- The loop over the words of a section, in pairs; the pairs at the borders have no label. -/
def sectionLines (data : List Int) (n start stop : Nat) : Nat → List Nat → Except Exn (List Text)
  | _, [] => .ok []
  | k, i :: is =>
      match data[i]?, data[i + 1]? with
      | some a, some b =>
          if start + 2 < i ∧ i + 4 < stop then do
            return dataLine (dataLabel n k ++ [':']) a b :: (← sectionLines data n start stop (k + 1) is)
          else do
            return dataLine [] a b :: (← sectionLines data n start stop k is)
      | _, _ => .error .index

/-- `range(start, stop, 2)`. -/
def pairs (start stop : Nat) : List Nat := List.range' start ((stop - start + 1) / 2) 2

def sectionName (n : Nat) : Text := "_random_data".toList ++ digits 10 n

/-- A line of the template, and what comes after it. -/
def expandLine (prefixInsts insts suffixInsts : List Text) (data : List Int) (size sections : Nat)
    (line : Text) : Except Exn (List Text) := do
  let put (mark : String) (is : List Text) : List Text :=
    if contains mark.toList line then is.map (· ++ [';', '\n']) else []
  let blocks ← (List.range sections).mapM fun n =>
    if contains (sectionName n) line then
      sectionLines data n (n * size) (n * size + size) 0 (pairs (n * size) (n * size + size))
    else .ok []
  return line :: (put "_fuzz_prefix:" prefixInsts ++ put "_fuzz_main:" insts ++
    put "_fuzz_suffix:" suffixInsts ++ blocks.flatten)

/-- `process`, as far as the text that it gives to the compiler, with the interrupts. -/
def process (s : SimInput) (data : List Int) (template : List Text) (sections : Nat) :
    Except Exn (List Text × List Int) := do
  let size := data.length / sections
  if data = [] then throw .assertion
  if size &&& (size - 1) ≠ 0 then throw .assertion
  let prefixInsts ← s.getPrefix
  let insts ← s.getInsts
  let suffixInsts ← s.getSuffix
  let ints ← expandInts insts.dropLast s.ints
  let blocks ← template.mapM (expandLine prefixInsts insts suffixInsts data size sections)
  return (blocks.flatten, ints)

/-! ## 2. Symbols of a line -/

/-- The characters of a symbol of the assembler. -/
def isSymbolChar (c : Char) : Bool := c.isAlphanum || c == '_' || c == '.' || c == '$'

/-- The label in front of a line: a symbol, and a colon right after it. -/
def definedLabel (line : Text) : Option Text :=
  if line.head?.any isSymbolChar ∧ (line.dropWhile isSymbolChar).head? = some ':' then
    some (line.takeWhile isSymbolChar)
  else none

/-- The symbols of a text that start with a mark. -/
def symbolsOf (mark : Text) : Text → List Text
  | [] => []
  | c :: t =>
      if mark.isPrefixOf (c :: t) then (c :: t).takeWhile isSymbolChar :: symbolsOf mark t
      else symbolsOf mark t

theorem isSymbolChar_digits {n : Nat} {c : Char} (h : c ∈ digits 10 n) : isSymbolChar c = true := by
  have hd : c.isDigit = true := Nat.isDigit_of_mem_toDigits (by decide) (by decide) h
  simp [isSymbolChar, Char.isAlphanum, hd]

/-- A symbol ends where a character stands that belongs to none. -/
theorem takeWhile_symbol {name : Text} (hn : ∀ c ∈ name, isSymbolChar c = true) {c : Char}
    (hc : isSymbolChar c = false) (u : Text) :
    (name ++ c :: u).takeWhile isSymbolChar = name ∧
      (name ++ c :: u).dropWhile isSymbolChar = c :: u := by
  rw [List.takeWhile_append_of_pos hn, List.dropWhile_append_of_pos hn]
  simp [hc]

theorem takeWhile_symbol_blanks {name : Text} (hn : ∀ c ∈ name, isSymbolChar c = true) (k : Nat) :
    (name ++ List.replicate k ' ').takeWhile isSymbolChar = name := by
  cases k with
  | zero =>
      rw [List.replicate_zero, List.append_nil, List.takeWhile_eq_self_iff]
      exact hn
  | succ k => exact (takeWhile_symbol hn (by decide) _).1

theorem definedLabel_colon {name : Text} (hne : name ≠ []) (hn : ∀ c ∈ name, isSymbolChar c = true)
    (u : Text) : definedLabel (name ++ ':' :: u) = some name := by
  obtain ⟨h₁, h₂⟩ := takeWhile_symbol hn (c := ':') (by decide) u
  have hhead : (name ++ ':' :: u).head?.any isSymbolChar = true := by
    cases name with
    | nil => exact absurd rfl hne
    | cons d name => exact hn d List.mem_cons_self
  rw [definedLabel, h₂, if_pos ⟨hhead, rfl⟩, h₁]

theorem definedLabel_blank (u : Text) : definedLabel (' ' :: u) = none := by
  rw [definedLabel, if_neg]
  exact fun h => absurd h.1 (show ¬ isSymbolChar ' ' = true by decide)

/-- No symbol starts in a text without underscores, whatever follows. -/
theorem symbolsOf_pass {x : Text} {a : Text} (ha : '_' ∉ a) (u : Text) :
    symbolsOf ('_' :: x) (a ++ u) = symbolsOf ('_' :: x) u := by
  induction a with
  | nil => rfl
  | cons c a ih =>
      have hc : '_' ≠ c := fun e => ha (e ▸ List.mem_cons_self)
      rw [List.cons_append, symbolsOf, if_neg (by simp [List.isPrefixOf, hc])]
      exact ih fun h => ha (List.mem_cons_of_mem _ h)

/-- The same for a mark whose underscore is its second character. -/
theorem symbolsOf_pass_second {d : Char} {a u : Text} (ha : '_' ∉ a) (hu : u.head? ≠ some '_') :
    symbolsOf [d, '_'] (a ++ u) = symbolsOf [d, '_'] u := by
  induction a with
  | nil => rfl
  | cons c a ih =>
      have ha' : '_' ∉ a := fun h => ha (List.mem_cons_of_mem _ h)
      have hhead : (a ++ u).head? ≠ some '_' := by
        cases a with
        | nil => exact hu
        | cons c' a =>
            intro h
            exact ha' (by simpa using Or.inl (Option.some.inj h).symm)
      rw [List.cons_append, symbolsOf, if_neg, ih ha']
      intro h
      obtain ⟨t, ht⟩ := List.isPrefixOf_iff_prefix.mp h
      have htail : a ++ u = '_' :: t := (List.cons.inj ht).2.symm
      rw [htail] at hhead
      exact hhead rfl

/-- No symbol is in a text that lacks a character of the mark. -/
theorem symbolsOf_none {x a : Text} {c : Char} (ha : c ∉ a) (hx : c ∈ x) : symbolsOf x a = [] := by
  induction a with
  | nil => rfl
  | cons d a ih =>
      rw [symbolsOf, if_neg]
      · exact ih fun h => ha (List.mem_cons_of_mem _ h)
      · intro h
        exact ha ((List.isPrefixOf_iff_prefix.mp h).subset hx)

/-! ## 3. The labels of the data -/

theorem isSymbolChar_dataLabel {n k : Nat} {c : Char} (h : c ∈ dataLabel n k) :
    isSymbolChar c = true := by
  simp only [dataLabel, List.mem_append, List.mem_cons, List.not_mem_nil, or_false] at h
  rcases h with (((rfl | rfl) | h) | rfl) | h
  · decide
  · decide
  · exact isSymbolChar_digits h
  · decide
  · exact isSymbolChar_digits h

theorem definedLabel_dataLine (n k : Nat) (a b : Int) :
    definedLabel (dataLine (dataLabel n k ++ [':']) a b) = some (dataLabel n k) := by
  have h : dataLine (dataLabel n k ++ [':']) a b = dataLabel n k ++ ':' ::
      (List.replicate (16 - (dataLabel n k ++ [':']).length) ' ' ++ ".dword 0x".toList ++
        formatInt 16 16 a ++ ", 0x".toList ++ formatInt 16 16 b ++ ['\n']) := by
    simp [dataLine, ljust]
  rw [h]
  exact definedLabel_colon (by simp [dataLabel]) (fun c hc => isSymbolChar_dataLabel hc) _

theorem definedLabel_dataLine_nil (a b : Int) : definedLabel (dataLine [] a b) = none :=
  definedLabel_blank _

/-- The labels that the loop writes. -/
def sectionLabels (n start stop : Nat) : Nat → List Nat → List Text
  | _, [] => []
  | k, i :: is =>
      if start + 2 < i ∧ i + 4 < stop then dataLabel n k :: sectionLabels n start stop (k + 1) is
      else sectionLabels n start stop k is

theorem sectionLines_ok {data : List Int} {n start stop : Nat} {is : List Nat}
    (h : ∀ i ∈ is, i + 1 < data.length) (k : Nat) :
    ∃ lines, sectionLines data n start stop k is = .ok lines ∧
      lines.filterMap definedLabel = sectionLabels n start stop k is := by
  induction is generalizing k with
  | nil => exact ⟨[], rfl, rfl⟩
  | cons i is ih =>
      have hi := h i List.mem_cons_self
      have ih := fun k => ih (fun j hj => h j (List.mem_cons_of_mem _ hj)) k
      have ha : data[i]? = some data[i] := List.getElem?_eq_getElem (by omega)
      have hb : data[i + 1]? = some data[i + 1] := List.getElem?_eq_getElem hi
      rw [sectionLines, ha, hb, sectionLabels]
      dsimp only
      split
      · obtain ⟨lines, hl, hlabels⟩ := ih (k + 1)
        refine ⟨_, by rw [hl]; rfl, ?_⟩
        rw [List.filterMap_cons, definedLabel_dataLine, hlabels]
      · obtain ⟨lines, hl, hlabels⟩ := ih k
        refine ⟨_, by rw [hl]; rfl, ?_⟩
        rw [List.filterMap_cons, definedLabel_dataLine_nil, hlabels]

theorem sectionLabels_shift (n start stop k : Nat) (is : List Nat) :
    sectionLabels n start (start + stop) k (is.map (start + ·)) = sectionLabels n 0 stop k is := by
  induction is generalizing k with
  | nil => rfl
  | cons i is ih =>
      have hiff : (start + 2 < start + i ∧ start + i + 4 < start + stop) ↔ (0 + 2 < i ∧ i + 4 < stop) := by
        omega
      rw [List.map_cons, sectionLabels, sectionLabels, ih, ih]
      simp only [hiff]

/-- **A section of 64 words** has the labels `d_n_0` to `d_n_27`. -/
theorem sectionLines_labels {data : List Int} {n start : Nat} (h : start + 64 ≤ data.length) :
    ∃ lines, sectionLines data n start (start + 64) 0 (pairs start (start + 64)) = .ok lines ∧
      lines.filterMap definedLabel = (List.range 28).map (dataLabel n) := by
  have hpairs : pairs start (start + 64) = (List.range' 0 32 2).map (start + ·) := by
    rw [pairs, List.map_add_range', Nat.add_sub_cancel_left]
    rfl
  have hin : ∀ i ∈ pairs start (start + 64), i + 1 < data.length := by
    intro i hi
    rw [hpairs] at hi
    obtain ⟨j, hj, rfl⟩ := List.mem_map.mp hi
    obtain ⟨t, ht, rfl⟩ := List.mem_range'.mp hj
    omega
  obtain ⟨lines, hl, hlabels⟩ := sectionLines_ok (n := n) (k := 0) hin
  refine ⟨lines, hl, ?_⟩
  rw [hlabels, hpairs, sectionLabels_shift]
  rfl

end Difuzz.Mutator
