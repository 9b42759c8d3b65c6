/-
  File:      DifuzzRtl/Signature/Checker.lean
  Subject:   The differential check (`sigChecker` of src/signature_checker.py) against the memories that
             the two signature files show.

  * `readSymbols`, `readSig`, `check` -- the reader of both files, by indexes that it computes from the
    symbols.
  * `Layout` -- the addresses of a symbol table, and the promises of the templates about them.
  * `check_eq` -- what the check returns: the outputs agree and there is no data at all, since the file
    of the RTL host has none.
  * `check_exact_iff` -- when this is the answer that the memories call for.
-/
import DifuzzRtl.Signature.Files

namespace Difuzz.Signature

open Text Mutator

/-! ## 1. Reading -/

/-- `read_symbols`: indexes of words, the data sections, and the line where data starts. -/
structure Indexes where
  xregs : List Int
  fregs : List Int
  csrs : List Int
  dataSymbols : List (Nat × Nat)
  dataStart : Int

/-- The index of a symbol among the words of the signature. -/
def wordIndex (symbols : Symbols) (start : Nat) (name : Text) : Except Exn Int := do
  return ((← symbol symbols name : Int) - start) / 8

def readSymbols (symbols : Symbols) : Except Exn Indexes := do
  let start ← symbol symbols beginSignature
  let stop ← symbol symbols endSignature
  let xregs ← (List.range 32).mapM fun i => wordIndex symbols start (regOutput 'x' i)
  let fregs ← (List.range 32).mapM fun i => wordIndex symbols start (regOutput 'f' i)
  let csrs ← csrNames.mapM fun c => wordIndex symbols start (csrOutput c)
  let dataSymbols ← (List.range 6).mapM fun i => do
    return (← symbol symbols (randomData i), ← symbol symbols (endData i))
  return ⟨xregs, fregs, csrs, dataSymbols, ((stop : Int) - start) / (2 * 8)⟩

/-- `lines[i]`: a negative index counts from the end. -/
def lineAt (lines : List Text) (i : Int) : Except Exn Text :=
  match lines[(if i < 0 then i + lines.length else i).toNat]? with
  | some l => if i + lines.length < 0 then .error .index else .ok l
  | none => .error .index

/-- `int(t, 16)`. -/
def hexInt (t : Text) : Except Exn Int :=
  match pyInt 16 t with
  | some v => .ok v
  | none => .error .value

/-- The word with an index: the second half of its line, or the first. -/
def readWord (lines : List Text) (idx : Int) : Except Exn Int := do
  let line ← lineAt lines (idx / 2)
  let off := (16 - 16 * (idx % 2)).toNat
  hexInt (slice off (off + 16) line)

/-- The two words of a line of data, if the file has that line. -/
def readPair (lines : List Text) (i : Int) : Except Exn (List Int) :=
  if i < lines.length then do
    let words ← lineAt lines i
    return [← hexInt (slice 16 32 words), ← hexInt (slice 0 16 words)]
  else .ok []

def readData (lines : List Text) : List (Nat × Nat) → Int → Except Exn (List (List Int))
  | [], _ => .ok []
  | (s, e) :: rest, start => do
      let data ← (List.range (((e : Int) - s) / 16).toNat).mapM fun j : Nat => readPair lines (start + j)
      return data.flatten :: (← readData lines rest (start + ((e : Int) - s) / 16))

/-- What is read from a file. -/
structure Values where
  xregs : List Int
  fregs : List Int
  csrs : List Int
  data : List (List Int)

def readSig (file : Text) (ix : Indexes) : Except Exn Values := do
  let lines := readlines file
  let xregs ← ix.xregs.mapM (readWord lines)
  let fregs ← ix.fregs.mapM (readWord lines)
  let csrs ← ix.csrs.mapM (readWord lines)
  let data ← readData lines ix.dataSymbols ix.dataStart
  return ⟨xregs, fregs, csrs, data⟩

/-- All pairs of the zipped lists match. -/
def allMatch (l l' : List Int) : Bool := (l.zip l').all fun p => p.1 == p.2

/-- The comparison of `check`: a floating point register that does not match clears the flag of the
    integer ones. -/
def matchValues (isa rtl : Values) : Bool :=
  let xregMatch := allMatch isa.xregs rtl.xregs && allMatch isa.fregs rtl.fregs
  let fregMatch := true
  let csrMatch := allMatch isa.csrs rtl.csrs
  let dataMatch := (isa.data.zip rtl.data).all fun p => p.1 == p.2
  xregMatch && fregMatch && csrMatch && dataMatch

def check (isaSig rtlSig : Text) (symbols : Symbols) : Except Exn Bool := do
  let ix ← readSymbols symbols
  let isa ← readSig isaSig ix
  let rtl ← readSig rtlSig ix
  return matchValues isa rtl

/-! ## 2. Symbol tables -/

/-- The outputs that are checked. -/
def outputNames : List Text :=
  (List.range 32).map (regOutput 'x') ++ (List.range 32).map (regOutput 'f') ++
    csrNames.map csrOutput

/-- The addresses of the symbols that the signature is about. -/
structure Layout where
  sigStart : Nat
  sigEnd : Nat
  output : Text → Nat
  dataStart : Nat → Nat
  dataEnd : Nat → Nat

/-- A symbol table with these addresses. The signature and the data sections are aligned to 16 bytes,
    no section is longer than the signature, and the outputs are words of the signature. -/
structure Layout.Of (L : Layout) (symbols : Symbols) : Prop where
  sigBegin : symbols.get? beginSignature = some L.sigStart
  sigEnd : symbols.get? endSignature = some L.sigEnd
  outputs : ∀ n ∈ outputNames, symbols.get? n = some (L.output n)
  data : ∀ i < 6, symbols.get? (randomData i) = some (L.dataStart i) ∧
    symbols.get? (endData i) = some (L.dataEnd i)
  sigAligned : 16 ∣ L.sigStart ∧ 16 ∣ L.sigEnd ∧ L.sigStart ≤ L.sigEnd ∧ L.sigEnd < 2 ^ 64
  inside : ∀ n ∈ outputNames, 8 ∣ L.output n ∧ L.sigStart ≤ L.output n ∧ L.output n < L.sigEnd
  dataAligned : ∀ i < 6, 16 ∣ L.dataStart i ∧ 16 ∣ L.dataEnd i ∧ L.dataStart i ≤ L.dataEnd i ∧
    L.dataEnd i < 2 ^ 64 ∧ L.dataEnd i - L.dataStart i ≤ L.sigEnd - L.sigStart

/-- The same without the bounds: what the reader of the files relies on. -/
structure Layout.Placed (L : Layout) (symbols : Symbols) : Prop where
  sigBegin : symbols.get? beginSignature = some L.sigStart
  sigEnd : symbols.get? endSignature = some L.sigEnd
  outputs : ∀ n ∈ outputNames, symbols.get? n = some (L.output n)
  data : ∀ i < 6, symbols.get? (randomData i) = some (L.dataStart i) ∧
    symbols.get? (endData i) = some (L.dataEnd i)
  sigAligned : 16 ∣ L.sigStart ∧ 16 ∣ L.sigEnd ∧ L.sigStart ≤ L.sigEnd
  inside : ∀ n ∈ outputNames, 8 ∣ L.output n ∧ L.sigStart ≤ L.output n ∧ L.output n < L.sigEnd
  dataAligned : ∀ i < 6, 16 ∣ L.dataStart i ∧ 16 ∣ L.dataEnd i ∧ L.dataStart i ≤ L.dataEnd i

theorem Layout.Of.placed {L : Layout} {symbols : Symbols} (h : L.Of symbols) : L.Placed symbols where
  sigBegin := h.sigBegin
  sigEnd := h.sigEnd
  outputs := h.outputs
  data := h.data
  sigAligned := ⟨h.sigAligned.1, h.sigAligned.2.1, h.sigAligned.2.2.1⟩
  inside := h.inside
  dataAligned i hi :=
    ⟨(h.dataAligned i hi).1, (h.dataAligned i hi).2.1, (h.dataAligned i hi).2.2.1⟩

/-- The memories agree on every output and on every word of the data sections. -/
structure Layout.Agrees (L : Layout) (isa : Bytes) (rtl : Words) : Prop where
  outputs : ∀ n ∈ outputNames, rtl (L.output n) = some (leWord isa (L.output n))
  data : ∀ i < 6, ∀ a, L.dataStart i ≤ a → a < L.dataEnd i → 8 ∣ a → rtl a = some (leWord isa a)

/-! ## 3. Reading what was written -/

theorem hexInt_showsWord {t : Text} {v : Nat} (h : ShowsWord t v) : hexInt t = .ok (v : Int) := by
  have hne : t ≠ [] := by
    rintro rfl
    cases h.length
  have hp : pyInt 16 (t ++ []) = (digitsValue 16 0 t).map Int.ofNat :=
    pyInt_digits h.digits hne (by simp)
  rw [List.append_nil, h.value] at hp
  rw [hexInt, hp]
  rfl

theorem lineAt_ok {lines : List Text} {ps : List (Nat × Nat)} (h : WordLines lines ps) {k : Nat}
    {p : Nat × Nat} (hp : ps[k]? = some p) :
    k < lines.length ∧ ∃ line, lineAt lines k = .ok line ∧ ShowsPair line p := by
  obtain ⟨hk, rfl⟩ := List.getElem?_eq_some_iff.mp hp
  have hk' : k < lines.length := by rw [h.length_eq]; exact hk
  refine ⟨hk', lines[k], ?_, h.get hk' hk⟩
  rw [lineAt, if_neg (by omega), Int.toNat_natCast, List.getElem?_eq_getElem hk']
  exact if_neg (by omega)

/-- The two halves of a line. -/
theorem ShowsPair.halves {line : Text} {p : Nat × Nat} (h : ShowsPair line p) :
    hexInt (slice 16 32 line) = .ok (p.1 : Int) ∧ hexInt (slice 0 16 line) = .ok (p.2 : Int) := by
  obtain ⟨h, l, rfl, hh, hl⟩ := h
  have hlow : slice 16 32 (h ++ l ++ ['\n']) = l := by
    have ht : (h ++ l ++ ['\n']).take 32 = h ++ l :=
      List.take_left' (by rw [List.length_append, hh.length, hl.length])
    rw [slice, ht]
    exact List.drop_left' hh.length
  have hhigh : slice 0 16 (h ++ l ++ ['\n']) = h := by
    rw [slice, List.append_assoc, List.drop_zero]
    exact List.take_left' hh.length
  rw [hlow, hhigh]
  exact ⟨hexInt_showsWord hl, hexInt_showsWord hh⟩

/-- **A word is read back** from the half of the line that shows it. -/
theorem readWord_ok {lines : List Text} {ps : List (Nat × Nat)} (h : WordLines lines ps) {k b : Nat}
    (hb : b < 2) {p : Nat × Nat} (hp : ps[k]? = some p) :
    readWord lines (2 * k + b : Nat) = .ok ((if b = 0 then p.1 else p.2 : Nat) : Int) := by
  obtain ⟨-, line, hline, hshows⟩ := lineAt_ok h hp
  obtain ⟨hlo, hhi⟩ := hshows.halves
  have hdiv : ((2 * k + b : Nat) : Int) / 2 = k := by omega
  have hmod : ((2 * k + b : Nat) : Int) % 2 = b := by omega
  rw [readWord, hdiv, hmod, hline]
  obtain rfl | rfl : b = 0 ∨ b = 1 := by omega
  · exact hlo
  · exact hhi

theorem readPair_ok {lines : List Text} {ps : List (Nat × Nat)} (h : WordLines lines ps) {k : Nat}
    {p : Nat × Nat} (hp : ps[k]? = some p) : readPair lines k = .ok [(p.1 : Int), (p.2 : Int)] := by
  obtain ⟨hk, line, hline, hshows⟩ := lineAt_ok h hp
  obtain ⟨hlo, hhi⟩ := hshows.halves
  rw [readPair, if_pos (by omega), hline]
  show (do return [← hexInt (slice 16 32 line), ← hexInt (slice 0 16 line)]) = _
  rw [hlo, hhi]
  rfl

theorem readPair_none {lines : List Text} {k : Nat} (h : lines.length ≤ k) :
    readPair lines k = .ok [] := by
  rw [readPair, if_neg (by omega)]

/-- The word at an address of the signature region, read by its index. -/
theorem readWord_output {lines : List Text} {word : Nat → Nat} {start stop : Nat}
    {more : List (Nat × Nat)} (h : WordLines lines (wordPairs word start (stop - start) ++ more))
    (hs : 16 ∣ start) (he : 16 ∣ stop) {a : Nat} (ha : 8 ∣ a) (hlo : start ≤ a) (hhi : a < stop) :
    readWord lines (((a : Int) - start) / 8) = .ok (word a : Int) := by
  obtain ⟨s, rfl⟩ := hs
  obtain ⟨e, rfl⟩ := he
  obtain ⟨c, rfl⟩ := ha
  have hk : (c - 2 * s) / 2 < (16 * e - 16 * s) / 16 := by omega
  have hp : (wordPairs word (16 * s) (16 * e - 16 * s) ++ more)[(c - 2 * s) / 2]? =
      some (word (16 * s + 16 * ((c - 2 * s) / 2)), word (16 * s + 16 * ((c - 2 * s) / 2) + 8)) := by
    rw [List.getElem?_append_left (by simpa [wordPairs] using hk), wordPairs, List.getElem?_map,
      List.getElem?_range hk]
    rfl
  have hidx : (((8 * c : Nat) : Int) - (16 * s : Nat)) / 8 =
      (2 * ((c - 2 * s) / 2) + (c - 2 * s) % 2 : Nat) := by omega
  rw [hidx, readWord_ok h (Nat.mod_lt _ (by decide)) hp]
  split
  · rw [show 16 * s + 16 * ((c - 2 * s) / 2) = 8 * c by omega]
  · rw [show 16 * s + 16 * ((c - 2 * s) / 2) + 8 = 8 * c by omega]

/-- The words of a section, as pairs of lines show them. -/
def pairWords (p : Nat × Nat) : List Int := [(p.1 : Int), (p.2 : Int)]

/-- The words that the reader finds for a section. -/
def sectionWords (word : Nat → Nat) (d : Nat × Nat) : List Int :=
  ((wordPairs word d.1 (d.2 - d.1)).map pairWords).flatten

theorem length_sectionWords (word : Nat → Nat) (d : Nat × Nat) :
    (sectionWords word d).length = 2 * ((d.2 - d.1) / 16) := by
  have hmap : (wordPairs word d.1 (d.2 - d.1)).map (List.length ∘ pairWords) =
      (wordPairs word d.1 (d.2 - d.1)).map fun _ => 2 := rfl
  rw [sectionWords, List.length_flatten, List.map_map, hmap, List.map_const']
  simp [wordPairs, Nat.mul_comm]

/-- **The data of the sections**, from lines that show it. -/
theorem readData_ok {lines : List Text} {word : Nat → Nat} {sections : List (Nat × Nat)}
    (hs : ∀ d ∈ sections, d.1 ≤ d.2) {pre : List (Nat × Nat)}
    (h : WordLines lines (pre ++ sectionPairs word sections)) :
    readData lines sections pre.length = .ok (sections.map (sectionWords word)) := by
  induction sections generalizing pre with
  | nil => rfl
  | cons d sections ih =>
      obtain ⟨s, e⟩ := d
      have hle : s ≤ e := hs (s, e) List.mem_cons_self
      have hsize : ((e : Int) - s) / 16 = ((e - s) / 16 : Nat) := by omega
      have hlen : (wordPairs word s (e - s)).length = (e - s) / 16 := by simp [wordPairs]
      have hcons : sectionPairs word ((s, e) :: sections) =
          wordPairs word s (e - s) ++ sectionPairs word sections := rfl
      rw [hcons, ← List.append_assoc] at h
      have hxs : (List.range ((e - s) / 16)).mapM (fun j : Nat => readPair lines ((pre.length : Int) + j)) =
          .ok ((List.range ((e - s) / 16)).map fun k =>
            pairWords (word (s + 16 * k), word (s + 16 * k + 8))) := by
        refine Except.mapM_eq fun j hj => ?_
        have hj := List.mem_range.mp hj
        have hp : (pre ++ wordPairs word s (e - s) ++ sectionPairs word sections)[pre.length + j]? =
            some (word (s + 16 * j), word (s + 16 * j + 8)) := by
          rw [List.getElem?_append_left (by rw [List.length_append, hlen]; omega),
            List.getElem?_append_right (by omega), Nat.add_sub_cancel_left, wordPairs,
            List.getElem?_map, List.getElem?_range hj]
          rfl
        have hread := readPair_ok h hp
        rw [Nat.cast_add] at hread
        exact hread
      have hdata := ih (fun d hd => hs d (List.mem_cons_of_mem _ hd)) h
      rw [List.length_append, hlen, Nat.cast_add] at hdata
      rw [readData, hsize, Int.toNat_natCast, hxs]
      show (do return _ :: (← readData lines sections _)) = _
      rw [hdata, List.map_cons, sectionWords, wordPairs, List.map_map]
      rfl

/-- Past the end of the file there is no data. -/
theorem readData_past {lines : List Text} {sections : List (Nat × Nat)} (hs : ∀ d ∈ sections, d.1 ≤ d.2)
    {start : Nat} (h : lines.length ≤ start) :
    readData lines sections start = .ok (sections.map fun _ => []) := by
  induction sections generalizing start with
  | nil => rfl
  | cons d sections ih =>
      obtain ⟨s, e⟩ := d
      have hle : s ≤ e := hs (s, e) List.mem_cons_self
      have hsize : ((e : Int) - s) / 16 = ((e - s) / 16 : Nat) := by omega
      have hone : (List.range ((e - s) / 16)).mapM (fun j : Nat => readPair lines ((start : Int) + j)) =
          .ok ((List.range ((e - s) / 16)).map fun _ => []) := by
        refine Except.mapM_eq fun j _ => ?_
        rw [← Nat.cast_add]
        exact readPair_none (by omega)
      rw [readData, hsize, Int.toNat_natCast, hone]
      show (do return ((List.range ((e - s) / 16)).map fun _ => ([] : List Int)).flatten ::
        (← readData lines sections ((start : Int) + ((e - s) / 16 : Nat)))) = _
      rw [← Nat.cast_add, ih (fun d hd => hs d (List.mem_cons_of_mem _ hd)) (by omega)]
      have hflat : ((List.range ((e - s) / 16)).map fun _ => ([] : List Int)).flatten = [] := by simp
      rw [hflat]
      rfl

/-! ## 4. The check -/

section Check

variable {L : Layout} {symbols : Symbols}

/-- The data sections of a layout. -/
def Layout.sections (L : Layout) : List (Nat × Nat) :=
  (List.range 6).map fun i => (L.dataStart i, L.dataEnd i)

/-- The index of an output. -/
def Layout.index (L : Layout) (n : Text) : Int := ((L.output n : Int) - L.sigStart) / 8

theorem mem_outputNames_xreg {i : Nat} (h : i ∈ List.range 32) : regOutput 'x' i ∈ outputNames :=
  List.mem_append_left _ (List.mem_append_left _ (List.mem_map_of_mem h))

theorem mem_outputNames_freg {i : Nat} (h : i ∈ List.range 32) : regOutput 'f' i ∈ outputNames :=
  List.mem_append_left _ (List.mem_append_right _ (List.mem_map_of_mem h))

theorem mem_outputNames_csr {c : String} (h : c ∈ csrNames) : csrOutput c ∈ outputNames :=
  List.mem_append_right _ (List.mem_map_of_mem h)

/-- The indexes of a table with the addresses of a layout. -/
def Layout.indexes (L : Layout) : Indexes where
  xregs := (List.range 32).map fun i => L.index (regOutput 'x' i)
  fregs := (List.range 32).map fun i => L.index (regOutput 'f' i)
  csrs := csrNames.map fun c => L.index (csrOutput c)
  dataSymbols := L.sections
  dataStart := ((L.sigEnd - L.sigStart) / 16 : Nat)

theorem Layout.Placed.readSymbols (h : L.Placed symbols) : readSymbols symbols = .ok L.indexes := by
  have hidx : ∀ n ∈ outputNames, wordIndex symbols L.sigStart n = .ok (L.index n) := by
    intro n hn
    rw [wordIndex, symbol, h.outputs n hn]
    rfl
  have hx := Except.mapM_eq fun i (hi : i ∈ List.range 32) => hidx _ (mem_outputNames_xreg hi)
  have hf := Except.mapM_eq fun i (hi : i ∈ List.range 32) => hidx _ (mem_outputNames_freg hi)
  have hc := Except.mapM_eq fun c (hc : c ∈ csrNames) => hidx _ (mem_outputNames_csr hc)
  have hd : (List.range 6).mapM (fun i => do
      return (← symbol symbols (randomData i), ← symbol symbols (endData i)) :
      Nat → Except Exn (Nat × Nat)) = .ok L.sections := by
    refine Except.mapM_eq fun i hi => ?_
    obtain ⟨hs, he⟩ := h.data i (List.mem_range.mp hi)
    rw [symbol, symbol, hs, he]
    rfl
  have hstart : ((L.sigEnd : Int) - L.sigStart) / (2 * 8) = ((L.sigEnd - L.sigStart) / 16 : Nat) := by
    have := h.sigAligned.2.2
    omega
  rw [Signature.readSymbols, symbol, h.sigBegin, symbol, h.sigEnd]
  show (do
    let xregs ← (List.range 32).mapM fun i => wordIndex symbols L.sigStart (regOutput 'x' i)
    let fregs ← (List.range 32).mapM fun i => wordIndex symbols L.sigStart (regOutput 'f' i)
    let csrs ← csrNames.mapM fun c => wordIndex symbols L.sigStart (csrOutput c)
    let dataSymbols ← (List.range 6).mapM fun i => do
      return (← symbol symbols (randomData i), ← symbol symbols (endData i))
    return (⟨xregs, fregs, csrs, dataSymbols,
      ((L.sigEnd : Int) - L.sigStart) / (2 * 8)⟩ : Indexes)) = _
  rw [hx, hf, hc, hd, hstart]
  rfl

/-- The values that a file shows whose outputs are the words of a memory. -/
def Layout.values (L : Layout) (word : Nat → Nat) (data : List (List Int)) : Values where
  xregs := (List.range 32).map fun i => (word (L.output (regOutput 'x' i)) : Int)
  fregs := (List.range 32).map fun i => (word (L.output (regOutput 'f' i)) : Int)
  csrs := csrNames.map fun c => (word (L.output (csrOutput c)) : Int)
  data := data

/-- What is read from a file whose first lines show the signature. -/
theorem readSig_ok (h : L.Placed symbols) {lines : List Text} {word : Nat → Nat} {more : List (Nat × Nat)}
    (hlines : WordLines lines (wordPairs word L.sigStart (L.sigEnd - L.sigStart) ++ more))
    {data : List (List Int)}
    (hdata : readData lines L.sections ((L.sigEnd - L.sigStart) / 16 : Nat) = .ok data) :
    readSig lines.flatten L.indexes = .ok (L.values word data) := by
  have hword : ∀ n ∈ outputNames, readWord lines (L.index n) = .ok (word (L.output n) : Int) := by
    intro n hn
    obtain ⟨ha, hlo, hhi⟩ := h.inside n hn
    exact readWord_output hlines h.sigAligned.1 h.sigAligned.2.1 ha hlo hhi
  have hx := Except.mapM_eq fun i (hi : i ∈ List.range 32) => hword _ (mem_outputNames_xreg hi)
  have hf := Except.mapM_eq fun i (hi : i ∈ List.range 32) => hword _ (mem_outputNames_freg hi)
  have hc := Except.mapM_eq fun c (hc : c ∈ csrNames) => hword _ (mem_outputNames_csr hc)
  unfold readSig
  dsimp only [Layout.indexes]
  rw [readlines_wordLines hlines, List.mapM_map, List.mapM_map, List.mapM_map]
  show (do
    let xregs ← (List.range 32).mapM fun i => readWord lines (L.index (regOutput 'x' i))
    let fregs ← (List.range 32).mapM fun i => readWord lines (L.index (regOutput 'f' i))
    let csrs ← csrNames.mapM fun c => readWord lines (L.index (csrOutput c))
    let data ← readData lines L.sections ((L.sigEnd - L.sigStart) / 16 : Nat)
    return (⟨xregs, fregs, csrs, data⟩ : Values)) = _
  rw [hx, hf, hc, hdata]
  rfl

theorem allMatch_map {α : Type} (l : List α) (f g : α → Int) :
    allMatch (l.map f) (l.map g) = true ↔ ∀ x ∈ l, f x = g x := by
  rw [allMatch, List.zip_map', List.all_map, List.all_eq_true]
  exact forall₂_congr fun x _ => beq_iff_eq

/-- The memories agree on the outputs. -/
def Layout.OutputsMatch (L : Layout) (isa : Bytes) (rtl : Words) : Prop :=
  ∀ n ∈ outputNames, (leWord isa (L.output n) : Int) = rtlWord rtl (L.output n)

theorem outputsMatch_iff {isa : Bytes} {rtl : Words} : L.OutputsMatch isa rtl ↔
    (∀ i ∈ List.range 32, (leWord isa (L.output (regOutput 'x' i)) : Int) =
      rtlWord rtl (L.output (regOutput 'x' i))) ∧
    (∀ i ∈ List.range 32, (leWord isa (L.output (regOutput 'f' i)) : Int) =
      rtlWord rtl (L.output (regOutput 'f' i))) ∧
    ∀ c ∈ csrNames, (leWord isa (L.output (csrOutput c)) : Int) = rtlWord rtl (L.output (csrOutput c)) := by
  unfold Layout.OutputsMatch outputNames
  constructor
  · intro h
    exact ⟨fun i hi => h _ (mem_outputNames_xreg hi), fun i hi => h _ (mem_outputNames_freg hi),
      fun c hc => h _ (mem_outputNames_csr hc)⟩
  · intro h' n hn
    obtain ⟨hx, hf, hc⟩ := h'
    rcases List.mem_append.mp hn with hn | hn
    · rcases List.mem_append.mp hn with hn | hn
      · obtain ⟨i, hi, rfl⟩ := List.mem_map.mp hn
        exact hx i hi
      · obtain ⟨i, hi, rfl⟩ := List.mem_map.mp hn
        exact hf i hi
    · obtain ⟨c, hcm, rfl⟩ := List.mem_map.mp hn
      exact hc c hcm

/-- Data against no data: all sections match only if there is none. -/
theorem data_all_iff {word : Nat → Nat} {sections : List (Nat × Nat)} :
    (((sections.map (sectionWords word)).zip (sections.map fun _ => ([] : List Int))).all
      fun p => p.1 == p.2) = true ↔ ∀ d ∈ sections, (d.2 - d.1) / 16 = 0 := by
  rw [List.zip_map', List.all_map, List.all_eq_true]
  refine forall₂_congr fun d _ => ?_
  show (sectionWords word d == []) = true ↔ _
  rw [beq_iff_eq, ← List.length_eq_zero_iff, length_sectionWords]
  omega

/-- The simulator finds the signature and all six sections. -/
theorem Layout.Of.loadProgram (h : L.Of symbols) :
    loadProgram symbols = ⟨L.sigStart, L.sigEnd - L.sigStart, L.sections⟩ := by
  have hdata : (Signature.loadProgram symbols).dataAddrs = L.sections := by
    rw [Signature.loadProgram, Layout.sections, ← List.filterMap_eq_map]
    refine List.filterMap_congr fun i hi => ?_
    obtain ⟨hs, he⟩ := h.data i (List.mem_range.mp hi)
    rw [hs, he]
    rfl
  obtain ⟨-, -, hle, hlt⟩ := h.sigAligned
  rw [Signature.loadProgram, h.sigBegin, h.sigEnd, ← addrDiff_eq hle hlt]
  exact congrArg (Htif.mk _ _) hdata

theorem Layout.Placed.sections_le (h : L.Placed symbols) : ∀ d ∈ L.sections, d.1 ≤ d.2 := by
  intro d hd
  obtain ⟨i, hi, rfl⟩ := List.mem_map.mp hd
  exact (h.dataAligned i (List.mem_range.mp hi)).2.2

/-- The words that a full file shows. -/
def Layout.pairs (L : Layout) (word : Nat → Nat) : List (Nat × Nat) :=
  wordPairs word L.sigStart (L.sigEnd - L.sigStart) ++ sectionPairs word L.sections

/-- The file of the simulator for a table with the addresses of a layout. -/
theorem Layout.Of.stop (h : L.Of symbols) (isa : Bytes) :
    stop (Signature.loadProgram symbols) isa = .ok ((L.pairs (leWord isa)).map pairLine).flatten := by
  obtain ⟨hs, he, -, -⟩ := h.sigAligned
  obtain ⟨-, hlo, hhi⟩ := h.inside _ (mem_outputNames_xreg (List.mem_range.mpr (Nat.zero_lt_succ 31)))
  have hdata : ∀ d ∈ L.sections, d.1 ≤ d.2 ∧ d.2 < 2 ^ 64 ∧ (d.2 - d.1) % 16 = 0 ∧
      d.2 - d.1 ≤ L.sigEnd - L.sigStart := by
    intro d hd
    obtain ⟨i, hi, rfl⟩ := List.mem_map.mp hd
    obtain ⟨has, hae, hle, hlt, hlen⟩ := h.dataAligned i (List.mem_range.mp hi)
    exact ⟨hle, hlt, Nat.mod_eq_zero_of_dvd (Nat.dvd_sub hae has), hlen⟩
  rw [h.loadProgram]
  exact stop_eq (h := ⟨L.sigStart, L.sigEnd - L.sigStart, L.sections⟩) (by dsimp only; omega)
    (Nat.mod_eq_zero_of_dvd (Nat.dvd_sub he hs)) hdata

/-- **Reading a full file** gives the outputs and the words of the sections. -/
theorem Layout.Placed.readSig (h : L.Placed symbols) {word : Nat → Nat}
    (hword : ∀ p ∈ L.pairs word, p.1 < 2 ^ 64 ∧ p.2 < 2 ^ 64) :
    readSig ((L.pairs word).map pairLine).flatten L.indexes =
      .ok (L.values word (L.sections.map (sectionWords word))) := by
  have hlines := wordLines_pairLine hword
  have hcount : (wordPairs word L.sigStart (L.sigEnd - L.sigStart)).length =
      (L.sigEnd - L.sigStart) / 16 := by simp [wordPairs]
  have hdata := readData_ok h.sections_le hlines
  rw [hcount] at hdata
  exact readSig_ok h hlines hdata

/-- The words that bytes make have 64 bits. -/
theorem pairs_leWord_lt (L : Layout) (isa : Bytes) :
    ∀ p ∈ L.pairs (leWord isa), p.1 < 2 ^ 64 ∧ p.2 < 2 ^ 64 := by
  have hone : ∀ start len, ∀ p ∈ wordPairs (leWord isa) start len, p.1 < 2 ^ 64 ∧ p.2 < 2 ^ 64 := by
    intro start len p hp
    obtain ⟨k, -, rfl⟩ := List.mem_map.mp hp
    exact ⟨leWord_lt isa _, leWord_lt isa _⟩
  intro p hp
  rcases List.mem_append.mp hp with hp | hp
  · exact hone _ _ p hp
  · obtain ⟨l, hl, hpl⟩ := List.mem_flatten.mp hp
    obtain ⟨d, -, rfl⟩ := List.mem_map.mp hl
    exact hone _ _ p hpl

/-- No lines of data: the sections are empty. -/
theorem Layout.Of.sections_empty_iff (h : L.Of symbols) :
    (∀ d ∈ L.sections, (d.2 - d.1) / 16 = 0) ↔ ∀ i < 6, L.dataStart i = L.dataEnd i := by
  have hone : ∀ i < 6, (L.dataEnd i - L.dataStart i) / 16 = 0 ↔ L.dataStart i = L.dataEnd i := by
    intro i hi
    obtain ⟨⟨s, hs⟩, ⟨e, he⟩, hle, -, -⟩ := h.dataAligned i hi
    omega
  constructor
  · intro hall i hi
    exact (hone i hi).mp (hall _ (List.mem_map_of_mem (List.mem_range.mpr hi)))
  · intro hall d hd
    obtain ⟨i, hi, rfl⟩ := List.mem_map.mp hd
    have hi := List.mem_range.mp hi
    exact (hone i hi).mpr (hall i hi)

/-- **What the check returns** for the two files: the outputs agree, and there is no data. -/
theorem check_eq (h : L.Of symbols) (isa : Bytes) {rtl : Words}
    (hp : Present rtl L.sigStart L.sigEnd) :
    ∃ isaSig rtlSig b, stop (loadProgram symbols) isa = .ok isaSig ∧
      finishTest symbols rtl = .ok rtlSig ∧ check isaSig rtlSig symbols = .ok b ∧
      (b = true ↔ L.OutputsMatch isa rtl ∧ ∀ i < 6, L.dataStart i = L.dataEnd i) := by
  obtain ⟨hs, he, -, -⟩ := h.sigAligned
  -- The simulator's file goes on with the data; the other one ends where the data would start.
  have hisa := h.stop isa
  have hisaRead := h.placed.readSig (pairs_leWord_lt L isa)
  have hrtl := finishTest_eq h.sigBegin h.sigEnd hs he hp
  have hrtlLines := wordLines_pairLine (hp.wordPairs_lt hs)
  have hcount : ((wordPairs (rtlWord rtl) L.sigStart (L.sigEnd - L.sigStart)).map pairLine).length =
      (L.sigEnd - L.sigStart) / 16 := by simp [wordPairs]
  have hnone := readData_past h.placed.sections_le (le_of_eq hcount)
  have hrtlMore : WordLines ((wordPairs (rtlWord rtl) L.sigStart (L.sigEnd - L.sigStart)).map pairLine)
      (wordPairs (rtlWord rtl) L.sigStart (L.sigEnd - L.sigStart) ++ []) := by
    rw [List.append_nil]
    exact hrtlLines
  have hrtlRead := readSig_ok h.placed hrtlMore hnone
  refine ⟨_, _, matchValues (L.values (leWord isa) (L.sections.map (sectionWords (leWord isa))))
    (L.values (rtlWord rtl) (L.sections.map fun _ => [])), hisa, hrtl, ?_, ?_⟩
  · rw [check, h.placed.readSymbols]
    show (do
      let isa ← Signature.readSig _ L.indexes
      let rtl ← Signature.readSig _ L.indexes
      return matchValues isa rtl) = _
    rw [hisaRead, hrtlRead]
    rfl
  · simp only [matchValues, Layout.values, Bool.and_eq_true, allMatch_map, data_all_iff,
      h.sections_empty_iff, outputsMatch_iff, and_true, and_assoc]

/-- Without data, the memories agree if they do on the outputs. -/
theorem agrees_iff_of_empty (h : L.Of symbols) {isa : Bytes} {rtl : Words}
    (hp : Present rtl L.sigStart L.sigEnd) (hempty : ∀ i < 6, L.dataStart i = L.dataEnd i) :
    L.OutputsMatch isa rtl ↔ L.Agrees isa rtl := by
  have hone : ∀ n ∈ outputNames, (leWord isa (L.output n) : Int) = rtlWord rtl (L.output n) ↔
      rtl (L.output n) = some (leWord isa (L.output n)) := by
    intro n hn
    obtain ⟨hal, hlo, hhi⟩ := h.inside n hn
    obtain ⟨v, -, hv⟩ := hp _ hlo hhi hal
    rw [rtlWord, hv, Option.getD_some, Nat.cast_inj, Option.some_inj, eq_comm]
  constructor
  · intro hmatch
    refine ⟨fun n hn => (hone n hn).mp (hmatch n hn), fun i hi a hs he _ => ?_⟩
    rw [hempty i hi] at hs
    exact absurd he (not_lt.mpr hs)
  · intro hag n hn
    exact (hone n hn).mpr (hag.outputs n hn)

/-- **The check is exact only without data.** Both files are written and the check returns. It answers
    whether the memories agree if and only if the six sections are empty, or the memories differ. -/
theorem check_exact_iff (h : L.Of symbols) (isa : Bytes) {rtl : Words}
    (hp : Present rtl L.sigStart L.sigEnd) :
    ∃ isaSig rtlSig b, stop (loadProgram symbols) isa = .ok isaSig ∧
      finishTest symbols rtl = .ok rtlSig ∧ check isaSig rtlSig symbols = .ok b ∧
      ((b = true ↔ L.Agrees isa rtl) ↔
        (∀ i < 6, L.dataStart i = L.dataEnd i) ∨ ¬ L.Agrees isa rtl) := by
  obtain ⟨isaSig, rtlSig, b, hisa, hrtl, hcheck, hb⟩ := check_eq h isa hp
  refine ⟨isaSig, rtlSig, b, hisa, hrtl, hcheck, ?_⟩
  rw [hb]
  by_cases hempty : ∀ i < 6, L.dataStart i = L.dataEnd i
  · have hag : L.OutputsMatch isa rtl ↔ L.Agrees isa rtl := agrees_iff_of_empty h hp hempty
    exact iff_of_true ((and_iff_left hempty).trans hag) (.inl hempty)
  · -- With data the answer is always no, which is right only if the memories differ.
    have hfalse : ¬ (L.OutputsMatch isa rtl ∧ ∀ i < 6, L.dataStart i = L.dataEnd i) :=
      fun hand => hempty hand.2
    rw [iff_false_left hfalse, or_iff_right hempty]

end Check

/-! ## 5. A table -/

/-- Outputs one after the other, and sections of a size. The mutator makes 512 bytes for each. -/
def denseLayout (size : Nat) : Layout where
  sigStart := 0x80001000
  sigEnd := 0x80001000 + 752
  output := fun n => 0x80001000 + 8 * outputNames.idxOf n
  dataStart := fun i => 0x80002000 + 0x200 * i
  dataEnd := fun i => 0x80002000 + 0x200 * i + size

def Layout.symbols (L : Layout) : Symbols :=
  ⟨[(beginSignature, L.sigStart), (endSignature, L.sigEnd)] ++
    outputNames.map (fun n => (n, L.output n)) ++
    (List.range 6).map (fun i => (randomData i, L.dataStart i)) ++
    (List.range 6).map (fun i => (endData i, L.dataEnd i))⟩

/-- The names of the table, apart from the outputs. -/
theorem outputs_apart : (∀ n ∈ outputNames, n ≠ beginSignature ∧ n ≠ endSignature) ∧
    ∀ i < 6, randomData i ∉ outputNames ∧ endData i ∉ outputNames := by
  decide +kernel

/-- The outputs are found in the table. -/
theorem Layout.symbols_output (L : Layout) {n : Text} (hn : n ∈ outputNames) :
    L.symbols.get? n = some (L.output n) := by
  have hsig : (⟨[(beginSignature, L.sigStart), (endSignature, L.sigEnd)]⟩ : Symbols).get? n = none := by
    refine Dict.get?_eq_none fun hmem => ?_
    rcases List.mem_pair.mp hmem with h | h
    · exact (outputs_apart.1 n hn).1 h
    · exact (outputs_apart.1 n hn).2 h
  unfold Layout.symbols
  rw [Dict.get?_append, Dict.get?_append, Dict.get?_append, hsig]
  have hout := Dict.lookup_map_self outputNames L.output n
  rw [if_pos hn] at hout
  unfold Dict.get?
  rw [hout]
  rfl

/-- So are the data sections. -/
theorem Layout.symbols_data (L : Layout) {i : Nat} (hi : i < 6) :
    L.symbols.get? (randomData i) = some (L.dataStart i) ∧
      L.symbols.get? (endData i) = some (L.dataEnd i) := by
  have hout : ∀ x, x ∉ outputNames →
      (⟨outputNames.map fun n => (n, L.output n)⟩ : Symbols).get? x = none := by
    intro x hx
    exact (Dict.lookup_map_self outputNames L.output x).trans (if_neg hx)
  obtain ⟨hr, he⟩ := outputs_apart.2 i hi
  unfold Layout.symbols
  rw [Dict.get?_append, Dict.get?_append, Dict.get?_append, hout _ hr,
    Dict.get?_append, Dict.get?_append, Dict.get?_append, hout _ he]
  interval_cases i <;> exact ⟨rfl, rfl⟩

theorem denseLayout_of {size : Nat} (h : size = 0 ∨ size = 512) :
    (denseLayout size).Of (denseLayout size).symbols where
  sigBegin := rfl
  sigEnd := rfl
  outputs _ hn := (denseLayout size).symbols_output hn
  data _ hi := (denseLayout size).symbols_data hi
  sigAligned := by
    show 16 ∣ 0x80001000 ∧ 16 ∣ 0x80001000 + 752 ∧ 0x80001000 ≤ 0x80001000 + 752 ∧
      0x80001000 + 752 < 2 ^ 64
    decide
  inside n hn := by
    have hlen : outputNames.length = 93 := by decide +kernel
    have hlt : outputNames.idxOf n < 93 := hlen ▸ List.idxOf_lt_length_of_mem hn
    show 8 ∣ 0x80001000 + 8 * outputNames.idxOf n ∧
      0x80001000 ≤ 0x80001000 + 8 * outputNames.idxOf n ∧
      0x80001000 + 8 * outputNames.idxOf n < 0x80001000 + 752
    omega
  dataAligned i hi := by
    show 16 ∣ 0x80002000 + 0x200 * i ∧ 16 ∣ 0x80002000 + 0x200 * i + size ∧
      0x80002000 + 0x200 * i ≤ 0x80002000 + 0x200 * i + size ∧
      0x80002000 + 0x200 * i + size < 2 ^ 64 ∧
      0x80002000 + 0x200 * i + size - (0x80002000 + 0x200 * i) ≤ 0x80001000 + 752 - 0x80001000
    rcases h with rfl | rfl <;> omega

/-- Memories of zeros. -/
theorem present_zero (start stop : Nat) : Present (fun _ => some 0) start stop :=
  fun _ _ _ _ => ⟨0, by decide, rfl⟩

theorem denseLayout_agrees (size : Nat) : (denseLayout size).Agrees (fun _ => 0) (fun _ => some 0) :=
  ⟨fun _ _ => rfl, fun _ _ _ _ _ _ => rfl⟩

/-- Without data the check says that equal memories agree. -/
theorem check_exact_dense : ∃ isaSig rtlSig b,
    stop (loadProgram (denseLayout 0).symbols) (fun _ => 0) = .ok isaSig ∧
      finishTest (denseLayout 0).symbols (fun _ => some 0) = .ok rtlSig ∧
      check isaSig rtlSig (denseLayout 0).symbols = .ok b ∧
      (b = true ↔ (denseLayout 0).Agrees (fun _ => 0) fun _ => some 0) := by
  obtain ⟨isaSig, rtlSig, b, hisa, hrtl, hcheck, hiff⟩ :=
    check_exact_iff (denseLayout_of (.inl rfl)) (fun _ => 0) (present_zero _ _)
  exact ⟨isaSig, rtlSig, b, hisa, hrtl, hcheck, hiff.mpr (.inl fun _ _ => rfl)⟩

/-- **Equal memories are reported as a mismatch** once the sections have data. -/
theorem check_false_dense : ∃ isaSig rtlSig,
    stop (loadProgram (denseLayout 512).symbols) (fun _ => 0) = .ok isaSig ∧
      finishTest (denseLayout 512).symbols (fun _ => some 0) = .ok rtlSig ∧
      check isaSig rtlSig (denseLayout 512).symbols = .ok false ∧
      (denseLayout 512).Of (denseLayout 512).symbols ∧
      (denseLayout 512).Agrees (fun _ => 0) fun _ => some 0 := by
  have hof := denseLayout_of (.inr rfl)
  obtain ⟨isaSig, rtlSig, b, hisa, hrtl, hcheck, hb⟩ :=
    check_eq hof (fun _ => 0) (present_zero _ _)
  have hfalse : b = false := by
    refine Bool.eq_false_iff.mpr fun htrue => ?_
    exact absurd ((hb.mp htrue).2 0 (by decide)) (by decide)
  rw [hfalse] at hcheck
  exact ⟨isaSig, rtlSig, hisa, hrtl, hcheck, hof, denseLayout_agrees 512⟩

end Difuzz.Signature
