/-
  File:      DifuzzRtl/Mutator/Links.lean
  Subject:   Every program that `get` returns links: each label is defined once, and every symbol that
             an instruction uses is defined.

  * `Body.labels`, `Body.dataLabels` -- the symbols of a line, read from its text.
  * `Word.Refers.text` -- the label that a word defines and the symbols that it uses.
  * `process_ok` -- the assembly text of a printed input with its data, and the data labels in it.
  * `programs_link` -- for every run of `get` and `add_corpus`.
-/
import DifuzzRtl.Mutator.Assembly
import DifuzzRtl.Mutator.Programs

namespace Difuzz.Mutator

open Text

/-! ## 1. The symbols of a line -/

def labelName (k : Nat) : Text := Part.mainPart.text ++ digits 10 k

theorem isSymbolChar_labelName {k : Nat} {c : Char} (h : c ∈ labelName k) : isSymbolChar c = true := by
  have hmark : ∀ c ∈ Part.mainPart.text, isSymbolChar c = true := by decide
  rcases List.mem_append.mp h with h | h
  · exact hmark c h
  · exact isSymbolChar_digits h

section Body

variable {R : Nat → Prop} {b : Text}

theorem Body.labels (h : Body .mainPart R b) :
    ∀ r ∈ symbolsOf ['_', 'l'] b, ∃ k, R k ∧ r = labelName k := by
  intro r hr
  cases h with
  | plain h =>
      rw [symbolsOf_none h.1 (by decide)] at hr
      cases hr
  | ref blanks h hk =>
      rename_i a k
      have hrest : '_' ∉ 'l' :: (digits 10 k ++ List.replicate blanks ' ') := by
        have hd : '_' ∉ digits 10 k := (clean_digits k).1.1
        simp [hd]
      have hbody : refBody .mainPart a k blanks =
          (a ++ [',', ' ']) ++ '_' :: 'l' :: (digits 10 k ++ List.replicate blanks ' ') := by
        simp [refBody, Part.text, intText]
      have hname : ('_' :: 'l' :: (digits 10 k ++ List.replicate blanks ' ')).takeWhile isSymbolChar =
          labelName k :=
        takeWhile_symbol_blanks (fun c hc => isSymbolChar_labelName hc) blanks
      have hpre : '_' ∉ a ++ [',', ' '] := by simp [h.1]
      rw [hbody, symbolsOf_pass hpre, symbolsOf, if_pos (by rfl), hname,
        symbolsOf_none hrest (by decide), List.mem_singleton] at hr
      exact ⟨k, hk, hr⟩
  | data blanks h hi hj =>
      rename_i a i j
      have hrest : 'l' ∉ 'd' :: '_' :: (digits 10 i ++ ['_'] ++ digits 10 j ++
          List.replicate blanks ' ') := by
        have hd : ∀ n, 'l' ∉ digits 10 n := not_mem_digits (by decide)
        simp [hd]
      have hbody : dataBody a i j blanks = (a ++ [',', ' ']) ++ 'd' :: '_' ::
          (digits 10 i ++ ['_'] ++ digits 10 j ++ List.replicate blanks ' ') := by
        simp [dataBody]
      have hpre : '_' ∉ a ++ [',', ' '] := by simp [h.1]
      rw [hbody, symbolsOf_pass hpre, symbolsOf_none hrest (by decide)] at hr
      cases hr

/-- A line does not start with an underscore. -/
theorem Body.head (h : Body .mainPart R b) : b.head? ≠ some '_' := by
  have hcons : ∀ a u : Text, '_' ∉ a → ∀ c : Char, c ≠ '_' → (a ++ c :: u).head? ≠ some '_' := by
    intro a u ha c hc e
    cases a with
    | nil => exact hc (Option.some.inj e)
    | cons d a => exact ha (by simpa using Or.inl (Option.some.inj e).symm)
  cases h with
  | plain h =>
      intro e
      exact h.1 (List.mem_of_mem_head? e)
  | ref blanks h hk => exact hcons _ _ h.1 ',' (by decide)
  | data blanks h hi hj => exact hcons _ _ h.1 ',' (by decide)

theorem Body.dataLabels (h : Body .mainPart R b) :
    ∀ r ∈ symbolsOf ['d', '_'] b, ∃ i ≤ 5, ∃ j ≤ 27, r = dataLabel i j := by
  intro r hr
  cases h with
  | plain h =>
      rw [symbolsOf_none h.1 (by decide)] at hr
      cases hr
  | ref blanks h hk =>
      rename_i a k
      have hrest : 'd' ∉ ' ' :: '_' :: 'l' :: (digits 10 k ++ List.replicate blanks ' ') := by
        have hd : 'd' ∉ digits 10 k := not_mem_digits (by decide) k
        simp [hd]
      have hbody : refBody .mainPart a k blanks =
          (a ++ [',']) ++ ' ' :: '_' :: 'l' :: (digits 10 k ++ List.replicate blanks ' ') := by
        simp [refBody, Part.text, intText]
      have hpre : '_' ∉ a ++ [','] := by simp [h.1]
      rw [hbody, symbolsOf_pass_second hpre (by simp), symbolsOf_none hrest (by decide)] at hr
      cases hr
  | data blanks h hi hj =>
      rename_i a i j
      have hrest : 'd' ∉ '_' :: (digits 10 i ++ ['_'] ++ digits 10 j ++ List.replicate blanks ' ') := by
        have hd : ∀ n, 'd' ∉ digits 10 n := not_mem_digits (by decide)
        simp [hd]
      have hbody : dataBody a i j blanks = (a ++ [',', ' ']) ++ 'd' :: '_' ::
          (digits 10 i ++ ['_'] ++ digits 10 j ++ List.replicate blanks ' ') := by
        simp [dataBody]
      have hname : ('d' :: '_' :: (digits 10 i ++ ['_'] ++ digits 10 j ++
          List.replicate blanks ' ')).takeWhile isSymbolChar = dataLabel i j := by
        have h : (dataLabel i j ++ List.replicate blanks ' ').takeWhile isSymbolChar = dataLabel i j :=
          takeWhile_symbol_blanks (fun c hc => isSymbolChar_dataLabel hc) blanks
        simpa [dataLabel] using h
      have hpre : '_' ∉ a ++ [',', ' '] := by simp [h.1]
      rw [hbody, symbolsOf_pass_second hpre (by simp), symbolsOf, if_pos (by rfl), hname,
        symbolsOf_none hrest (by decide), List.mem_singleton] at hr
      exact ⟨i, hi, j, hj, hr⟩

end Body

/-! ## 2. The symbols of a word -/

/-- The first line of a word: the label that it defines, and the symbols of its body. -/
theorem labelCol_symbols {R : Nat → Prop} {b : Text} (h : Body .mainPart R b) (n : Nat) :
    definedLabel (labelCol .mainPart n ++ b) = some (labelName n) ∧
      symbolsOf ['_', 'l'] (labelCol .mainPart n ++ b) = labelName n :: symbolsOf ['_', 'l'] b ∧
      symbolsOf ['d', '_'] (labelCol .mainPart n ++ b) = symbolsOf ['d', '_'] b := by
  obtain ⟨k, hk⟩ : ∃ k, labelCol .mainPart n = labelName n ++ ':' :: List.replicate k ' ' := by
    refine ⟨8 - (labelName n ++ [':']).length, ?_⟩
    simp [labelCol, ljust, labelName, intText]
  have hsymbol : ∀ c ∈ labelName n, isSymbolChar c = true := fun c hc => isSymbolChar_labelName hc
  have hline : labelCol .mainPart n ++ b = labelName n ++ ':' :: (List.replicate k ' ' ++ b) := by
    rw [hk, List.append_assoc, List.cons_append]
  have hcut : labelCol .mainPart n ++ b =
      '_' :: (('l' :: (digits 10 n ++ ':' :: List.replicate k ' ')) ++ b) := by
    rw [hk]
    simp [labelName, Part.text]
  have hrest : '_' ∉ 'l' :: (digits 10 n ++ ':' :: List.replicate k ' ') := by
    have hd : '_' ∉ digits 10 n := (clean_digits n).1.1
    simp [hd]
  have hname : (labelCol .mainPart n ++ b).takeWhile isSymbolChar = labelName n := by
    rw [hline]
    exact (takeWhile_symbol hsymbol (by decide) _).1
  refine ⟨?_, ?_, ?_⟩
  · rw [hline]
    exact definedLabel_colon (by simp [labelName, Part.text]) hsymbol _
  · rw [hcut] at hname ⊢
    rw [symbolsOf, if_pos (by rfl), hname, symbolsOf_pass hrest]
  · rw [hcut, symbolsOf, if_neg (by simp [List.isPrefixOf]), symbolsOf_pass_second hrest h.head]

theorem blankCol_symbols {R : Nat → Prop} {b : Text} (h : Body .mainPart R b) :
    definedLabel (ljust 8 [] ++ b) = none ∧
      symbolsOf ['_', 'l'] (ljust 8 [] ++ b) = symbolsOf ['_', 'l'] b ∧
      symbolsOf ['d', '_'] (ljust 8 [] ++ b) = symbolsOf ['d', '_'] b :=
  ⟨definedLabel_blank _, symbolsOf_pass (by decide) b, symbolsOf_pass_second (by decide) h.head⟩

/-- **The text of a populated word**: it defines its own label and no other, and uses the labels that
    it refers to and data words. -/
theorem Word.Refers.text {S : Refs} {w : Word} {n : Nat} (h : w.Refers S) (hl : w.label = n) :
    w.retInsts.filterMap definedLabel = [labelName n] ∧
      ∀ line ∈ w.retInsts,
        (∀ r ∈ symbolsOf ['_', 'l'] line, ∃ k, (k = n ∨ S w.tpe w.label k) ∧ r = labelName k) ∧
        ∀ r ∈ symbolsOf ['d', '_'] line, ∃ i ≤ 5, ∃ j ≤ 27, r = dataLabel i j := by
  obtain ⟨bodies, hp, -, hb⟩ := h
  rw [hp.lines, hl]
  cases bodies with
  | nil => exact absurd rfl hp.nonempty
  | cons b bs =>
      have hb₀ := hb b List.mem_cons_self
      have hbs := fun c hc => hb c (List.mem_cons_of_mem b hc)
      obtain ⟨hd, hrefs, hdata⟩ := labelCol_symbols hb₀ n
      rw [wordLines]
      constructor
      · rw [List.filterMap_cons, hd]
        have hnone : (bs.map (ljust 8 [] ++ ·)).filterMap definedLabel = [] := by
          rw [List.filterMap_eq_nil_iff]
          intro line hline
          obtain ⟨c, hc, rfl⟩ := List.mem_map.mp hline
          exact (blankCol_symbols (hbs c hc)).1
        rw [hnone]
      · intro line hline
        rcases List.mem_cons.mp hline with rfl | hline
        · rw [hrefs, hdata]
          refine ⟨fun r hr => ?_, hb₀.dataLabels⟩
          rcases List.mem_cons.mp hr with rfl | hr
          · exact ⟨n, .inl rfl, rfl⟩
          · obtain ⟨k, hk, rfl⟩ := hb₀.labels r hr
            exact ⟨k, .inr (hl ▸ hk), rfl⟩
        · obtain ⟨c, hc, rfl⟩ := List.mem_map.mp hline
          obtain ⟨-, hrefs, hdata⟩ := blankCol_symbols (hbs c hc)
          rw [hrefs, hdata]
          refine ⟨fun r hr => ?_, (hbs c hc).dataLabels⟩
          obtain ⟨k, hk, rfl⟩ := (hbs c hc).labels r hr
          exact ⟨k, .inr (hl ▸ hk), rfl⟩

/-! ## 3. The text of an input -/

section Input

variable {S : Nat → Refs} {si : SimInput}

theorem Word.Refers.length {R : Refs} {w : Word} (h : w.Refers R) : w.retInsts.length = w.lenInsts := by
  obtain ⟨bodies, hp, hlen, -⟩ := h
  rw [hp.lines, Word.lenInsts, ← hlen]
  cases bodies with
  | nil => rfl
  | cons b bs => simp [wordLines]

/-- The lines of the main part, with the label after the last word. -/
theorem SimInput.Printed.getInsts (h : si.Printed S) :
    si.getInsts = .ok ((si.words.map (·.retInsts)).flatten ++ [labelName si.words.length ++ [':']]) := by
  have hwords : si.words.mapM Word.getInsts = .ok (si.words.map (·.retInsts)) := by
    refine Except.mapM_eq fun w hw => ?_
    rw [Word.getInsts, if_pos (h.refers w hw).populated]
  rw [SimInput.getInsts, SimInput.partInsts, hwords]
  rfl

/-- **The labels of the main part** are those of its words in order, and the final one. -/
theorem SimInput.Printed.defines (h : si.Printed S) :
    ((si.words.map (·.retInsts)).flatten ++ [labelName si.words.length ++ [':']]).filterMap definedLabel =
      (List.range (si.words.length + 1)).map labelName := by
  have hfinal : definedLabel (labelName si.words.length ++ [':']) = some (labelName si.words.length) :=
    definedLabel_colon (by simp [labelName, Part.text]) (fun c hc => isSymbolChar_labelName hc) []
  have hwords : si.words.map (fun w => w.retInsts.filterMap definedLabel) =
      (List.range si.words.length).map fun k => [labelName k] := by
    refine List.ext_getElem (by simp) fun i h₁ h₂ => ?_
    rw [List.length_map] at h₁
    rw [List.getElem_map, List.getElem_map, List.getElem_range]
    exact ((h.refers _ (List.getElem_mem h₁)).text (h.labels i _ (List.getElem?_eq_getElem h₁))).1
  rw [List.filterMap_append, List.filterMap_flatten, List.map_map]
  show (si.words.map fun w => w.retInsts.filterMap definedLabel).flatten ++ _ = _
  rw [hwords, List.range_succ, List.map_append, List.filterMap_cons, hfinal]
  rw [← List.flatMap_def, ← List.map_eq_flatMap]
  rfl

/-- The symbols that the lines of the main part use. -/
theorem SimInput.Printed.uses (h : si.Printed S) {line : Text}
    (hline : line ∈ (si.words.map (·.retInsts)).flatten ++ [labelName si.words.length ++ [':']]) :
    (∀ r ∈ symbolsOf ['_', 'l'] line, ∃ k,
      (k ≤ si.words.length ∨ ∃ w ∈ si.words, S si.words.length w.tpe w.label k) ∧ r = labelName k) ∧
      ∀ r ∈ symbolsOf ['d', '_'] line, ∃ i ≤ 5, ∃ j ≤ 27, r = dataLabel i j := by
  rcases List.mem_append.mp hline with hline | hline
  · obtain ⟨lines, hlines, hline⟩ := List.mem_flatten.mp hline
    obtain ⟨w, hw, rfl⟩ := List.mem_map.mp hlines
    obtain ⟨i, hi, rfl⟩ := List.mem_iff_getElem.mp hw
    have hl := h.labels i _ (List.getElem?_eq_getElem hi)
    obtain ⟨hrefs, hdata⟩ := ((h.refers _ hw).text hl).2 line hline
    refine ⟨fun r hr => ?_, hdata⟩
    obtain ⟨k, rfl | hk, rfl⟩ := hrefs r hr
    · exact ⟨k, .inl (Nat.le_of_lt hi), rfl⟩
    · exact ⟨k, .inr ⟨_, hw, hk⟩, rfl⟩
  · rw [List.mem_singleton.mp hline]
    have hrest : '_' ∉ 'l' :: (digits 10 si.words.length ++ [':']) := by
      have hd : '_' ∉ digits 10 si.words.length := (clean_digits _).1.1
      simp [hd]
    have hcut : labelName si.words.length ++ [':'] =
        '_' :: 'l' :: (digits 10 si.words.length ++ [':']) := rfl
    have hname : (labelName si.words.length ++ [':']).takeWhile isSymbolChar =
        labelName si.words.length :=
      (takeWhile_symbol (fun c hc => isSymbolChar_labelName hc) (by decide) []).1
    rw [hcut] at hname ⊢
    rw [symbolsOf, if_pos (by rfl), hname, symbolsOf_none hrest (by decide), symbolsOf,
      if_neg (by simp [List.isPrefixOf]), symbolsOf_none hrest (by decide)]
    refine ⟨fun r hr => ?_, fun r hr => by cases hr⟩
    exact ⟨_, .inl le_rfl, List.mem_singleton.mp hr⟩

theorem expandInts_ok {lines : List Text} {ints : List Int} (h : lines.length ≤ ints.length) :
    ∃ r, expandInts lines ints = .ok r := by
  induction lines generalizing ints with
  | nil => exact ⟨[], by rw [expandInts]⟩
  | cons l lines ih =>
      cases ints with
      | nil => exact absurd h (by simp)
      | cons i ints =>
          obtain ⟨r, hr⟩ := ih (Nat.le_of_succ_le_succ h)
          refine ⟨if contains ['l', 'a'] l then i :: 0 :: r else i :: r, ?_⟩
          rw [expandInts, hr]
          rfl

/-- A line of the template, for data of six sections with 64 words each. -/
theorem expandLine_ok {data : List Int} (hd : data.length = 64 * 6) (p m s : List Text) (line : Text) :
    ∃ block, expandLine p m s data 64 6 line = .ok block ∧
      ∀ n < 6, contains (sectionName n) line = true → ∀ k < 28,
        dataLabel n k ∈ block.filterMap definedLabel := by
  have hblocks : ∀ n ∈ List.range 6, ∃ block, (if contains (sectionName n) line then
        sectionLines data n (n * 64) (n * 64 + 64) 0 (pairs (n * 64) (n * 64 + 64))
      else (.ok [] : Except Exn (List Text))) = .ok block ∧
      (contains (sectionName n) line = true → ∀ k < 28, dataLabel n k ∈ block.filterMap definedLabel) := by
    intro n hn
    have hn := List.mem_range.mp hn
    by_cases hc : contains (sectionName n) line = true
    · obtain ⟨lines, hl, hlabels⟩ := sectionLines_labels (n := n) (show n * 64 + 64 ≤ data.length by omega)
      refine ⟨lines, by rw [if_pos hc, hl], fun _ k hk => ?_⟩
      rw [hlabels]
      exact List.mem_map_of_mem (List.mem_range.mpr hk)
    · exact ⟨[], by rw [if_neg hc], fun h => absurd h hc⟩
  obtain ⟨blocks, hbs, hall⟩ := Except.mapM_ok hblocks
  refine ⟨_, by rw [expandLine, hbs]; rfl, fun n hn hc k hk => ?_⟩
  obtain ⟨block, hblock, hlabels⟩ := Forall₂.mem_left hall (List.mem_range.mpr hn)
  obtain ⟨l, hl, hd⟩ := List.mem_filterMap.mp (hlabels hc k hk)
  refine List.mem_filterMap.mpr ⟨l, ?_, hd⟩
  refine List.mem_cons_of_mem _ (List.mem_append_right _ ?_)
  exact List.mem_flatten.mpr ⟨block, hblock, hl⟩

/-- **The assembly text of a printed input** has the labels of all data words, for a template with a
    line for each section. -/
theorem process_ok (h : si.Printed S) {data : List Int} (hd : data.length = 64 * 6)
    {template : List Text} (ht : ∀ n < 6, (template.filter (contains (sectionName n))).length = 1) :
    ∃ asm ints, process si data template 6 = .ok (asm, ints) ∧
      ∀ n < 6, ∀ k < 28, dataLabel n k ∈ asm.filterMap definedLabel := by
  have hne : data ≠ [] := by
    rintro rfl
    cases hd
  have hsize : data.length / 6 = 64 := by rw [hd]
  have hpre : si.getPrefix = .ok ["_p0:".toList] := by
    rw [SimInput.getPrefix, h.prefixWords]
    rfl
  have hsuf : si.getSuffix = .ok ["_s0:".toList] := by
    rw [SimInput.getSuffix, h.suffixWords]
    rfl
  have hlines : (si.words.map (·.retInsts)).flatten.length ≤ si.ints.length := by
    rw [h.ints, List.length_flatten, List.map_map]
    refine le_of_eq (congrArg List.sum (List.map_congr_left fun w hw => ?_))
    exact (h.refers w hw).length
  obtain ⟨ints, hints⟩ := expandInts_ok hlines
  obtain ⟨blocks, hbs, hall⟩ := Except.mapM_ok fun line (_ : line ∈ template) =>
    expandLine_ok hd ["_p0:".toList]
      ((si.words.map (·.retInsts)).flatten ++ [labelName si.words.length ++ [':']]) ["_s0:".toList] line
  refine ⟨blocks.flatten, ints, ?_, fun n hn k hk => ?_⟩
  · have hpow : 64 &&& (64 - 1) = 0 := by decide
    unfold process
    rw [hsize, if_neg hne, if_neg (fun hn => hn hpow), hpre, h.getInsts, hsuf]
    show (do
      let ints ← expandInts ((si.words.map (·.retInsts)).flatten ++
        [labelName si.words.length ++ [':']]).dropLast si.ints
      let blocks ← template.mapM (expandLine ["_p0:".toList] ((si.words.map (·.retInsts)).flatten ++
        [labelName si.words.length ++ [':']]) ["_s0:".toList] data 64 6)
      pure (blocks.flatten, ints)) = Except.ok (blocks.flatten, ints)
    rw [List.dropLast_concat, hints, hbs]
    rfl
  · obtain ⟨line, hline⟩ := List.exists_mem_of_length_pos (show 0 < _ by rw [ht n hn]; decide)
    obtain ⟨hmem, hc⟩ := List.mem_filter.mp hline
    obtain ⟨block, hblock, hlabels⟩ := Forall₂.mem_left hall hmem
    obtain ⟨l, hl, hlab⟩ := List.mem_filterMap.mp (hlabels n hn hc k hk)
    exact List.mem_filterMap.mpr ⟨l, List.mem_flatten.mpr ⟨block, hblock, hl⟩, hlab⟩

end Input

/-! ## 4. Runs -/

/-- A program of `n` words may refer to its labels and to the final one. -/
def inRange (n : Nat) : Refs := fun _ _ k => k ≤ n

theorem mutatesOk_inRange {selector : List Nat} {s : Fuzz} (hs : s.Printed inRange) (c : Call) :
    MutatesOk selector inRange s c := by
  intro phase intr _ _ k w₁ t w₂ d w₃ _ _ hmut
  have hsized : ({ s.mutator with phase := phase } : RvMutator).Sized :=
    ⟨hs.sized.numPrefix, hs.sized.numSuffix, hs.sized.numWords, hs.sized.maxNWords⟩
  obtain ⟨hpre, hsuf, d₀, w₄, ws, w₅, w₆, hseeds, hfold, hreset⟩ := mutate_stages hsized
    (fun e he => ⟨(hs.corpus e he).prefixWords, (hs.corpus e he).suffixWords⟩) hmut
  have hready : ∀ e ∈ s.mutator.corpus, ∀ w ∈ e.words, w.Ready .mainPart fun _ _ => True := by
    intro e he w hw
    cases (hs.corpus e he).ready hw with
    | fresh h => exact .fresh h
    | lines h l hl hlt =>
        obtain ⟨bodies, hp, hlen, hb⟩ := h
        exact .lines ⟨bodies, hp, hlen, fun b h => (hb b h).mono fun _ _ => trivial⟩ l hl hlt
  have hseed : ∀ w ∈ d₀.words, w.Ready .mainPart fun _ _ => True := by
    obtain ⟨e, he, e₂, he₂, idx, -, hwords, -, -⟩ := seeds_words hseeds
    intro w hw
    rw [hwords] at hw
    rcases List.mem_append.mp hw with hw | hw
    · exact hready e he w (List.mem_of_mem_take hw)
    · exact hready e₂ he₂ w (List.mem_of_mem_drop hw)
  have hall := ensures_mutateFold (fun w h => Word.Ready.fresh h) hseed _ _ _ hfold
  refine draft_ok_of_resetLabels hpre hsuf hall hreset fun i w _ k v _ hv => ?_
  rcases hv with ⟨w', hw', -⟩ | ⟨-, hv⟩
  · exact Nat.le_of_lt (List.getElem?_eq_some_iff.mp hw').1
  · exact hv

/-- **Every generated program links.** In a run of a fresh mutator made of `get` and `add_corpus`
    calls, every input that was returned has the word labels `0 .. n - 1` in order, and its main part
    defines the labels `_l0` to `_ln`, each once. Every symbol `_l<k>` in it is one of them. For a
    template with one line for each data section, `process` succeeds, and every symbol `d_<i>_<j>` is
    a data label with `i ≤ 5` and `j ≤ 27` that the assembly text defines. -/
theorem programs_link {selector : List Nat} {maxData corpusSize : Nat}
    {tr : List (Fuzz × Call × Fuzz)} {s : Fuzz} (h : (machine selector maxData corpusSize).Trace tr s)
    (htr : Machine.Along (fun _ c => c.Plain) tr) :
    ∀ e ∈ s.returned, e.2.length = 384 ∧
      e.1.words.map (·.label) = (List.range e.1.words.length).map Int.ofNat ∧
      ∃ lines, e.1.getInsts = .ok lines ∧
        lines.filterMap definedLabel = (List.range (e.1.words.length + 1)).map labelName ∧
        (∀ line ∈ lines, ∀ r ∈ symbolsOf ['_', 'l'] line, ∃ k ≤ e.1.words.length, r = labelName k) ∧
        ∀ template : List Text,
          (∀ n < 6, (template.filter (contains (sectionName n))).length = 1) →
          ∃ asm ints, process e.1 e.2 template 6 = .ok (asm, ints) ∧
            ∀ line ∈ lines, ∀ r ∈ symbolsOf ['d', '_'] line,
              ∃ i ≤ 5, ∃ j ≤ 27, r = dataLabel i j ∧ r ∈ asm.filterMap definedLabel := by
  have hs : s.Printed inRange := run_printed (fun n tpe label k hk _ => hk)
    (fun s c hs hc => ⟨hc, mutatesOk_inRange hs c⟩) h htr
  intro e he
  obtain ⟨hp, hdata⟩ := hs.returned e he
  refine ⟨hdata, ?_, _, hp.getInsts, hp.defines, fun line hline r hr => ?_, fun template ht => ?_⟩
  · refine List.ext_getElem (by simp) fun i h₁ h₂ => ?_
    rw [List.length_map] at h₁
    rw [List.getElem_map, List.getElem_map, List.getElem_range]
    exact hp.labels i _ (List.getElem?_eq_getElem h₁)
  · obtain ⟨k, hk | ⟨w, -, hk⟩, rfl⟩ := (hp.uses hline).1 r hr
    · exact ⟨k, hk, rfl⟩
    · exact ⟨k, hk, rfl⟩
  · obtain ⟨asm, ints, hasm, hlabels⟩ := process_ok hp hdata ht
    refine ⟨asm, ints, hasm, fun line hline r hr => ?_⟩
    obtain ⟨i, hi, j, hj, rfl⟩ := (hp.uses hline).2 r hr
    exact ⟨i, hi, j, hj, rfl, hlabels i (by omega) j (by omega)⟩

/-- Draws for which the word before the last is a jump to the last one, and for which a mutation keeps
    these two words and swaps them. -/
def swapTape : List Nat :=
  List.replicate 796 0 ++ [50, 35] ++ List.replicate 1189 0 ++ [80, 82]

/-- A program of 200 words, and one that is left of it after a mutation: its last two words, in the
    other order. -/
theorem programs_link_mutated :
    let s := (exec (Fuzz.call generatorSelector) (Fuzz.fresh 1 1 swapTape)
      [.get .generation false, .addCorpus 0, .get .mutation false]).2
    s.returned.map (·.1.words.length) = [200, 2] ∧
      ∀ e ∈ s.returned, ∃ lines, e.1.getInsts = .ok lines ∧
        lines.filterMap definedLabel = (List.range (e.1.words.length + 1)).map labelName ∧
        ∀ line ∈ lines, ∀ r ∈ symbolsOf ['_', 'l'] line, ∃ k ≤ e.1.words.length, r = labelName k := by
  have hlink := programs_link (exec_fresh generatorSelector 1 1 swapTape
      [.get .generation false, .addCorpus 0, .get .mutation false])
    (exec_along (P := Call.Plain) (by simp [Call.Plain]) _)
  refine ⟨by decide +kernel, fun e he => ?_⟩
  obtain ⟨-, -, lines, hlines, hdef, hrefs, -⟩ := hlink e he
  exact ⟨lines, hlines, hdef, hrefs⟩

end Difuzz.Mutator
