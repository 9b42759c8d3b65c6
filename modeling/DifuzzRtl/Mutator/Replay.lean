/-
  File:      DifuzzRtl/Mutator/Replay.lean
  Subject:   Replaying a saved test is replaying the test.

  The file is read by column: eight columns hold a label or blanks, the next forty-two the text,
  and the four before the line break the interrupt of the instruction. A line that `repop_label`
  has written is longer than fifty columns, but only by blanks.

  * `fileLine` -- a line of the file, and what the reader finds in each of its fields.
  * `readLines_word`, `readLines_part` -- the lines of one word, and of all words of a part.
  * `readSiminput_save` -- the round trip.
-/
import DifuzzRtl.Mutator.SimInput

namespace Difuzz.Mutator

open Text

/-! ## 1. One line -/

/-- What follows the text of a line of a part: the interrupt, in the main part. -/
def tailOf (part : Part) (i : Int) : Text := if part = .mainPart then formatInt 2 4 i else []

/-- A line of the file, for a line of a word and its interrupt. -/
def fileLine (part : Part) (inst : Text) (i : Int) : Text :=
  ljust 50 inst ++ (tailOf part i ++ ['\n'])

/-- The forty-two columns that are read of a body. -/
def cut (b : Text) : Text := (ljust 42 b).take 42

/-- An instruction text the format can hold. -/
structure TextOk (b : Text) : Prop where
  width : (rstrip b).length ≤ 42
  oneLine : OneLine b
  noData : contains ['d', 'a', 't', 'a', ':'] b = false

section Line

variable {part : Part} {col b : Text} {i : Int}

theorem fileLine_eq (hcol : col.length = 8) :
    fileLine part (col ++ b) i = col ++ (ljust 42 b ++ (tailOf part i ++ ['\n'])) := by
  rw [fileLine, show (50 : Nat) = 8 + 42 from rfl, ljust_append hcol, List.append_assoc]

theorem take_fileLine (hcol : col.length = 8) : (fileLine part (col ++ b) i).take 8 = col := by
  rw [fileLine_eq hcol, List.take_append_of_le_length (by omega), List.take_of_length_le (by omega)]

theorem slice_fileLine (hcol : col.length = 8) :
    slice 8 50 (fileLine part (col ++ b) i) = cut b := by
  have hl : 42 ≤ (ljust 42 b).length := by
    rw [length_ljust]
    omega
  rw [slice, fileLine_eq hcol, List.take_append, List.drop_append_of_le_length]
  · rw [hcol, List.take_of_length_le (by omega), List.drop_of_length_le (by omega), List.nil_append,
      List.take_append_of_le_length (by omega)]
    rfl
  · rw [List.length_take]
    omega

theorem rstrip_cut (h : (rstrip b).length ≤ 42) : rstrip (cut b) = rstrip b := by
  rw [cut, rstrip_take (by rwa [rstrip_ljust]), rstrip_ljust]

/-- The four columns before the line break. -/
theorem last_fileLine {inst : Text} (h : 0 ≤ i ∧ i ≤ 15) :
    slice ((fileLine .mainPart inst i).length - 5) ((fileLine .mainPart inst i).length - 1)
      (fileLine .mainPart inst i) = formatInt 2 4 i := by
  obtain ⟨n, rfl⟩ := Int.eq_ofNat_of_zero_le h.1
  have hl : (formatInt 2 4 (n : Int)).length = 4 :=
    length_formatInt (by decide) (by decide) (by omega)
  have hlen : (fileLine .mainPart inst n).length = (ljust 50 inst).length + 5 := by
    rw [fileLine, List.length_append, List.length_append, tailOf, if_pos rfl, hl]
    rfl
  rw [slice, hlen, fileLine, tailOf, if_pos rfl, ← List.append_assoc,
    List.take_append_of_le_length (by rw [List.length_append, hl]; omega),
    List.take_of_length_le (by rw [List.length_append, hl]; omega),
    List.drop_append_of_le_length (by omega), List.drop_of_length_le (by omega), List.nil_append]

theorem not_mem_tailOf {c : Char} (hc : digitValue 2 c = none) (h : 0 ≤ i) : c ∉ tailOf part i := by
  obtain ⟨n, rfl⟩ := Int.eq_ofNat_of_zero_le h
  have hd : AllDigits 2 (formatInt 2 4 (n : Int)) :=
    (allDigits_zeros (by decide) _).append (allDigits_digits (by decide) (by decide))
  unfold tailOf
  split
  · exact hd.not_mem hc
  · exact List.not_mem_nil

/-- The columns of a line that are no part of the text hold neither a `d` nor a colon: the mark of
    the data stands in the text or nowhere. -/
theorem contains_fileLine (hcol : col.length = 8) (hd : 'd' ∉ col) (hb : TextOk b) (hi : 0 ≤ i) :
    contains ['d', 'a', 't', 'a', ':'] (fileLine part (col ++ b) i) = false := by
  by_contra hc
  rw [Bool.not_eq_false, contains_iff, fileLine_eq hcol] at hc
  have h₁ := infix_of_not_mem_left hd hc
  rw [ljust, List.append_assoc] at h₁
  have hcolon : ':' ∉ List.replicate (42 - b.length) ' ' ++ (tailOf part i ++ ['\n']) := by
    have : ':' ∉ tailOf part i := not_mem_tailOf (by decide) hi
    simp [this]
  have h₂ : ['d', 'a', 't', 'a'] ++ [':'] <:+: b := infix_of_not_mem_right hcolon h₁
  have h₃ := contains_iff.mpr h₂
  rw [show (['d', 'a', 't', 'a'] ++ [':'] : Text) = ['d', 'a', 't', 'a', ':'] from rfl,
    hb.noData] at h₃
  exact absurd h₃ (by decide)

theorem partOf_labelCol {n : Nat} (h : n < 100000) :
    partOf (fileLine part (labelCol part n ++ b) i) = some part := by
  have ht : (fileLine part (labelCol part n ++ b) i).take 2 = part.text := by
    rw [fileLine_eq (length_labelCol h), labelCol, ljust]
    cases part <;> rfl
  rw [partOf]
  cases part <;> simp [ht, Part.text]

theorem partOf_blank : partOf (fileLine part (ljust 8 [] ++ b) i) = none := by
  have ht : (fileLine part (ljust 8 [] ++ b) i).take 2 = [' ', ' '] := by
    rw [fileLine_eq rfl]
    rfl
  rw [partOf, ht]
  decide

theorem readLabel_labelCol {n : Nat} (h : n < 100000) :
    readLabel (fileLine part (labelCol part n ++ b) i) = .ok (n : Int) := by
  have hcolon : ':' ∉ part.text ++ intText n := by
    have h₁ : ':' ∉ intText n := not_mem_digits (by decide) n
    have h₂ : ':' ∉ part.text := by cases part <;> decide
    simp [h₁, h₂]
  have hd : (part.text ++ intText n).drop 2 = intText n := by cases part <;> rfl
  rw [readLabel, take_fileLine (length_labelCol h), List.headD_eq_head?_getD, head?_split_char,
    Option.getD_some, labelCol, ljust, List.append_assoc, List.singleton_append,
    takeWhile_mark hcolon, hd, pyInt_intText]

end Line

/-! ## 2. Words -/

/-- What the interrupts of the lines of a part add to the list of interrupts. -/
def intsOf (part : Part) (is : List Int) : List Int := if part = .mainPart then is else []

/-- The reader has taken in the words of a part, with these labels and texts. -/
def Reading.take (st : Reading) (part : Part) (ts : List (Int × List Text)) (is : List Int) :
    Reading :=
  { st.setTuples (st.tuples part ++ ts) part with
    ints := st.ints ++ intsOf part is
    part := if ts = [] then st.part else some part }

/-- An interrupt of the file. -/
def IntOk (i : Int) : Prop := 0 ≤ i ∧ i ≤ 15

theorem readInt_fileLine {st : Reading} {part : Part} {inst : Text} {i : Int}
    (hp : st.part = some part) (hi : IntOk i) :
    readInt st (fileLine part inst i) = .ok { st with ints := st.ints ++ intsOf part [i] } := by
  by_cases hm : part = .mainPart
  · subst hm
    obtain ⟨n, rfl⟩ := Int.eq_ofNat_of_zero_le hi.1
    rw [readInt, if_pos hp, last_fileLine hi, pyInt_formatInt_nil (by decide) (by decide)]
    rfl
  · rw [readInt, if_neg, intsOf, if_neg hm, List.append_nil]
    rw [hp]
    exact fun e => hm (Option.some.inj e)

theorem Reading.take_take (st : Reading) (part : Part) (ts ts' : List (Int × List Text))
    (is js : List Int) :
    (st.take part ts is).take part ts' js = st.take part (ts ++ ts') (is ++ js) := by
  cases part <;> cases ts' <;> cases ts <;>
    simp [Reading.take, Reading.setTuples, Reading.tuples, intsOf]

/-- The first line of a word starts a new text. -/
theorem readLines_first {part : Part} {st : Reading} {n : Nat} {b : Text} {i : Int}
    (hn : n < 100000) (hb : TextOk b) (hi : IntOk i) (lines : List Text) :
    readLines st (fileLine part (labelCol part n ++ b) i :: lines) =
      readLines (st.take part [((n : Int), [cut b])] [i]) lines := by
  have hcol : (labelCol part n).length = 8 := length_labelCol hn
  have hd : 'd' ∉ labelCol part n := not_mem_labelCol (by decide) (by decide)
  have hinst : readInst st (fileLine part (labelCol part n ++ b) i) =
      .ok { st.setTuples (st.tuples part ++ [((n : Int), [cut b])]) part with part := some part } := by
    rw [readInst, partOf_labelCol hn]
    dsimp only
    rw [readLabel_labelCol hn, slice_fileLine hcol]
    rfl
  rw [readLines, contains_fileLine hcol hd hb hi.1, if_neg (by decide), hinst]
  show (readInt _ (fileLine part _ i) >>= fun st => readLines st lines) = _
  rw [readInt_fileLine rfl hi]
  cases part <;> rfl

/-- A later line of a word goes under its text. -/
theorem readLines_more {part : Part} {st : Reading} {l : Int} {insts : List Text} {is : List Int}
    {b : Text} {i : Int} (hb : TextOk b) (hi : IntOk i) (lines : List Text) :
    readLines (st.take part [(l, insts)] is) (fileLine part (ljust 8 [] ++ b) i :: lines) =
      readLines (st.take part [(l, insts ++ [cut b])] (is ++ [i])) lines := by
  have hlast : ∀ ts : List (Int × List Text), appendLast (ts ++ [(l, insts)]) (cut b) =
      .ok (ts ++ [(l, insts ++ [cut b])]) := by
    intro ts
    rw [appendLast, List.getLast?_concat, List.dropLast_concat]
  have hinst : readInst (st.take part [(l, insts)] is) (fileLine part (ljust 8 [] ++ b) i) =
      .ok (st.take part [(l, insts ++ [cut b])] is) := by
    rw [readInst, partOf_blank, slice_fileLine rfl]
    cases part <;> simp [Reading.take, Reading.setTuples, Reading.tuples, hlast]
  rw [readLines, contains_fileLine rfl (by decide) hb hi.1, if_neg (by decide), hinst]
  show (readInt _ (fileLine part _ i) >>= fun st => readLines st lines) = _
  rw [readInt_fileLine (by cases part <;> rfl) hi]
  cases part <;> simp [Reading.take, Reading.setTuples, Reading.tuples, intsOf] <;> rfl

theorem readLines_bodies {part : Part} {st : Reading} {l : Int} {insts : List Text} {is js : List Int}
    {bs : List Text} (hb : ∀ b ∈ bs, TextOk b) (hj : ∀ j ∈ js, IntOk j)
    (hlen : js.length = bs.length) (lines : List Text) :
    readLines (st.take part [(l, insts)] is)
        (List.zipWith (fileLine part) (bs.map (ljust 8 [] ++ ·)) js ++ lines) =
      readLines (st.take part [(l, insts ++ bs.map cut)] (is ++ js)) lines := by
  induction bs generalizing insts is js with
  | nil =>
      rw [List.eq_nil_of_length_eq_zero hlen]
      simp
  | cons b bs ih =>
      obtain ⟨j, js, rfl⟩ := List.exists_cons_of_length_eq_add_one hlen
      rw [List.map_cons, List.zipWith_cons_cons, List.cons_append,
        readLines_more (hb b List.mem_cons_self) (hj j List.mem_cons_self),
        ih (fun x hx => hb x (List.mem_cons_of_mem _ hx)) (fun x hx => hj x (List.mem_cons_of_mem _ hx))
          (by simpa using hlen)]
      simp

/-- A populated word the format can hold, with its bodies. -/
structure WordOk (part : Part) (w : Word) (bodies : List Text) : Prop where
  prints : w.Prints part bodies
  label : ∃ n : Nat, w.label = n ∧ n < 100000
  texts : ∀ b ∈ bodies, TextOk b

/-- **The lines of one word are read as one word.** -/
theorem readLines_word {part : Part} {st : Reading} {w : Word} {bodies : List Text} {is : List Int}
    (hw : WordOk part w bodies) (hi : ∀ i ∈ is, IntOk i) (hlen : is.length = w.retInsts.length)
    (lines : List Text) :
    readLines st (List.zipWith (fileLine part) w.retInsts is ++ lines) =
      readLines (st.take part [(w.label, bodies.map cut)] is) lines := by
  obtain ⟨n, hn, hlt⟩ := hw.label
  obtain ⟨b, bs, rfl⟩ := List.exists_cons_of_ne_nil hw.prints.nonempty
  rw [hw.prints.lines, wordLines, hn] at hlen ⊢
  obtain ⟨i, is, rfl⟩ := List.exists_cons_of_length_eq_add_one (by simpa using hlen)
  rw [List.zipWith_cons_cons, List.cons_append,
    readLines_first hlt (hw.texts b List.mem_cons_self) (hi i List.mem_cons_self),
    readLines_bodies (fun x hx => hw.texts x (List.mem_cons_of_mem _ hx))
      (fun x hx => hi x (List.mem_cons_of_mem _ hx)) (by simpa using hlen)]
  simp

/-- **The lines of a part are read as its words.** -/
theorem readLines_part {part : Part} {st : Reading} {ws : List (Word × List Text)} {is : List Int}
    (hw : ∀ w ∈ ws, WordOk part w.1 w.2) (hi : ∀ i ∈ is, IntOk i)
    (hlen : is.length = (ws.map (·.1.retInsts)).flatten.length) (lines : List Text) :
    readLines st (List.zipWith (fileLine part) (ws.map (·.1.retInsts)).flatten is ++ lines) =
      readLines (st.take part (ws.map fun w => (w.1.label, w.2.map cut)) is) lines := by
  induction ws generalizing st is with
  | nil =>
      rw [List.eq_nil_of_length_eq_zero hlen]
      cases part <;> simp [Reading.take, Reading.setTuples, Reading.tuples, intsOf]
  | cons w ws ih =>
      have hsplit : is = is.take w.1.retInsts.length ++ is.drop w.1.retInsts.length :=
        (List.take_append_drop _ _).symm
      rw [List.map_cons, List.flatten_cons, List.length_append] at hlen
      have htake : (is.take w.1.retInsts.length).length = w.1.retInsts.length := by
        rw [List.length_take]
        omega
      have hdrop : (is.drop w.1.retInsts.length).length = (ws.map (·.1.retInsts)).flatten.length := by
        rw [List.length_drop]
        omega
      rw [List.map_cons, List.flatten_cons, hsplit, List.zipWith_append htake.symm, List.append_assoc,
        readLines_word (hw w List.mem_cons_self) (fun x hx => hi x (List.mem_of_mem_take hx)) htake,
        ih (fun x hx => hw x (List.mem_cons_of_mem _ hx)) (fun x hx => hi x (List.mem_of_mem_drop hx))
          hdrop, Reading.take_take]
      rfl

/-! ## 3. Files -/

theorem oneLine_labelCol (part : Part) (n : Nat) : OneLine (labelCol part n) :=
  ⟨not_mem_labelCol (by decide) (by decide), not_mem_labelCol (by decide) (by decide)⟩

theorem isLine_fileLine {part : Part} {inst : Text} {i : Int} (h : OneLine inst) (hi : 0 ≤ i) :
    IsLine (fileLine part inst i) := by
  have ht : OneLine (tailOf part i) :=
    ⟨not_mem_tailOf (by decide) hi, not_mem_tailOf (by decide) hi⟩
  exact ⟨ljust 50 inst ++ tailOf part i, (h.ljust 50).append ht, by simp [fileLine]⟩

theorem WordOk.oneLine {part : Part} {w : Word} {bodies : List Text} (h : WordOk part w bodies) :
    ∀ l ∈ w.retInsts, OneLine l := by
  obtain ⟨n, hn, _⟩ := h.label
  obtain ⟨b, bs, rfl⟩ := List.exists_cons_of_ne_nil h.prints.nonempty
  rw [h.prints.lines, hn]
  intro l hl
  rcases List.mem_cons.mp hl with rfl | hl
  · exact (oneLine_labelCol part n).append (h.texts b List.mem_cons_self).oneLine
  · obtain ⟨c, hc, rfl⟩ := List.mem_map.mp hl
    exact OneLine.append (by decide) (h.texts c (List.mem_cons_of_mem _ hc)).oneLine

theorem getInsts_ok {part : Part} {ws : List (Word × List Text)}
    (h : ∀ w ∈ ws, WordOk part w.1 w.2) :
    SimInput.partInsts part (ws.map (·.1)) = .ok ((ws.map (·.1.retInsts)).flatten ++
      [part.text ++ intText (ws.map (·.1)).length ++ [':']]) := by
  have hget : ∀ w ∈ ws.map (·.1), w.getInsts = .ok w.retInsts := by
    intro w hw
    obtain ⟨x, hx, rfl⟩ := List.mem_map.mp hw
    rw [Word.getInsts, if_pos (h x hx).prints.populated]
  rw [SimInput.partInsts, Except.mapM_eq hget, List.map_map]
  rfl

/-- The words that are built from what was read print the same texts, up to blanks at the end. -/
structure SameWord (w w' : Word) : Prop where
  populated : w'.populated = true
  label : w'.label = w.label
  texts : w'.retInsts.map rstrip = w.retInsts.map rstrip

theorem populate_read {part : Part} {w : Word} {bodies : List Text} (h : WordOk part w bodies) :
    ∃ w', Word.populate { label := w.label, insts := bodies.map cut } Dict.empty part = .ok w' ∧
      SameWord w w' := by
  obtain ⟨b, bs, rfl⟩ := List.exists_cons_of_ne_nil h.prints.nonempty
  refine ⟨_, rfl, rfl, rfl, ?_⟩
  have hcut : ∀ c ∈ b :: bs, rstrip (ljust 42 (cut c)) = rstrip c := by
    intro c hc
    rw [rstrip_ljust, rstrip_cut (h.texts c hc).width]
  rw [h.prints.lines]
  simp only [wordLines, List.map_cons, List.map_map, List.cons.injEq]
  constructor
  · show rstrip (ljust 8 (part.text ++ [] ++ intText w.label ++ [':']) ++ ljust 42 (cut b)) = _
    rw [List.append_nil]
    exact rstrip_append_congr (hcut b List.mem_cons_self) _
  · refine List.map_congr_left fun c hc => ?_
    exact rstrip_append_congr (hcut c (List.mem_cons_of_mem _ hc)) _

theorem tuplesToWords_read {part : Part} {ws : List (Word × List Text)}
    (h : ∀ w ∈ ws, WordOk part w.1 w.2) :
    ∃ ws', tuplesToWords (ws.map fun w => (w.1.label, w.2.map cut)) part = .ok ws' ∧
      List.Forall₂ SameWord (ws.map (·.1)) ws' := by
  unfold tuplesToWords
  rw [List.mapM_map]
  simp only [List.forall₂_map_left_iff]
  exact Except.mapM_ok fun w hw => populate_read (h w hw)

theorem readData_saved {data : List Int} (h : ∀ d ∈ data, 0 ≤ d) :
    readData (data.map fun d => formatInt 16 16 d ++ ['\n']) = .ok data := by
  unfold readData
  rw [List.mapM_map]
  refine (Except.mapM_eq (g := id) fun d hd => ?_).trans (by rw [List.map_id])
  obtain ⟨n, rfl⟩ := Int.eq_ofNat_of_zero_le (h d hd)
  have hread := pyInt_formatInt (b := 16) (by decide) (by decide) 16 n
    (show ∀ c ∈ ['\n'], isSpace c = true by decide)
  simp only [Function.comp_apply, hread]
  rfl

/-- The words of a part as the format can hold them: labels `0 .. n - 1` in order. -/
structure PartOk (part : Part) (ws : List Word) : Prop where
  labels : ws.map (·.label) = (List.range ws.length).map Int.ofNat
  small : ws.length ≤ 100000
  texts : ∀ w ∈ ws, ∃ bodies, w.Prints part bodies ∧ ∀ b ∈ bodies, TextOk b

theorem PartOk.wordOk {part : Part} {ws : List Word} (h : PartOk part ws) {w : Word} (hw : w ∈ ws) :
    ∃ bodies, WordOk part w bodies := by
  obtain ⟨bodies, hp, ht⟩ := h.texts w hw
  refine ⟨bodies, hp, ?_, ht⟩
  have hl : w.label ∈ (List.range ws.length).map Int.ofNat := h.labels ▸ List.mem_map_of_mem hw
  obtain ⟨n, hn, hln⟩ := List.mem_map.mp hl
  exact ⟨n, hln.symm, lt_of_lt_of_le (List.mem_range.mp hn) h.small⟩

theorem exists_bodies {P : Word → List Text → Prop} {ws : List Word} (h : ∀ w ∈ ws, ∃ bs, P w bs) :
    ∃ wbs : List (Word × List Text), wbs.map (·.1) = ws ∧ ∀ x ∈ wbs, P x.1 x.2 := by
  induction ws with
  | nil => exact ⟨[], rfl, fun x hx => (nomatch hx)⟩
  | cons w ws ih =>
      obtain ⟨bs, hbs⟩ := h w List.mem_cons_self
      obtain ⟨wbs, rfl, hall⟩ := ih fun x hx => h x (List.mem_cons_of_mem _ hx)
      refine ⟨(w, bs) :: wbs, rfl, fun x hx => ?_⟩
      rcases List.mem_cons.mp hx with rfl | hx
      · exact hbs
      · exact hall x hx

/-- An input and its data, as `save` is given them. -/
structure Saveable (s : SimInput) (data : List Int) : Prop where
  prefixOk : PartOk .prefixPart s.prefixWords
  mainOk : PartOk .mainPart s.words
  suffixOk : PartOk .suffixPart s.suffixWords
  oneInt : s.ints.length = (s.words.map (·.retInsts)).flatten.length
  ints : ∀ i ∈ s.ints, 0 ≤ i ∧ i ≤ 15
  dataNonempty : data ≠ []
  data : ∀ d ∈ data, 0 ≤ d ∧ d < 2 ^ 64

/-- The lines of one part of the file. -/
def partLines (part : Part) (ws : List Word) (is : List Int) : List Text :=
  List.zipWith (fileLine part) (ws.map (·.retInsts)).flatten is

/-- The part has no interrupts: zeros stand for them. -/
def noInts (ws : List Word) : List Int := List.replicate (ws.map (·.retInsts)).flatten.length 0

/-- The lines of the file. -/
def savedLines (s : SimInput) (data : List Int) : List Text :=
  (s.template.name ++ ['\n']) :: ['\n'] ::
    (partLines .prefixPart s.prefixWords (noInts s.prefixWords) ++
      (partLines .mainPart s.words s.ints ++
        (partLines .suffixPart s.suffixWords (noInts s.suffixWords) ++
          (['d', 'a', 't', 'a', ':', '\n'] :: data.map fun d => formatInt 16 16 d ++ ['\n']))))

theorem partLines_noInts {part : Part} (hp : part ≠ .mainPart) (ws : List Word) :
    partLines part ws (noInts ws) = (ws.map (·.retInsts)).flatten.map fun i => ljust 50 i ++ ['\n'] := by
  unfold partLines noInts
  generalize (ws.map (·.retInsts)).flatten = insts
  induction insts with
  | nil => rfl
  | cons i insts ih =>
      rw [List.length_cons, List.replicate_succ, List.zipWith_cons_cons, ih, fileLine, tailOf,
        if_neg hp]
      rfl

theorem partInsts_ok {part : Part} {ws : List Word} (h : PartOk part ws) :
    SimInput.partInsts part ws = .ok ((ws.map (·.retInsts)).flatten ++
      [part.text ++ intText ws.length ++ [':']]) := by
  obtain ⟨wbs, rfl, hw⟩ := exists_bodies fun w hw => h.wordOk hw
  rw [getInsts_ok hw, List.map_map]
  rfl

theorem zip_concat {α β : Type} {l : List α} {r : List β} (h : l.length = r.length) (x : α) :
    (l ++ [x]).zip r = l.zip r := by
  have h' : (l ++ [x]).zip (r ++ []) = l.zip r ++ [x].zip [] := List.zip_append h
  rwa [List.append_nil, List.zip_nil_right, List.append_nil] at h'

/-- The label after the last word of each part is not saved. -/
theorem save_eq {s : SimInput} {data : List Int} (h : Saveable s data) :
    s.save data = .ok (savedLines s data).flatten := by
  have hmain : ((((s.words.map (·.retInsts)).flatten ++
      [Part.mainPart.text ++ intText s.words.length ++ [':']]).zip s.ints).map
        fun e => ljust 50 e.1 ++ formatInt 2 4 e.2 ++ ['\n']) = partLines .mainPart s.words s.ints := by
    rw [zip_concat h.oneInt.symm, List.zip, List.map_zipWith, partLines]
    refine congrArg (fun f => List.zipWith f _ _) (funext fun i => funext fun n => ?_)
    simp [fileLine, tailOf]
  rw [SimInput.save, SimInput.getPrefix, SimInput.getInsts, SimInput.getSuffix,
    partInsts_ok h.prefixOk, partInsts_ok h.mainOk, partInsts_ok h.suffixOk]
  show Except.ok _ = _
  rw [List.dropLast_concat, List.dropLast_concat, hmain, if_neg h.dataNonempty, savedLines,
    partLines_noInts (by decide), partLines_noInts (by decide)]
  simp

theorem isLine_partLines {part : Part} {ws : List Word} {is : List Int} (h : PartOk part ws)
    (hi : ∀ i ∈ is, 0 ≤ i) : ∀ l ∈ partLines part ws is, IsLine l := by
  intro l hl
  unfold partLines at hl
  rw [← List.map_uncurry_zip_eq_zipWith] at hl
  obtain ⟨⟨inst, i⟩, hx, rfl⟩ := List.mem_map.mp hl
  obtain ⟨hinst, hi'⟩ := List.of_mem_zip hx
  obtain ⟨insts, hinsts, hmem⟩ := List.mem_flatten.mp hinst
  obtain ⟨w, hw, rfl⟩ := List.mem_map.mp hinsts
  obtain ⟨bodies, hwb⟩ := h.wordOk hw
  exact isLine_fileLine (hwb.oneLine inst hmem) (hi i hi')

theorem isLine_savedLines {s : SimInput} {data : List Int} (h : Saveable s data) :
    ∀ l ∈ savedLines s data, IsLine l := by
  have h0 : ∀ ws, ∀ i ∈ noInts ws, (0 : Int) ≤ i := fun ws i hi => by
    rw [List.eq_of_mem_replicate hi]
  intro l hl
  rcases List.mem_cons.mp hl with rfl | hl
  · exact ⟨s.template.name, by cases s.template <;> decide, rfl⟩
  rcases List.mem_cons.mp hl with rfl | hl
  · exact ⟨[], by decide, rfl⟩
  rcases List.mem_append.mp hl with hl | hl
  · exact isLine_partLines h.prefixOk (h0 _) l hl
  rcases List.mem_append.mp hl with hl | hl
  · exact isLine_partLines h.mainOk (fun i hi => (h.ints i hi).1) l hl
  rcases List.mem_append.mp hl with hl | hl
  · exact isLine_partLines h.suffixOk (h0 _) l hl
  rcases List.mem_cons.mp hl with rfl | hl
  · exact ⟨['d', 'a', 't', 'a', ':'], by decide, rfl⟩
  · obtain ⟨d, hd, rfl⟩ := List.mem_map.mp hl
    obtain ⟨n, rfl⟩ := Int.eq_ofNat_of_zero_le (h.data d hd).1
    have hdig : AllDigits 16 (formatInt 16 16 (n : Int)) :=
      (allDigits_zeros (by decide) _).append (allDigits_digits (by decide) (by decide))
    exact ⟨_, ⟨hdig.not_mem (by decide), hdig.not_mem (by decide)⟩, rfl⟩

theorem readLines_partLines {part : Part} {ws : List Word} {is : List Int}
    (h : PartOk part ws) (hi : ∀ i ∈ is, IntOk i)
    (hlen : is.length = (ws.map (·.retInsts)).flatten.length) :
    ∃ ts, (∀ st lines, readLines st (partLines part ws is ++ lines) =
        readLines (Reading.take st part ts is) lines) ∧
      ∃ ws', tuplesToWords ts part = .ok ws' ∧ List.Forall₂ SameWord ws ws' := by
  obtain ⟨wbs, rfl, hw⟩ := exists_bodies fun w hw => h.wordOk hw
  rw [List.map_map] at hlen
  refine ⟨_, fun st lines => ?_, tuplesToWords_read hw⟩
  rw [partLines, List.map_map]
  exact readLines_part hw hi hlen lines

theorem intOk_noInts (ws : List Word) : ∀ i ∈ noInts ws, IntOk i := by
  intro i hi
  rw [List.eq_of_mem_replicate hi]
  exact ⟨by decide, by decide⟩

/-- A full table gives up its oldest seed, another one the next number: with room for one seed there
    is always one to store under. -/
theorem takeSeed_ok {m : RvMutator} (h : 1 ≤ m.maxData) : ∃ seed seeds, m.takeSeed = .ok (seed, seeds) := by
  unfold RvMutator.takeSeed
  split
  · rename_i hl
    split
    · rename_i hs
      rw [hs] at hl
      exact absurd hl (by rw [List.length_nil]; omega)
    · exact ⟨_, _, rfl⟩
  · exact ⟨_, _, rfl⟩

theorem addData_ok {m : RvMutator} (h : 1 ≤ m.maxData) {data : List Int} (hd : data ≠ [])
    (world : World) :
    ∃ seed m', m.addData data world = .ok ((seed, m'), world) ∧ m'.getData seed = .ok data := by
  obtain ⟨seed, seeds, hs⟩ := takeSeed_ok h
  refine ⟨seed, { m with
    randomData := m.randomData.set seed data
    dataSeeds := seeds ++ [seed] }, ?_, ?_⟩
  · rw [RvMutator.addData, hs, RvMutator.dataFor, if_pos hd]
    rfl
  · simp [RvMutator.getData]

/-- The lines of the file are read back as the input and its data. -/
theorem readSiminput_savedLines {s : SimInput} {data : List Int} (h : Saveable s data) {m : RvMutator}
    (hm : 1 ≤ m.maxData) (world : World) :
    ∃ s' assertIntr m', m.readSiminput (savedLines s data).flatten world =
        .ok (((s', data, assertIntr), m'), world) ∧
      s'.template = s.template ∧
      List.Forall₂ SameWord s.prefixWords s'.prefixWords ∧
      List.Forall₂ SameWord s.words s'.words ∧
      List.Forall₂ SameWord s.suffixWords s'.suffixWords ∧
      s'.ints = s.ints ∧
      (assertIntr = true ↔ ∃ i ∈ s.ints, i ≠ 0) := by
  obtain ⟨ts₁, hr₁, ws₁, ht₁, hs₁⟩ := readLines_partLines h.prefixOk
    (intOk_noInts s.prefixWords) (by simp [noInts])
  obtain ⟨ts₂, hr₂, ws₂, ht₂, hs₂⟩ := readLines_partLines h.mainOk h.ints h.oneInt
  obtain ⟨ts₃, hr₃, ws₃, ht₃, hs₃⟩ := readLines_partLines h.suffixOk
    (intOk_noInts s.suffixWords) (by simp [noInts])
  obtain ⟨seed, m', ha, hg⟩ := addData_ok hm h.dataNonempty world
  refine ⟨{
    prefixWords := ws₁
    words := ws₂
    suffixWords := ws₃
    ints := s.ints
    dataSeed := seed
    template := s.template }, s.ints.any (· ≠ 0), m', ?_, rfl, hs₁, hs₂, hs₃, rfl, by simp⟩
  have hdata : ∀ st lines, readLines st (['d', 'a', 't', 'a', ':', '\n'] :: lines) =
      (readData lines >>= fun d => .ok ({ st with part := none }, d)) := fun st lines => rfl
  have hread : readLines {} ((savedLines s data).drop 2) =
      .ok ({ ints := s.ints, prefixTuples := ts₁, wordTuples := ts₂, suffixTuples := ts₃ }, data) := by
    show readLines {} (_ ++ (_ ++ (_ ++ (_ :: _)))) = _
    rw [hr₁, hr₂, hr₃, hdata, readData_saved fun d hd => (h.data d hd).1]
    show Except.ok (_, data) = _
    simp [Reading.take, Reading.setTuples, Reading.tuples, intsOf]
  have htemp : templateIndex ((split ['\n'] (s.template.name ++ ['\n'])).headD []) =
      .ok s.template := by
    cases s.template <;> rfl
  rw [RvMutator.readSiminput, readlines_flatten (isLine_savedLines h)]
  refine StateT.bind_ok.mpr ⟨_, world, lift_ok.mpr ⟨htemp, rfl⟩, ?_⟩
  refine StateT.bind_ok.mpr ⟨_, world, lift_ok.mpr ⟨hread, rfl⟩, ?_⟩
  refine StateT.bind_ok.mpr ⟨_, world, lift_ok.mpr ⟨ht₁, rfl⟩, ?_⟩
  refine StateT.bind_ok.mpr ⟨_, world, lift_ok.mpr ⟨ht₂, rfl⟩, ?_⟩
  refine StateT.bind_ok.mpr ⟨_, world, lift_ok.mpr ⟨ht₃, rfl⟩, ?_⟩
  refine StateT.bind_ok.mpr ⟨_, world, ha, ?_⟩
  exact StateT.bind_ok.mpr ⟨_, world, lift_ok.mpr ⟨hg, rfl⟩, rfl⟩

/-- **Replaying a saved test is replaying the test.** The file that `save` writes is read back, in
    whatever state the mutator is: the same template, the same labels and texts up to blanks at
    their ends, the same interrupts, and the data that was saved. -/
theorem readSiminput_save (s : SimInput) (data : List Int) (h : Saveable s data) :
    ∃ file, s.save data = .ok file ∧
      ∀ (m : RvMutator) (world : World), 1 ≤ m.maxData →
        ∃ s' assertIntr m', m.readSiminput file world = .ok (((s', data, assertIntr), m'), world) ∧
          s'.template = s.template ∧
          List.Forall₂ SameWord s.prefixWords s'.prefixWords ∧
          List.Forall₂ SameWord s.words s'.words ∧
          List.Forall₂ SameWord s.suffixWords s'.suffixWords ∧
          s'.ints = s.ints ∧
          (assertIntr = true ↔ ∃ i ∈ s.ints, i ≠ 0) :=
  ⟨_, save_eq h, fun _ world hm => readSiminput_savedLines h hm world⟩

/-- A jump that was moved, so that its line has 58 columns, and a word of two instructions. -/
def paddedInput : SimInput where
  prefixWords := []
  words :=
    [{ label := 0, insts := ["jal xreg0, symbol".toList], tpe := .cfJ, populated := true,
       retInsts := wordLines (labelCol .mainPart 0) [ljust 50 "jal x1, _l2".toList] },
     { label := 1, insts := ["la xreg1, symbol".toList, "lw xreg0, imm6(xreg1)".toList],
       tpe := .memR, populated := true,
       retInsts := wordLines (labelCol .mainPart 1)
         [ljust 42 "la x3, d_1_4".toList, ljust 42 "lw x5, -4(x3)".toList] }]
  suffixWords := []
  ints := [0, 5, 0]
  dataSeed := 3
  template := .pt

theorem paddedInput_saveable : Saveable paddedInput [7, 0xFFFFFFFFFFFFFFFF] := by
  refine ⟨⟨rfl, by decide, by simp [paddedInput]⟩, ⟨by decide, by decide, ?_⟩,
    ⟨rfl, by decide, by simp [paddedInput]⟩, by decide, by decide, by decide, by decide⟩
  intro w hw
  simp only [paddedInput, List.mem_cons, List.not_mem_nil, or_false] at hw
  rcases hw with rfl | rfl
  · refine ⟨[ljust 50 "jal x1, _l2".toList], ⟨rfl, rfl, by simp, rfl⟩, ?_⟩
    intro b hb
    rw [List.mem_singleton.mp hb]
    exact ⟨by decide, by decide, by decide⟩
  · refine ⟨[ljust 42 "la x3, d_1_4".toList, ljust 42 "lw x5, -4(x3)".toList],
      ⟨rfl, rfl, by simp, rfl⟩, ?_⟩
    intro b hb
    simp only [List.mem_cons, List.not_mem_nil, or_false] at hb
    rcases hb with rfl | rfl
    · exact ⟨by decide, by decide, by decide⟩
    · exact ⟨by decide, by decide, by decide⟩

theorem readSiminput_save_padded :
    ∃ file s' m', paddedInput.save [7, 0xFFFFFFFFFFFFFFFF] = .ok file ∧
      (RvMutator.new 1 1).readSiminput file ⟨[], none, none⟩ =
        .ok (((s', [7, 0xFFFFFFFFFFFFFFFF], true), m'), ⟨[], none, none⟩) ∧
      s'.ints = [0, 5, 0] ∧ List.Forall₂ SameWord paddedInput.words s'.words := by
  obtain ⟨file, hf, h⟩ := readSiminput_save paddedInput _ paddedInput_saveable
  obtain ⟨s', b, m', hr, -, -, hw, -, hi, hb⟩ := h (RvMutator.new 1 1) ⟨[], none, none⟩ (by decide)
  have hb' : b = true := hb.mpr (by decide)
  exact ⟨file, s', m', hf, hb' ▸ hr, hi, hw⟩

end Difuzz.Mutator
