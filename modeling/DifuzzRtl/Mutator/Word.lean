/-
  File:      DifuzzRtl/Mutator/Word.lean
  Subject:   The words of a test program (src/word.py): a label and the instructions under it.

  * `Word` -- before and after it is populated; the texts of a populated word are `retInsts`.
  * `populate`, `resetLabel`, `repopLabel` -- the operands are filled in; the word is moved to
    another label; the labels it refers to are moved.
  * `Word.Prints` -- the columns of a populated word: eight for the label, the rest is the body.
    What each operation makes of the bodies: `populate_prints`, `resetLabel_prints`,
    `repopInst_plain`, `repopInst_data`, `repopInst_ref`.
-/
import DifuzzRtl.Lib.Collections
import DifuzzRtl.Lib.Text
import DifuzzRtl.Mutator.Random

namespace Difuzz.Mutator

open Text

/-! ## 1. Words -/

inductive Tpe where
  | none
  | cfJ
  | cfBr
  | cfRet
  | memR
  | memW
  | csr
  deriving DecidableEq, Repr

/-- `PREFIX`, `MAIN` and `SUFFIX`. -/
inductive Part where
  | prefixPart
  | mainPart
  | suffixPart
  deriving DecidableEq, Repr

def Part.text : Part → Text
  | .prefixPart => ['_', 'p']
  | .mainPart => ['_', 'l']
  | .suffixPart => ['_', 's']

structure Word where
  label : Int
  insts : List Text
  tpe : Tpe := .none
  xregs : List Text := []
  fregs : List Text := []
  imms : List (Text × Nat) := []
  symbols : List Text := []
  populated : Bool := false
  labelPrefix : Text := []
  retInsts : List Text := []
  deriving DecidableEq, Repr

namespace Word

def lenInsts (w : Word) : Nat := w.insts.length

def operands (w : Word) : List Text := w.xregs ++ w.fregs ++ w.imms.map (·.1) ++ w.symbols

def popInst (inst : Text) (opvals : Dict Text Text) : Text :=
  opvals.entries.foldl (fun i e => replace e.1 e.2 i) inst

def labelText (w : Word) (part : Part) : Text :=
  part.text ++ w.labelPrefix ++ intText w.label ++ [':']

def populate (w : Word) (opvals : Dict Text Text) (part : Part) : Except Exn Word :=
  if ∀ op ∈ w.operands, opvals.contains op = true then
    match w.insts.map (popInst · opvals) with
    | [] => .error .index
    | i :: is =>
        .ok { w with
          populated := true
          retInsts := (ljust 8 (w.labelText part) ++ ljust 42 i) ::
            is.map fun i => ljust 8 [] ++ ljust 42 i }
  else .error .assertion

/-- The word under its new label, and the pair of its labels if it is populated. -/
def resetLabel (w : Word) (newLabel : Int) (part : Part) : Except Exn (Word × Option (Int × Int)) :=
  if w.populated then
    match w.retInsts with
    | [] => .error .index
    | i :: is =>
        .ok ({ w with
          label := newLabel
          retInsts :=
            (ljust 8 ({ w with label := newLabel }.labelText part) ++ ljust 42 (i.drop 8)) :: is },
          some (w.label, newLabel))
  else .ok ({ w with label := newLabel }, none)

/-- One line of `repop_label`. The default of `label_map.get` is drawn whether it is used or not. -/
def repopInst (w : Word) (labelMap : Dict Int Int) (maxLabel : Int) (part : Part) (inst : Text) :
    Rand Text :=
  match split ([',', ' '] ++ part.text) inst with
  | _ :: t :: _ =>
      match pyInt 10 ((split [' '] t).headD []) with
      | none => throw .value
      | some old => do
          let r ← randint (w.label + 1) maxLabel
          let new := labelMap.getD old r
          let newInst := replace (part.text ++ w.labelPrefix ++ intText old)
            (part.text ++ w.labelPrefix ++ intText new) (inst.drop 8)
          return ljust 8 (inst.take 8) ++ ljust 50 newInst
  | _ => return inst

def repopLabel (w : Word) (labelMap : Dict Int Int) (maxLabel : Int) (part : Part) : Rand Word := do
  if w.populated then
    return { w with retInsts := ← w.retInsts.mapM (w.repopInst labelMap maxLabel part) }
  else return w

def getInsts (w : Word) : Except Exn (List Text) :=
  if w.populated then .ok w.retInsts else .error .assertion

end Word

/-! ## 2. The columns of a populated word -/

/-- The eight columns of a label. -/
def labelCol (part : Part) (label : Int) : Text := ljust 8 (part.text ++ intText label ++ [':'])

/-- The lines of a word: the label stands in front of the first body, blanks before the others. -/
def wordLines (col : Text) : List Text → List Text
  | [] => []
  | b :: bs => (col ++ b) :: bs.map (ljust 8 [] ++ ·)

/-- A populated word with these bodies. -/
structure Word.Prints (w : Word) (part : Part) (bodies : List Text) : Prop where
  populated : w.populated = true
  noPrefix : w.labelPrefix = []
  nonempty : bodies ≠ []
  lines : w.retInsts = wordLines (labelCol part w.label) bodies

theorem length_labelCol {part : Part} {n : Nat} (h : n < 100000) :
    (labelCol part n).length = 8 := by
  have hd : (digits 10 n).length ≤ 5 := (Nat.length_toDigits_le_iff (by decide) (by decide)).mpr h
  have hp : part.text.length = 2 := by cases part <;> rfl
  rw [labelCol, length_ljust, List.length_append, List.length_append, hp]
  show max 8 (2 + (digits 10 n).length + 1) = 8
  omega

namespace Word

variable {w w' : Word} {part : Part} {bodies : List Text}

theorem labelText_eq (h : w.labelPrefix = []) :
    ljust 8 (w.labelText part) = labelCol part w.label := by
  rw [labelText, h, List.append_nil, labelCol]

/-- **Populating** fills the operands in and leaves the rest of the word. -/
theorem populate_prints {opvals : Dict Text Text} (h : w.populate opvals part = .ok w')
    (hp : w.labelPrefix = []) :
    w'.Prints part (w.insts.map fun i => ljust 42 (popInst i opvals)) ∧
      w'.label = w.label ∧ w'.insts = w.insts ∧ w'.tpe = w.tpe := by
  unfold populate at h
  split at h
  · split at h
    · cases h
    · rename_i i is hi
      cases h
      have hm : w.insts.map (fun i => ljust 42 (popInst i opvals)) =
          ljust 42 i :: is.map (ljust 42) := by
        have := congrArg (List.map (ljust 42)) hi
        rw [List.map_map] at this
        exact this
      refine ⟨⟨rfl, hp, ?_, ?_⟩, rfl, rfl, rfl⟩
      · rw [hm]
        exact List.cons_ne_nil _ _
      · rw [hm, labelText_eq hp]
        show _ = _ :: List.map _ (List.map _ is)
        rw [List.map_map]
        rfl
  · cases h

theorem le_length_labelCol (part : Part) (label : Int) : 8 ≤ (labelCol part label).length := by
  rw [labelCol, length_ljust]
  exact Nat.le_max_left _ _

/-- Moving a populated word to another label: what a long label has in more than eight columns is taken
    for a part of the first body. -/
theorem resetLabel_lines (hw : w.Prints part bodies) (newLabel : Int) :
    ∃ w', w.resetLabel newLabel part = .ok (w', some (w.label, newLabel)) ∧
      w'.Prints part (ljust 42 ((labelCol part w.label).drop 8 ++ bodies.headD []) :: bodies.tail) ∧
      w'.label = newLabel ∧ w'.insts = w.insts ∧ w'.tpe = w.tpe := by
  obtain ⟨b, bs, rfl⟩ := List.exists_cons_of_ne_nil hw.nonempty
  have hlines := hw.lines
  rw [wordLines] at hlines
  refine ⟨{ w with
      label := newLabel
      retInsts := wordLines (labelCol part newLabel)
        (ljust 42 ((labelCol part w.label).drop 8 ++ b) :: bs) }, ?_,
    ⟨hw.populated, hw.noPrefix, List.cons_ne_nil _ _, rfl⟩, rfl, rfl, rfl⟩
  rw [resetLabel, if_pos hw.populated, hlines]
  dsimp only
  rw [List.drop_append_of_le_length (le_length_labelCol part w.label)]
  simp only [labelText, hw.noPrefix, List.append_nil]
  rfl

/-- **Moving a populated word to another label** pads its first body and leaves the others. -/
theorem resetLabel_prints (hw : w.Prints part bodies) (hl : (labelCol part w.label).length = 8)
    (newLabel : Int) :
    ∃ w', w.resetLabel newLabel part = .ok (w', some (w.label, newLabel)) ∧
      w'.Prints part (ljust 42 (bodies.headD []) :: bodies.tail) ∧
      w'.label = newLabel ∧ w'.insts = w.insts ∧ w'.tpe = w.tpe := by
  have h := resetLabel_lines hw newLabel
  rwa [List.drop_of_length_le (Nat.le_of_eq hl), List.nil_append] at h

theorem resetLabel_unpopulated (h : w.populated = false) (newLabel : Int) :
    w.resetLabel newLabel part = .ok ({ w with label := newLabel }, none) := by
  rw [resetLabel, if_neg (by rw [h]; decide)]

end Word

/-! ## 3. References -/

/-- A body that refers to a label: the reference is its last operand. -/
def refBody (part : Part) (a : Text) (k : Int) (blanks : Nat) : Text :=
  a ++ ([',', ' '] ++ part.text ++ (intText k ++ List.replicate blanks ' '))

/-- A body that refers to a data word. -/
def dataBody (a : Text) (i j : Nat) (blanks : Nat) : Text :=
  a ++ ([',', ' ', 'd', '_'] ++ digits 10 i ++ ['_'] ++ digits 10 j ++ List.replicate blanks ' ')

/-- A character that no label has. -/
theorem not_mem_labelCol {part : Part} {c : Char} {n : Nat} (hd : digitValue 10 c = none)
    (hc : c ∉ ['_', 'p', 'l', 's', ':', ' ']) : c ∉ labelCol part n := by
  intro h
  rcases List.mem_append.mp h with h | h
  · rcases List.mem_append.mp h with h | h
    · rcases List.mem_append.mp h with h | h
      · refine hc ?_
        cases part <;> revert h <;> simp [Part.text] <;> tauto
      · exact not_mem_digits hd n h
    · refine hc ?_
      rw [List.mem_singleton.mp h]
      decide
  · refine hc ?_
    rw [List.eq_of_mem_replicate h]
    decide

section Repop

variable {w : Word} {labelMap : Dict Int Int} {maxLabel : Int} {part : Part} {col : Text}

theorem part_text_eq (part : Part) : ∃ p, part.text = ['_', p] := by
  cases part <;> exact ⟨_, rfl⟩

/-- A body without an underscore is left as it is. -/
theorem repopInst_plain (hcol : ',' ∉ col) {b : Text} (hb : '_' ∉ b) :
    w.repopInst labelMap maxLabel part (col ++ b) = pure (col ++ b) := by
  obtain ⟨p, hp⟩ := part_text_eq part
  have hs : split ([',', ' '] ++ part.text) (col ++ b) = [col ++ b] := by
    rw [hp]
    show splitFrom (',' :: [' ', '_', p]) 0 [] (col ++ b) = _
    rw [splitFrom_pass hcol]
    show splitFrom ([',', ' '] ++ '_' :: [p]) 0 _ b = _
    rw [splitFrom_of_not_mem hb]
    simp
  rw [Word.repopInst, hs]

/-- The reference to a data word is not split off. -/
theorem split_dataBody (hcol : ',' ∉ col) {a : Text} (ha : '_' ∉ a) (i j blanks : Nat) :
    split ([',', ' '] ++ part.text) (col ++ dataBody a i j blanks) =
      [col ++ dataBody a i j blanks] := by
  obtain ⟨p, hp⟩ := part_text_eq part
  have hcomma : ',' ∉ '_' :: (digits 10 i ++ ['_'] ++ digits 10 j ++ List.replicate blanks ' ') := by
    have hd : ∀ n, ',' ∉ digits 10 n := not_mem_digits (by decide)
    simp [hd]
  have hbody : dataBody a i j blanks = (a ++ [',', ' ', 'd']) ++
      '_' :: (digits 10 i ++ ['_'] ++ digits 10 j ++ List.replicate blanks ' ') := by
    simp [dataBody]
  rw [hbody, hp]
  show splitFrom (',' :: [' ', '_', p]) 0 [] (col ++ _) = _
  rw [splitFrom_pass hcol]
  show splitFrom ([',', ' '] ++ '_' :: [p]) 0 _ _ = _
  rw [splitFrom_pass_mark (by decide) (by simp [ha])]
  · show splitFrom ([] ++ ',' :: [' ', '_', p]) 0 _ _ = _
    rw [splitFrom_of_not_mem hcomma]
    simp
  · intro h
    obtain ⟨r, hr⟩ := h
    have := congrArg List.getLast? hr
    simp at this

/-- A body that refers to a data word is left as it is. -/
theorem repopInst_data (hcol : ',' ∉ col) {a : Text} (ha : '_' ∉ a) (i j blanks : Nat) :
    w.repopInst labelMap maxLabel part (col ++ dataBody a i j blanks) =
      pure (col ++ dataBody a i j blanks) := by
  rw [Word.repopInst, split_dataBody hcol ha]

/-- **A reference is moved**: to where the map has it, or else to the number that was drawn. -/
theorem repopInst_ref (hcol : ',' ∉ col) (hlen : 8 ≤ col.length) (hund : '_' ∉ col.drop 8)
    (hpre : w.labelPrefix = []) {a : Text} (ha : '_' ∉ a) (k blanks : Nat) :
    w.repopInst labelMap maxLabel part (col ++ refBody part a k blanks) = (do
      let r ← randint (w.label + 1) maxLabel
      return col ++ ljust (58 - col.length) (refBody part a (labelMap.getD k r) blanks)) := by
  obtain ⟨p, hp⟩ := part_text_eq part
  have htail : '_' ∉ digits 10 k ++ List.replicate blanks ' ' := by
    have hd : '_' ∉ digits 10 k := not_mem_digits (by decide) k
    simp [hd]
  have hs : split ([',', ' '] ++ part.text) (col ++ refBody part a k blanks) =
      [col ++ a, digits 10 k ++ List.replicate blanks ' '] := by
    rw [refBody, hp]
    show splitFrom (',' :: [' ', '_', p]) 0 [] (col ++ _) = _
    rw [splitFrom_pass hcol]
    show splitFrom ([',', ' '] ++ '_' :: [p]) 0 _ _ = _
    rw [splitFrom_append_sep (by decide) ha]
    show _ :: split ([',', ' '] ++ '_' :: [p]) (digits 10 k ++ List.replicate blanks ' ') = _
    rw [split_of_not_mem htail]
    simp
  have hlab : (split [' '] (digits 10 k ++ List.replicate blanks ' ')).headD [] = digits 10 k := by
    have hsp : ' ' ∉ digits 10 k := not_mem_digits (by decide) k
    rw [List.headD_eq_head?_getD, head?_split_char, Option.getD_some]
    cases blanks with
    | zero =>
        rw [List.replicate_zero, List.append_nil, List.takeWhile_eq_self_iff]
        intro d hd
        simpa using fun e : d = ' ' => hsp (e ▸ hd)
    | succ n => exact takeWhile_mark hsp
  have hold : pyInt 10 (digits 10 k) = some (k : Int) := pyInt_intText k
  have hrep : ∀ new : Int, replace (part.text ++ [] ++ intText k) (part.text ++ [] ++ intText new)
      (col.drop 8 ++ refBody part a k blanks) = col.drop 8 ++ refBody part a new blanks := by
    intro new
    have hbl : '_' ∉ List.replicate blanks ' ' := by simp
    have h₁ : col.drop 8 ++ refBody part a k blanks = (col.drop 8 ++ a ++ [',', ' ']) ++
        ([] ++ '_' :: (p :: digits 10 k) ++ List.replicate blanks ' ') := by
      simp [refBody, hp, intText]
    rw [h₁, hp]
    show replace ([] ++ '_' :: (p :: digits 10 k)) _ _ = _
    rw [replace_append_self List.not_mem_nil (by simp [ha, hund]), replace_of_not_mem hbl]
    simp [refBody, hp]
  rw [Word.repopInst, hs]
  dsimp only
  rw [hlab, hold, hpre]
  have htake : (col ++ refBody part a k blanks).take 8 = col.take 8 :=
    List.take_append_of_le_length hlen
  have hdrop : (col ++ refBody part a k blanks).drop 8 = col.drop 8 ++ refBody part a k blanks :=
    List.drop_append_of_le_length hlen
  have hcol8 : ljust 8 (col.take 8) = col.take 8 := by simp [ljust, List.length_take, hlen]
  have hpad : ∀ u, col.take 8 ++ ljust 50 (col.drop 8 ++ u) = col ++ ljust (58 - col.length) u := by
    intro u
    have hcount : 50 - (col.drop 8 ++ u).length = 58 - col.length - u.length := by
      rw [List.length_append, List.length_drop]
      omega
    rw [ljust, ljust, hcount, List.append_assoc, ← List.append_assoc, List.take_append_drop]
  simp only [htake, hdrop, hrep, hcol8, hpad]

end Repop

end Difuzz.Mutator
