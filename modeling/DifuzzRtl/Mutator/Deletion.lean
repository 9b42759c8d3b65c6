/-
  File:      DifuzzRtl/Mutator/Deletion.lean
  Subject:   Words that are `nop` are deleted (`rvMutator.delete_nop`), and the references of the others.

  `reset_labels` moves a reference through a map that has the words that are left. A reference to any
  other word is drawn at random.

  * `RvMutator.deleteNop` -- the code.
  * `readLine`, `SimInput.program` -- the blocks of a part, read from the texts of the lines.
  * `Deleted` -- what the deletion should do; `Resolved` -- when no reference is left to chance.
  * `Moves`, `resets` -- a line before and after, and both loops of `reset_labels`, for whatever is
    said of the results.
  * `deleteNop_iff` -- for every input and all random choices.
-/
import DifuzzRtl.Lib.Blocks
import DifuzzRtl.Mutator.Masking
import DifuzzRtl.Mutator.Relabel

namespace Difuzz.Mutator

open Text Blocks

/-! ## 1. The code -/

/-- The words with other instructions than one `nop`. -/
def survivors (target : List Word) : List Word := target.filter (·.insts != [nop])

/-- The interrupts of these words, from the position `k` on. -/
def keptInts (ints : List Int) : Nat → List Word → List Int
  | _, [] => []
  | k, word :: words =>
      (if word.insts ≠ [nop] then (ints.drop k).take word.lenInsts else []) ++
        keptInts ints (k + word.lenInsts) words

def RvMutator.deleteNop (m : RvMutator) (s : SimInput) : Rand (SimInput × List Int) := do
  let prefixWords ← resetLabels (survivors s.prefixWords) .prefixPart
  let words ← resetLabels (survivors s.words) .mainPart
  let suffixWords ← resetLabels (survivors s.suffixWords) .suffixPart
  let data ← lift (m.getData s.dataSeed)
  return ({ s with prefixWords, words, suffixWords, ints := keptInts s.ints 0 s.words }, data)

/-! ## 2. Programs -/

/-- The instruction of a line: behind its label, if there is one. -/
def unlabelled (line : Text) : Text :=
  if line.head? = some ' ' then line else (line.dropWhile (· ≠ ':')).tail

/-- An instruction without the blanks around it, and the label of its part that is its last operand. -/
def readBody (part : Part) (b : Text) : Text × Option Nat :=
  match split ([',', ' '] ++ part.text) b with
  | [a, d] => (strip a, digitsValue 10 0 (strip d))
  | _ => (strip b, none)

def readLine (part : Part) (line : Text) : Text × Option Nat := readBody part (unlabelled line)

def Word.block (part : Part) (w : Word) : Block Text :=
  ⟨w.insts == [nop], w.retInsts.map (readLine part)⟩

/-- The blocks of a part. -/
def SimInput.program (s : SimInput) (part : Part) : List (Block Text) := (s.part part).map (Word.block part)

/-- Every word has its place as its label, and its lines refer to labels or data words if at all. -/
def SimInput.Labelled (s : SimInput) : Prop :=
  ∀ (part : Part) (i : Nat) (w : Word), (s.part part)[i]? = some w →
    w.label = i ∧ w.Lines part fun _ => True

/-! ## 3. What the deletion should do -/

/-- The program without the words that are `nop`: references go to the first word that is left, or to
    the end; everything else is as it was. -/
structure Deleted (s r : SimInput) : Prop where
  program : ∀ part, r.program part = delete (s.program part)
  labels : ∀ (part : Part) (i : Nat) (w : Word), (r.part part)[i]? = some w → w.label = i
  slices : ∀ (k : Nat) (w : Word), s.words[k]? = some w → w.insts ≠ [nop] →
    r.slices[rank (s.program .mainPart) k]? = s.slices[k]?
  visits : ∀ part choose k v, Visits (s.program part) choose k v ↔
    Visits (r.program part) choose (rank (s.program part) k) v
  dataSeed : r.dataSeed = s.dataSeed
  template : r.template = s.template

/-- A word that is left. -/
def Left (words : List Word) (k : Nat) : Prop := ∃ w : Word, words[k]? = some w ∧ w.insts ≠ [nop]

/-- **No reference is left to chance**: the label of each word that is left fits into its columns, and
    each of its references is to a word that is left, or is one of the last such word to a later
    word. -/
def Resolved (s : SimInput) (part : Part) : Prop :=
  ∀ (i : Nat) (w : Word), (s.part part)[i]? = some w → w.insts ≠ [nop] → i < 100000 ∧
    ∀ line ∈ w.retInsts, ∀ k, (readLine part line).2 = some k →
      Left (s.part part) k ∨ (i < k ∧ ∀ j, i < j → ¬ Left (s.part part) j)

/-! ## 4. Texts -/

/-- What a line refers to, as in `Body`; the text before it can be anything without an underscore. -/
inductive Ending (part : Part) : Text → Prop where
  | plain {b : Text} (h : '_' ∉ b) : Ending part b
  | ref {a : Text} (k blanks : Nat) (h : '_' ∉ a) : Ending part (refBody part a k blanks)
  | data {a : Text} (i j blanks : Nat) (h : '_' ∉ a) : Ending part (dataBody a i j blanks)

/-- A line before and after its reference was moved. -/
inductive Moves (part : Part) (g : Nat → Nat) : Text → Text → Prop where
  | plain {b : Text} (h : '_' ∉ b) : Moves part g b b
  | ref {a : Text} (k blanks n : Nat) (h : '_' ∉ a) :
      Moves part g (refBody part a k blanks) (ljust n (refBody part a (g k : Nat) blanks))
  | data {a : Text} (i j blanks : Nat) (h : '_' ∉ a) :
      Moves part g (dataBody a i j blanks) (dataBody a i j blanks)

section Ending

variable {part : Part} {a b c x : Text} {g : Nat → Nat}

theorem Body.ending {R : Nat → Prop} (h : Body part R b) : Ending part b := by
  cases h with
  | plain h => exact .plain h.1
  | ref blanks h hk => exact .ref _ _ h.1
  | data blanks h hi hj => exact .data _ _ _ h.1

theorem append_refBody (x a : Text) (k : Int) (blanks : Nat) :
    x ++ refBody part a k blanks = refBody part (x ++ a) k blanks := by
  simp [refBody]

theorem append_dataBody (x a : Text) (i j blanks : Nat) :
    x ++ dataBody a i j blanks = dataBody (x ++ a) i j blanks := by
  simp [dataBody]

theorem ljust_refBody (part : Part) (n : Nat) (a : Text) (k : Int) (blanks : Nat) :
    ∃ blanks', ljust n (refBody part a k blanks) = refBody part a k blanks' :=
  ⟨blanks + (n - (refBody part a k blanks).length), by simp [ljust, refBody]⟩

theorem Ending.append (h : Ending part b) (hx : '_' ∉ x) : Ending part (x ++ b) := by
  cases h with
  | plain h => exact .plain (by simp [hx, h])
  | ref k blanks h =>
      rw [append_refBody]
      exact .ref k blanks (by simp [hx, h])
  | data i j blanks h =>
      rw [append_dataBody]
      exact .data i j blanks (by simp [hx, h])

theorem Ending.ljust (h : Ending part b) (n : Nat) : Ending part (ljust n b) := by
  cases h with
  | plain h => exact .plain (by simp [Text.ljust, h])
  | ref k blanks h =>
      rename_i a
      obtain ⟨blanks', e⟩ := ljust_refBody part n a k blanks
      rw [e]
      exact .ref k blanks' h
  | data i j blanks h =>
      rename_i a
      have e : Text.ljust n (dataBody a i j blanks) =
          dataBody a i j (blanks + (n - (dataBody a i j blanks).length)) := by
        simp [Text.ljust, dataBody]
      rw [e]
      exact .data i j _ h

theorem readBody_plain (h : '_' ∉ b) : readBody part b = (strip b, none) := by
  obtain ⟨p, hp⟩ := part_text_eq part
  have hs : split ([',', ' '] ++ part.text) b = [b] := by
    rw [hp]
    exact split_of_not_mem h
  rw [readBody, hs]

theorem readBody_ref (h : '_' ∉ a) (k blanks : Nat) :
    readBody part (refBody part a k blanks) = (strip a, some k) := by
  obtain ⟨p, hp⟩ := part_text_eq part
  have htail : '_' ∉ digits 10 k ++ List.replicate blanks ' ' := by
    have hd : '_' ∉ digits 10 k := not_mem_digits (by decide) k
    simp [hd]
  have hs : split ([',', ' '] ++ part.text) (refBody part a k blanks) =
      [a, digits 10 k ++ List.replicate blanks ' '] := by
    have hbody : refBody part a k blanks = a ++ ([',', ' '] ++ '_' :: [p] ++
        (digits 10 k ++ List.replicate blanks ' ')) := by
      simp [refBody, hp, intText]
    rw [hbody, hp]
    show split ([',', ' '] ++ '_' :: [p]) _ = _
    rw [split_append_sep (by decide) h, split_of_not_mem htail]
  have hd : AllDigits 10 (digits 10 k) := allDigits_digits (by decide) (by decide)
  have hne : digits 10 k ≠ [] := Nat.toDigits_ne_nil
  rw [readBody, hs]
  dsimp only
  rw [strip_append_replicate, ← List.append_nil (digits 10 k), strip_digits hd hne (by simp),
    digitsValue_digits (by decide) (by decide)]

theorem readBody_data (h : '_' ∉ a) (i j blanks : Nat) :
    readBody part (dataBody a i j blanks) = (strip (dataBody a i j blanks), none) := by
  have hs : split ([',', ' '] ++ part.text) (dataBody a i j blanks) = [dataBody a i j blanks] :=
    @split_dataBody part [] List.not_mem_nil a h i j blanks
  rw [readBody, hs]

/-- Blanks in front of a line are not read. -/
theorem readBody_blanks (h : Ending part b) (n : Nat) :
    readBody part (List.replicate n ' ' ++ b) = readBody part b := by
  have hblanks : '_' ∉ List.replicate n ' ' := by simp
  cases h with
  | plain h =>
      rw [readBody_plain h, readBody_plain (by simp [hblanks, h]), strip_replicate_append]
  | ref k blanks h =>
      rename_i a
      rw [append_refBody, readBody_ref h, readBody_ref (by simp [hblanks, h]), strip_replicate_append]
  | data i j blanks h =>
      rename_i a
      rw [append_dataBody, readBody_data h, readBody_data (by simp [hblanks, h]), ← append_dataBody,
        strip_replicate_append]

/-- Nor are those behind it. -/
theorem readBody_ljust (h : Ending part b) (n : Nat) : readBody part (Text.ljust n b) = readBody part b := by
  cases h with
  | plain h =>
      rw [readBody_plain h, readBody_plain (by simp [Text.ljust, h]), Text.ljust, strip_append_replicate]
  | ref k blanks h =>
      rename_i a
      obtain ⟨blanks', e⟩ := ljust_refBody part n a k blanks
      rw [e, readBody_ref h, readBody_ref h]
  | data i j blanks h =>
      rename_i a
      have e : Text.ljust n (dataBody a i j blanks) =
          dataBody a i j (blanks + (n - (dataBody a i j blanks).length)) := by
        simp [Text.ljust, dataBody]
      rw [e, readBody_data h, readBody_data h, ← e, Text.ljust, strip_append_replicate]

/-- **What a line says after its reference was moved.** -/
theorem Moves.read (h : Moves part g b c) :
    readBody part c = ((readBody part b).1, (readBody part b).2.map g) := by
  cases h with
  | plain h =>
      rw [readBody_plain h]
      rfl
  | ref k blanks n h =>
      rename_i a
      rw [readBody_ljust (.ref _ _ h), readBody_ref h, readBody_ref h]
      rfl
  | data i j blanks h =>
      rw [readBody_data h]
      rfl

theorem Moves.ending (h : Moves part g b c) : Ending part c := by
  cases h with
  | plain h => exact .plain h
  | ref k blanks n h => exact (Ending.ref _ _ h).ljust n
  | data i j blanks h => exact .data _ _ _ h

/-- A colon that a line has is a part of its text. -/
theorem colon_readBody (h : Ending part b) :
    ':' ∈ (readBody part b).1 ↔ ':' ∈ b := by
  cases h with
  | plain h =>
      rw [readBody_plain h]
      exact mem_strip (by decide)
  | ref k blanks h =>
      rename_i a
      have hd : ':' ∉ digits 10 k := not_mem_digits (by decide) k
      have hmem : ':' ∈ refBody part a k blanks ↔ ':' ∈ a := by
        cases part <;> simp [refBody, Part.text, intText, hd]
      rw [readBody_ref h, mem_strip (by decide), hmem]
  | data i j blanks h =>
      rw [readBody_data h]
      exact mem_strip (by decide)

theorem Body.not_colon {R : Nat → Prop} (h : Body part R b) : ':' ∉ b := by
  have hd : ∀ n, ':' ∉ digits 10 n := not_mem_digits (by decide)
  cases h with
  | plain h => exact h.2
  | ref blanks h hk =>
      cases part <;> simp [refBody, Part.text, intText, hd, h.2]
  | data blanks h hi hj => simp [dataBody, hd, h.2]

/-! ## 5. Lines -/

theorem readLine_blank (h : Ending part b) : readLine part (Text.ljust 8 [] ++ b) = readBody part b := by
  have hcol : unlabelled (Text.ljust 8 [] ++ b) = List.replicate 8 ' ' ++ b := by
    unfold unlabelled
    rw [if_pos (by rfl)]
    rfl
  rw [readLine, hcol, readBody_blanks h]

theorem readLine_label (h : Ending part b) (n : Nat) :
    readLine part (labelCol part n ++ b) = readBody part b := by
  obtain ⟨p, hp⟩ := part_text_eq part
  obtain ⟨k, hk⟩ : ∃ k, labelCol part n = '_' :: p :: (digits 10 n ++ ':' :: List.replicate k ' ') := by
    refine ⟨8 - (part.text ++ digits 10 n ++ [':']).length, ?_⟩
    simp [labelCol, Text.ljust, intText, hp]
  have hcolon : ':' ∉ '_' :: p :: digits 10 n := by
    have hd : ':' ∉ digits 10 n := not_mem_digits (by decide) n
    have hpart : ':' ∉ part.text := by cases part <;> decide
    rw [hp] at hpart
    simp [hd] at hpart ⊢
    exact hpart
  have hcol : unlabelled (labelCol part n ++ b) = List.replicate k ' ' ++ b := by
    have hline : labelCol part n ++ b =
        ('_' :: p :: digits 10 n) ++ ':' :: (List.replicate k ' ' ++ b) := by
      rw [hk]
      simp
    unfold unlabelled
    rw [hline, if_neg (by simp), List.dropWhile_append_of_pos]
    · rw [List.dropWhile_cons_of_neg (by decide)]
      rfl
    · intro c hc
      simpa using fun e : c = ':' => hcolon (e ▸ hc)
  rw [readLine, hcol, readBody_blanks h]

/-- **The lines of a printed word** say what its bodies say. -/
theorem map_readLine {n : Nat} {bodies : List Text} (h : ∀ b ∈ bodies, Ending part b) :
    (wordLines (labelCol part n) bodies).map (readLine part) = bodies.map (readBody part) := by
  cases bodies with
  | nil => rfl
  | cons b bs =>
      rw [wordLines, List.map_cons, List.map_cons, readLine_label (h b List.mem_cons_self), List.map_map]
      congr 1
      exact List.map_congr_left fun c hc => readLine_blank (h c (List.mem_cons_of_mem _ hc))

end Ending

/-! ## 6. Both loops of `reset_labels` -/

/-- The bodies of a word under another label. -/
def resetBodies (part : Part) (label : Int) (bodies : List Text) : List Text :=
  ljust 42 ((labelCol part label).drop 8 ++ bodies.headD []) :: bodies.tail

/-- Where a label stands among the words, or the number that was drawn. -/
def placeOf (words : List Word) (r k : Nat) : Nat := (words.findIdx? (·.label = (k : Int))).getD r

/-- **The first loop**, for populated words under different labels. -/
theorem resetFrom_prints {part : Part} {words : List Word}
    (hw : ∀ w ∈ words, ∃ bodies, w.Prints part bodies)
    (hd : words.Pairwise fun v w => v.label ≠ w.label) (n : Nat) (labelMap : Dict Int Int) :
    ∃ words' labelMap', resetFrom part n labelMap words = .ok (words', labelMap') ∧
      List.Forall₂ (fun (p : Word × Nat) (w' : Word) => w'.label = (p.2 : Int) ∧ w'.insts = p.1.insts ∧
        ∃ bodies, p.1.Prints part bodies ∧ w'.Prints part (resetBodies part p.1.label bodies))
        (words.zipIdx n) words' ∧
      ∀ k, labelMap'.get? k = match words.findIdx? (·.label = k) with
        | some j => some ((n + j : Nat) : Int)
        | none => labelMap.get? k := by
  induction words generalizing n labelMap with
  | nil => exact ⟨[], labelMap, rfl, .nil, fun k => rfl⟩
  | cons w words ih =>
      obtain ⟨bodies, hp⟩ := hw w List.mem_cons_self
      obtain ⟨w', hreset, hp', hlabel, hinsts, -⟩ := Word.resetLabel_lines hp n
      obtain ⟨hne, hd⟩ := List.pairwise_cons.mp hd
      obtain ⟨words', labelMap', he, hall, hmap⟩ :=
        ih (fun x hx => hw x (List.mem_cons_of_mem _ hx)) hd (n + 1) (labelMap.set w.label n)
      refine ⟨w' :: words', labelMap', ?_, .cons ⟨hlabel, hinsts, bodies, hp, hp'⟩ hall, fun k => ?_⟩
      · rw [resetFrom, hreset]
        change (resetFrom part (n + 1) (labelMap.set w.label n) words >>= fun r =>
          Except.ok (w' :: r.1, r.2)) = _
        rw [he]
        rfl
      · rw [hmap, List.findIdx?_cons]
        by_cases hk : w.label = k
        · have hnone : words.findIdx? (fun v => decide (v.label = k)) = none := by
            rw [List.findIdx?_eq_none_iff]
            intro v hv
            simpa [← hk] using (hne v hv).symm
          rw [hnone, Dict.get?_set]
          simp [hk]
        · rw [Dict.get?_set, if_neg (fun h => hk h.symm)]
          cases words.findIdx? fun v => decide (v.label = k) with
          | none => simp [hk]
          | some j =>
              simp [hk]
              omega

/-- Images under a function, from a relation entry by entry. -/
theorem exists_map_of_forall₂ {f : Text → Text} {Q : Text → Text → Prop} {bs ts : List Text}
    (h : List.Forall₂ (fun b t => ∃ b', t = f b' ∧ Q b b') bs ts) :
    ∃ bs' : List Text, ts = bs'.map f ∧ List.Forall₂ Q bs bs' := by
  induction h with
  | nil => exact ⟨[], rfl, .nil⟩
  | cons h _ ih =>
      obtain ⟨b', rfl, hq⟩ := h
      obtain ⟨bs', rfl, hall⟩ := ih
      exact ⟨b' :: bs', rfl, .cons hq hall⟩

/-- A relation that leaves no choice, entry by entry. -/
theorem eq_map_of_forall₂ {α β : Type} {R : α → β → Prop} {f : α → β} {l : List α} {l' : List β}
    (h : List.Forall₂ R l l') (hf : ∀ a ∈ l, ∀ b, R a b → b = f a) : l' = l.map f := by
  induction h with
  | nil => rfl
  | cons hab _ ih =>
      rw [List.map_cons, hf _ List.mem_cons_self _ hab, ih fun a ha => hf a (List.mem_cons_of_mem _ ha)]

theorem not_mem_drop_labelCol (part : Part) (n : Nat) : '_' ∉ (labelCol part n).drop 8 := by
  obtain ⟨p, hp⟩ := part_text_eq part
  have hund : '_' ∉ p :: (digits 10 n ++ [':'] ++
      List.replicate (8 - (part.text ++ digits 10 n ++ [':']).length) ' ') := by
    have hd : '_' ∉ digits 10 n := not_mem_digits (by decide) n
    have hpart : '_' ≠ p := by
      intro e
      rw [← e] at hp
      cases part <;> cases hp
    simp [hd, hpart]
  intro h
  refine hund (List.mem_of_mem_drop (i := 7) ?_)
  simpa [labelCol, ljust, intText, hp] using h

theorem Word.Prints.inj {w : Word} {part : Part} {bodies bodies' : List Text}
    (h : w.Prints part bodies) (h' : w.Prints part bodies') : bodies = bodies' := by
  have hlines := h.lines.symm.trans h'.lines
  have hmap : Function.Injective fun b : Text => ljust 8 [] ++ b := fun _ _ e => List.append_cancel_left e
  cases bodies with
  | nil => exact absurd rfl h.nonempty
  | cons b bs =>
      cases bodies' with
      | nil => exact absurd rfl h'.nonempty
      | cons b' bs' =>
          obtain ⟨hb, hbs⟩ := List.cons.inj hlines
          rw [List.append_cancel_left hb, hmap.list_map hbs]

theorem ending_resetBodies {part : Part} {bodies : List Text} (label : Nat) (hne : bodies ≠ [])
    (h : ∀ b ∈ bodies, Ending part b) : ∀ b ∈ resetBodies part label bodies, Ending part b := by
  obtain ⟨b, bs, rfl⟩ := List.exists_cons_of_ne_nil hne
  intro c hc
  rcases List.mem_cons.mp hc with rfl | hc
  · exact ((h b List.mem_cons_self).append (not_mem_drop_labelCol part label)).ljust 42
  · exact h c (List.mem_cons_of_mem _ hc)

/-- A word after `reset_labels`: each line is where its reference goes for some number of `D`. -/
structure Word.Relabelled (w : Word) (part : Part) (label : Nat) (D : Nat → Prop) (g : Nat → Nat → Nat)
    (w' : Word) : Prop where
  label : w'.label = label
  insts : w'.insts = w.insts
  bodies : ∃ bodies bodies', w.Prints part bodies ∧ (∀ b ∈ bodies, Ending part b) ∧
    w'.Prints part bodies' ∧
    List.Forall₂ (fun b b' => ∃ r, D r ∧ Moves part (g r) b b') (resetBodies part w.label bodies) bodies'

section Reads

variable {M : (α : Type) → Rand α → (α → Prop) → Prop} (hM : Logic M) {D : Nat → Nat → Nat → Prop}
  (hdraw : ∀ lo hi : Nat, lo ≤ hi →
    M Int (randint (lo : Int) (hi : Int)) fun r => ∃ n : Nat, r = n ∧ D lo hi n)
  (hD : ∀ lo hi, lo ≤ hi → ∃ n, D lo hi n)

include hM hdraw hD

/-- One line of `repop_label`. -/
theorem reads_repopInst {w : Word} {labelMap : Dict Int Int} {maxLabel label : Nat} {part : Part}
    {g : Nat → Nat → Nat} (hg : ∀ r k : Nat, labelMap.getD k r = (g r k : Int))
    (hlabel : w.label = label) (hpre : w.labelPrefix = []) (hlt : label + 1 ≤ maxLabel) {col b : Text}
    (hcol : ',' ∉ col) (hlen : 8 ≤ col.length) (hund : '_' ∉ col.drop 8) (hb : Ending part b) :
    M Text (w.repopInst labelMap maxLabel part (col ++ b)) fun t => ∃ b', t = col ++ b' ∧
      ∃ r, D (label + 1) maxLabel r ∧ Moves part (g r) b b' := by
  obtain ⟨r₀, hr₀⟩ := hD (label + 1) maxLabel hlt
  cases hb with
  | plain h =>
      rw [repopInst_plain hcol h]
      exact hM.pure ⟨b, rfl, r₀, hr₀, .plain h⟩
  | ref k blanks h =>
      rename_i a
      rw [repopInst_ref hcol hlen hund hpre h, hlabel]
      refine hM.bind (hdraw (label + 1) maxLabel hlt) fun r hr => ?_
      obtain ⟨n, rfl, hn⟩ := hr
      refine hM.pure ⟨_, rfl, n, hn, ?_⟩
      rw [hg]
      exact .ref k blanks _ h
  | data i j blanks h =>
      rw [repopInst_data hcol h]
      exact hM.pure ⟨_, rfl, r₀, hr₀, .data i j blanks h⟩

/-- The second loop, for one word. -/
theorem reads_repopLabel {w : Word} {labelMap : Dict Int Int} {maxLabel label : Nat} {part : Part}
    {g : Nat → Nat → Nat} (hg : ∀ r k : Nat, labelMap.getD k r = (g r k : Int))
    (hlabel : w.label = label) (hlt : label + 1 ≤ maxLabel) {bodies : List Text}
    (hp : w.Prints part bodies) (hb : ∀ b ∈ bodies, Ending part b) :
    M Word (w.repopLabel labelMap maxLabel part) fun w' => w'.label = w.label ∧ w'.insts = w.insts ∧
      ∃ bodies', w'.Prints part bodies' ∧
        List.Forall₂ (fun b b' => ∃ r, D (label + 1) maxLabel r ∧ Moves part (g r) b b')
          bodies bodies' := by
  have hcol : ',' ∉ labelCol part w.label ∧ '_' ∉ (labelCol part w.label).drop 8 := by
    rw [hlabel]
    exact ⟨not_mem_labelCol (by decide) (by decide), not_mem_drop_labelCol part label⟩
  refine Logic.ite (fun _ => ?_) fun h => absurd hp.populated h
  cases bodies with
  | nil => exact absurd rfl hp.nonempty
  | cons b bs =>
      rw [hp.lines, wordLines, List.mapM_cons]
      have hfirst := reads_repopInst hM hdraw hD hg hlabel hp.noPrefix hlt hcol.1
        (Word.le_length_labelCol part w.label) hcol.2 (hb b List.mem_cons_self)
      have hrest : M (List Text) ((bs.map (ljust 8 [] ++ ·)).mapM (w.repopInst labelMap maxLabel part))
          (List.Forall₂ (fun c t => ∃ c', t = ljust 8 [] ++ c' ∧
            ∃ r, D (label + 1) maxLabel r ∧ Moves part (g r) c c') bs) := by
        refine hM.mapM₂ (S := fun c line => line = ljust 8 [] ++ c) ?_ fun c hc line hline => ?_
        · rw [List.forall₂_map_right_iff, List.forall₂_same]
          exact fun c _ => rfl
        · rw [hline]
          exact reads_repopInst hM hdraw hD hg hlabel hp.noPrefix hlt (by decide) (by decide)
            (by decide) (hb c (List.mem_cons_of_mem _ hc))
      refine hM.bind (hM.bind hfirst fun t ht => hM.bind hrest fun ts hts => hM.pure
        (P := fun ts => ∃ bodies', bodies' ≠ [] ∧ ts = wordLines (labelCol part w.label) bodies' ∧
          List.Forall₂ (fun b b' => ∃ r, D (label + 1) maxLabel r ∧ Moves part (g r) b b') (b :: bs)
            bodies') ?_) fun ts hts => hM.pure ?_
      · obtain ⟨b', rfl, hb'⟩ := ht
        obtain ⟨bs', rfl, hbs'⟩ := exists_map_of_forall₂ hts
        exact ⟨b' :: bs', List.cons_ne_nil _ _, rfl, .cons hb' hbs'⟩
      · obtain ⟨bodies', hne, rfl, hall⟩ := hts
        exact ⟨rfl, rfl, bodies', ⟨hp.populated, hp.noPrefix, hne, rfl⟩, hall⟩

/-- **`reset_labels`**, for populated words under different labels. -/
theorem reads_resetLabels {part : Part} {words : List Word}
    (hw : ∀ w ∈ words, ∃ bodies, w.Prints part bodies ∧ ∀ b ∈ bodies, Ending part b)
    (hlabels : ∀ w ∈ words, ∃ l : Nat, w.label = l)
    (hd : words.Pairwise fun v w => v.label ≠ w.label) :
    M (List Word) (resetLabels words part)
      (List.Forall₂ (fun (p : Word × Nat) w' =>
        p.1.Relabelled part p.2 (D (p.2 + 1) words.length) (placeOf words) w') words.zipIdx) := by
  obtain ⟨words', labelMap, he, hall, hmap⟩ :=
    resetFrom_prints (fun w hmem => (hw w hmem).imp fun _ h => h.1) hd 0 Dict.empty
  have hlen : words'.length = words.length := by rw [← hall.length_eq, List.length_zipIdx]
  refine hM.bind (hM.lift (P := (· = (words', labelMap))) he rfl) fun r hr => ?_
  subst hr
  have hg : ∀ r k : Nat, labelMap.getD k r = (placeOf words r k : Int) := by
    intro r k
    rw [Dict.getD, hmap k, placeOf]
    cases words.findIdx? fun w => decide (w.label = (k : Int)) with
    | none => rfl
    | some j => simp
  refine hM.mapM₂ hall fun p hp w' hw' => ?_
  have hget : words[p.2]? = some p.1 := List.mem_zipIdx_iff_getElem?.mp hp
  have hlt : p.2 < words.length := (List.getElem?_eq_some_iff.mp hget).1
  obtain ⟨hlabel, hinsts, bodies, hprints, hprints'⟩ := hw'
  obtain ⟨bodies₀, hprints₀, hend⟩ := hw p.1 (List.mem_of_getElem? hget)
  obtain ⟨l, hl⟩ := hlabels p.1 (List.mem_of_getElem? hget)
  obtain rfl : bodies₀ = bodies := hprints₀.inj hprints
  have hend' : ∀ b ∈ resetBodies part p.1.label bodies₀, Ending part b := by
    rw [hl]
    exact ending_resetBodies l hprints.nonempty hend
  have hplace : p.2 + 1 ≤ words'.length := by omega
  refine hM.mono (reads_repopLabel hM hdraw hD hg hlabel hplace hprints' hend') fun w'' h => ?_
  obtain ⟨hlabel'', hinsts'', bodies', hp', hmoves⟩ := h
  rw [hlen] at hmoves
  exact ⟨hlabel''.trans hlabel, hinsts''.trans hinsts, bodies₀, bodies', hprints, hend, hp', hmoves⟩

end Reads

/-! ## 7. Words and blocks -/

section Blocks

variable {w w' : Word} {part : Part} {i j : Nat} {D : Nat → Prop} {g : Nat → Nat → Nat}

theorem Word.Prints.lines_eq {bodies : List Text} (h : w.Prints part bodies) (hi : w.label = i)
    (hb : ∀ b ∈ bodies, Ending part b) : (w.block part).lines = bodies.map (readBody part) := by
  show w.retInsts.map (readLine part) = _
  rw [h.lines, hi, map_readLine hb]

/-- A label of at most five digits fits into its columns, and leaves the text as it is. -/
theorem map_resetBodies {bodies : List Text} (hi : i < 100000) (hne : bodies ≠ [])
    (hb : ∀ b ∈ bodies, Ending part b) :
    (resetBodies part i bodies).map (readBody part) = bodies.map (readBody part) := by
  obtain ⟨b, bs, rfl⟩ := List.exists_cons_of_ne_nil hne
  have hcol : (labelCol part i).drop 8 = [] :=
    List.drop_of_length_le (Nat.le_of_eq (length_labelCol hi))
  rw [resetBodies, hcol, List.nil_append, List.map_cons, List.map_cons]
  rw [List.headD_cons, readBody_ljust (hb b List.mem_cons_self), List.tail_cons]

/-- A longer label leaves a colon. -/
theorem colon_mem_drop_labelCol (part : Part) (hi : 100000 ≤ i) : ':' ∈ (labelCol part i).drop 8 := by
  have hd : 6 ≤ (digits 10 i).length := by
    by_contra hlt
    have h5 := (Nat.length_toDigits_le_iff (b := 10) (k := 5) (n := i) (by decide) (by decide)).mp
      (show (Nat.toDigits 10 i).length ≤ 5 by rw [digits] at hlt; omega)
    omega
  have hp : part.text.length = 2 := by cases part <;> rfl
  have hlen : 8 ≤ (part.text ++ digits 10 i).length := by
    rw [List.length_append, hp]
    omega
  show ':' ∈ List.drop 8 (ljust 8 (part.text ++ digits 10 i ++ [':']))
  rw [ljust, List.append_assoc, List.drop_append_of_le_length hlen]
  simp

/-- **The lines of a word** after `reset_labels`. -/
theorem Word.Relabelled.lines (h : w.Relabelled part j D g w') (hi : w.label = i) (hlt : i < 100000) :
    List.Forall₂ (fun l l' => ∃ r, D r ∧ l' = (l.1, l.2.map (g r))) (w.block part).lines
      (w'.block part).lines := by
  obtain ⟨bodies, bodies', hp, hb, hp', hmoves⟩ := h.bodies
  have hb' : ∀ b' ∈ bodies', Ending part b' := fun b' hb' =>
    (Forall₂.mem_right hmoves hb').elim fun _ h => h.2.elim fun _ h => h.2.ending
  rw [hp'.lines_eq h.label hb', hp.lines_eq hi hb, ← map_resetBodies hlt hp.nonempty hb, ← hi]
  rw [List.forall₂_map_left_iff, List.forall₂_map_right_iff]
  refine hmoves.imp fun b b' hmove => ?_
  obtain ⟨r, hr, hm⟩ := hmove
  exact ⟨r, hr, hm.read⟩

/-- A word whose text is as it was has a short label. -/
theorem Word.Relabelled.short {R : Nat → Prop} (h : w.Relabelled part j D g w') (hi : w.label = i)
    (hw : w.Lines part R)
    (heq : (w'.block part).lines.map (·.1) = (w.block part).lines.map (·.1)) : i < 100000 := by
  obtain ⟨bodies₀, hp₀, -, hbody⟩ := hw
  obtain ⟨bodies, bodies', hp, hb, hp', hmoves⟩ := h.bodies
  obtain rfl := hp.inj hp₀
  have hb' : ∀ b' ∈ bodies', Ending part b' := fun b' hb' =>
    (Forall₂.mem_right hmoves hb').elim fun _ h => h.2.elim fun _ h => h.2.ending
  rw [hp'.lines_eq h.label hb', hp.lines_eq hi hb] at heq
  by_contra hlong
  obtain ⟨b, bs, rfl⟩ := List.exists_cons_of_ne_nil hp.nonempty
  cases hmoves with
  | @cons _ b' _ bs' hmove _ =>
      obtain ⟨r, -, hm⟩ := hmove
      have hfst : (readBody part b').1 = (readBody part b).1 := (List.cons.inj heq).1
      have hcolon : ':' ∉ (readBody part b).1 := fun h =>
        (hbody b List.mem_cons_self).not_colon ((colon_readBody (hb b List.mem_cons_self)).mp h)
      have hend : Ending part ((labelCol part w.label).drop 8 ++ b) := by
        rw [hi]
        exact (hb b List.mem_cons_self).append (not_mem_drop_labelCol part i)
      rw [hm.read, List.headD_cons, readBody_ljust hend] at hfst
      refine hcolon (hfst ▸ (colon_readBody hend).mpr (List.mem_append_left _ ?_))
      rw [hi]
      exact colon_mem_drop_labelCol part (by omega)

end Blocks

/-! ## 8. The words that are left -/

section Survivors

variable {s : SimInput} {part : Part} {k : Nat} {w : Word}

theorem rank_program (s : SimInput) (part : Part) (k : Nat) :
    rank (s.program part) k = ((s.part part).take k).countP (·.insts != [nop]) := by
  unfold rank SimInput.program
  rw [← List.map_take, List.countP_map]
  rfl

theorem getElem?_survivors (hw : (s.part part)[k]? = some w) (hn : w.insts ≠ [nop]) :
    (survivors (s.part part))[rank (s.program part) k]? = some w := by
  rw [rank_program]
  exact getElem?_filter_countP hw (by simpa using hn)

theorem exists_of_survivors {j : Nat} (h : (survivors (s.part part))[j]? = some w) :
    ∃ i, (s.part part)[i]? = some w ∧ w.insts ≠ [nop] ∧ rank (s.program part) i = j := by
  obtain ⟨i, hi, hn, hj⟩ := exists_of_getElem?_filter h
  exact ⟨i, hi, by simpa using hn, by rw [rank_program, hj]⟩

theorem delete_program (s : SimInput) (part : Part) :
    delete (s.program part) =
      (survivors (s.part part)).map fun w => (w.block part).retarget (rank (s.program part)) := by
  unfold delete
  conv_lhs => rw [SimInput.program, List.filter_map, List.map_map]
  rfl

theorem length_delete_program (s : SimInput) (part : Part) :
    (delete (s.program part)).length = (survivors (s.part part)).length := by
  rw [delete_program, List.length_map]

variable (hs : s.Labelled)

include hs

theorem survivors_prints {w : Word} (hw : w ∈ survivors (s.part part)) :
    ∃ bodies, w.Prints part bodies ∧ ∀ b ∈ bodies, Ending part b := by
  obtain ⟨i, hi⟩ := List.mem_iff_getElem?.mp (List.mem_filter.mp hw).1
  obtain ⟨bodies, hp, -, hb⟩ := (hs part i w hi).2
  exact ⟨bodies, hp, fun b hmem => (hb b hmem).ending⟩

theorem survivors_pairwise (part : Part) :
    (survivors (s.part part)).Pairwise fun v w => v.label ≠ w.label := by
  refine List.Pairwise.filter _ (List.pairwise_iff_getElem.mpr fun i j hi hj hij => ?_)
  rw [(hs part i _ (List.getElem?_eq_getElem hi)).1, (hs part j _ (List.getElem?_eq_getElem hj)).1]
  omega

/-- A reference to a word that is left goes to its new place. -/
theorem placeOf_left (h : Left (s.part part) k) (r : Nat) :
    placeOf (survivors (s.part part)) r k = rank (s.program part) k := by
  obtain ⟨w, hw, hn⟩ := h
  have hmem : w ∈ survivors (s.part part) := List.mem_of_getElem? (getElem?_survivors hw hn)
  cases hj : (survivors (s.part part)).findIdx? (·.label = (k : Int)) with
  | none =>
      have hall := List.findIdx?_eq_none_iff.mp hj w hmem
      rw [(hs part k w hw).1] at hall
      simp at hall
  | some j =>
      obtain ⟨hlt, hlabel, -⟩ := List.findIdx?_eq_some_iff_getElem.mp hj
      obtain ⟨i, hi, -, hrank⟩ := exists_of_survivors (List.getElem?_eq_getElem hlt)
      have hik : (i : Int) = k := by
        rw [← (hs part i _ hi).1]
        simpa using hlabel
      rw [placeOf, hj, ← hrank, Int.ofNat.inj hik]
      rfl

/-- Any other reference goes where the draw says. -/
theorem placeOf_not_left (h : ¬ Left (s.part part) k) (r : Nat) :
    placeOf (survivors (s.part part)) r k = r := by
  have hnone : (survivors (s.part part)).findIdx? (·.label = (k : Int)) = none := by
    rw [List.findIdx?_eq_none_iff]
    intro w hw
    obtain ⟨j, hj⟩ := List.mem_iff_getElem?.mp hw
    obtain ⟨i, hi, hn, -⟩ := exists_of_survivors hj
    rw [(hs part i w hi).1]
    simp only [decide_eq_false_iff_not]
    intro e
    exact h ⟨w, Int.ofNat.inj e ▸ hi, hn⟩
  rw [placeOf, hnone]
  rfl

end Survivors

/-! ## 9. Inputs -/

/-- An input after the deletion, for numbers that were drawn as `D` says. -/
structure Reset (D : Nat → Nat → Nat → Prop) (s r : SimInput) : Prop where
  words : ∀ part, List.Forall₂ (fun (p : Word × Nat) w' => p.1.Relabelled part p.2
    (D (p.2 + 1) (survivors (s.part part)).length) (placeOf (survivors (s.part part))) w')
    (survivors (s.part part)).zipIdx (r.part part)
  ints : r.ints = keptInts s.ints 0 s.words
  dataSeed : r.dataSeed = s.dataSeed
  template : r.template = s.template

section Inputs

variable {m : RvMutator} {s r : SimInput} {part : Part} {D : Nat → Nat → Nat → Prop}

/-- **What `delete_nop` makes of an input**, for whatever is said of the results. -/
theorem reads_deleteNop {M : (α : Type) → Rand α → (α → Prop) → Prop} (hM : Logic M)
    (hdraw : ∀ lo hi : Nat, lo ≤ hi →
      M Int (randint (lo : Int) (hi : Int)) fun r => ∃ n : Nat, r = n ∧ D lo hi n)
    (hD : ∀ lo hi, lo ≤ hi → ∃ n, D lo hi n) (hs : s.Labelled) {data : List Int}
    (hdata : m.getData s.dataSeed = .ok data) :
    M (SimInput × List Int) (m.deleteNop s) fun r => Reset D s r.1 := by
  have hpart : ∀ part, M (List Word) (resetLabels (survivors (s.part part)) part)
      (List.Forall₂ (fun (p : Word × Nat) w' => p.1.Relabelled part p.2
        (D (p.2 + 1) (survivors (s.part part)).length) (placeOf (survivors (s.part part))) w')
        (survivors (s.part part)).zipIdx) := by
    intro part
    refine reads_resetLabels hM hdraw hD (fun w hw => survivors_prints hs hw) (fun w hw => ?_)
      (survivors_pairwise hs part)
    obtain ⟨i, hi⟩ := List.mem_iff_getElem?.mp (List.mem_filter.mp hw).1
    exact ⟨i, (hs part i w hi).1⟩
  refine hM.bind (hpart .prefixPart) fun prefixWords hprefix => ?_
  refine hM.bind (hpart .mainPart) fun words hwords => ?_
  refine hM.bind (hpart .suffixPart) fun suffixWords hsuffix => ?_
  refine hM.bind (hM.lift (P := fun _ => True) hdata trivial) fun _ _ => hM.pure ⟨fun part => ?_, rfl, rfl, rfl⟩
  cases part with
  | prefixPart => exact hprefix
  | mainPart => exact hwords
  | suffixPart => exact hsuffix

/-- The word after the deletion, for one that is left. -/
theorem Reset.word (h : Reset D s r) {i : Nat} {w : Word} (hw : (s.part part)[i]? = some w)
    (hn : w.insts ≠ [nop]) :
    ∃ w', (r.part part)[rank (s.program part) i]? = some w' ∧
      w.Relabelled part (rank (s.program part) i)
        (D (rank (s.program part) i + 1) (survivors (s.part part)).length)
        (placeOf (survivors (s.part part))) w' := by
  have hj := getElem?_survivors hw hn
  obtain ⟨hlt, hget⟩ := List.getElem?_eq_some_iff.mp hj
  have hall := h.words part
  have hlt' : rank (s.program part) i < (survivors (s.part part)).zipIdx.length := by
    rwa [List.length_zipIdx]
  have hlt'' : rank (s.program part) i < (r.part part).length := hall.length_eq ▸ hlt'
  have hrel := hall.get hlt' hlt''
  refine ⟨_, List.getElem?_eq_getElem hlt'', ?_⟩
  simp only [List.get_eq_getElem, List.getElem_zipIdx, Nat.zero_add, hget] at hrel
  exact hrel

theorem Reset.length (h : Reset D s r) (part : Part) :
    (r.part part).length = (survivors (s.part part)).length := by
  rw [← (h.words part).length_eq, List.length_zipIdx]

theorem Reset.lens (h : Reset D s r) (part : Part) :
    (r.part part).map (·.lenInsts) = (survivors (s.part part)).map (·.lenInsts) := by
  refine List.ext_getElem? fun j => ?_
  rw [List.getElem?_map, List.getElem?_map]
  cases hj : (survivors (s.part part))[j]? with
  | none =>
      have hlen := List.getElem?_eq_none_iff.mp hj
      rw [List.getElem?_eq_none (by rw [h.length part]; exact hlen)]
  | some w =>
      obtain ⟨i, hi, hn, rfl⟩ := exists_of_survivors hj
      obtain ⟨w', hw', hrel⟩ := h.word hi hn
      rw [hw']
      exact congrArg (fun insts => some (List.length insts)) hrel.insts

theorem keptInts_eq (ints : List Int) (k : Nat) (words : List Word) :
    keptInts ints k words =
      (keptSlices (·.insts != [nop]) (·.lenInsts) words (ints.drop k)).flatten := by
  induction words generalizing k with
  | nil => rfl
  | cons w words ih =>
      rw [keptInts, keptSlices, ih, List.drop_drop]
      by_cases hn : w.insts = [nop]
      · rw [if_neg (not_not.mpr hn), if_neg (by simp [hn])]
        rfl
      · rw [if_pos hn, if_pos (by simpa using hn)]
        rfl

/-- **The interrupts** of the words that are left. -/
theorem Reset.slices (h : Reset D s r) {k : Nat} {w : Word} (hw : s.words[k]? = some w)
    (hn : w.insts ≠ [nop]) : r.slices[rank (s.program .mainPart) k]? = s.slices[k]? := by
  have hlens : r.words.map (·.lenInsts) = (survivors s.words).map (·.lenInsts) := h.lens .mainPart
  unfold SimInput.slices
  rw [h.ints, hlens, keptInts_eq, survivors, slices_keptSlices, List.drop_zero, rank_program]
  exact getElem?_keptSlices hw (by simpa using hn) s.ints

/-- Where the program before and the program after have the lines of a word. -/
theorem Reset.blocks (h : Reset D s r) {i : Nat} {w : Word} (hw : (s.part part)[i]? = some w)
    (hn : w.insts ≠ [nop]) :
    ∃ w', (r.program part)[rank (s.program part) i]? = some (w'.block part) ∧
      (delete (s.program part))[rank (s.program part) i]? =
        some ((w.block part).retarget (rank (s.program part))) ∧
      w.Relabelled part (rank (s.program part) i)
        (D (rank (s.program part) i + 1) (survivors (s.part part)).length)
        (placeOf (survivors (s.part part))) w' := by
  obtain ⟨w', hw', hrel⟩ := h.word hw hn
  have hblock : (s.program part)[i]? = some (w.block part) := by
    rw [SimInput.program, List.getElem?_map, hw]
    rfl
  refine ⟨w', ?_, getElem?_delete hblock (by simpa [Word.block] using hn), hrel⟩
  rw [SimInput.program, List.getElem?_map, hw']
  rfl

/-- Behind the last word that is left, all references go to the end. -/
theorem rank_of_last {i k : Nat} (hlast : ∀ j, i < j → ¬ Left (s.part part) j) (hk : i < k) :
    rank (s.program part) k = (survivors (s.part part)).length := by
  rw [← length_delete_program]
  refine rank_eq_length fun j b hj hb => ?_
  rw [SimInput.program, List.getElem?_map, Option.map_eq_some_iff] at hb
  obtain ⟨w, hw, rfl⟩ := hb
  by_contra hsilent
  exact hlast j (by omega) ⟨w, hw, by simpa [Word.block] using hsilent⟩

/-- The rank behind a word that is left. -/
theorem rank_after {i : Nat} {w : Word} (hw : (s.part part)[i]? = some w) (hn : w.insts ≠ [nop]) :
    rank (s.program part) (i + 1) = rank (s.program part) i + 1 := by
  have hblock : (s.program part)[i]? = some (w.block part) := by
    rw [SimInput.program, List.getElem?_map, hw]
    rfl
  rw [rank_succ hblock, if_neg (by simpa [Word.block] using hn)]

/-- **The program after the deletion**, if no reference is left to chance. -/
theorem Reset.program (hD : ∀ lo hi n, D lo hi n → lo ≤ n ∧ n ≤ hi) (hs : s.Labelled)
    (h : Reset D s r) (hres : Resolved s part) : r.program part = delete (s.program part) := by
  refine List.ext_getElem? fun j => ?_
  cases hj : (survivors (s.part part))[j]? with
  | none =>
      have hlen := List.getElem?_eq_none_iff.mp hj
      rw [List.getElem?_eq_none, List.getElem?_eq_none]
      · rw [length_delete_program]
        exact hlen
      · rw [SimInput.program, List.length_map, h.length part]
        exact hlen
  | some w =>
      obtain ⟨i, hi, hn, rfl⟩ := exists_of_survivors hj
      obtain ⟨w', hafter, hbefore, hrel⟩ := h.blocks hi hn
      obtain ⟨hshort, hrefs⟩ := hres i w hi hn
      have hlines : (w'.block part).lines =
          (w.block part).lines.map fun l => (l.1, l.2.map (rank (s.program part))) := by
        refine eq_map_of_forall₂ (hrel.lines (hs part i w hi).1 hshort) fun l hl l' hl' => ?_
        obtain ⟨n, hn', rfl⟩ := hl'
        obtain ⟨line, hline, rfl⟩ := List.mem_map.mp hl
        cases hk : (readLine part line).2 with
        | none => rfl
        | some k =>
            refine congrArg (fun t => ((readLine part line).1, some t)) ?_
            by_cases hleft : Left (s.part part) k
            · exact placeOf_left hs hleft n
            · obtain ⟨hik, hlast⟩ := (hrefs line hline k hk).resolve_left hleft
              have hend := rank_of_last hlast (Nat.lt_succ_self i)
              rw [rank_after hi hn] at hend
              rw [placeOf_not_left hs hleft, rank_of_last hlast hik]
              have := hD _ _ _ hn'
              omega
      rw [hafter, hbefore]
      refine congrArg some ?_
      unfold Block.retarget
      rw [← hlines]
      unfold Word.block
      rw [hrel.insts]

/-- What follows from the program after the deletion, for the numbers that were drawn. -/
theorem Reset.resolved (hs : s.Labelled) (h : Reset D s r)
    (heq : r.program part = delete (s.program part)) {i : Nat} {w : Word}
    (hw : (s.part part)[i]? = some w) (hn : w.insts ≠ [nop]) :
    i < 100000 ∧ ∀ line ∈ w.retInsts, ∀ k, (readLine part line).2 = some k →
      ¬ Left (s.part part) k →
      D (rank (s.program part) i + 1) (survivors (s.part part)).length (rank (s.program part) k) := by
  obtain ⟨w', hafter, hbefore, hrel⟩ := h.blocks hw hn
  rw [heq, hbefore] at hafter
  have hlines := congrArg Block.lines (Option.some.inj hafter)
  obtain ⟨hlabel, hlines₀⟩ := hs part i w hw
  have hshort : i < 100000 := by
    refine hrel.short hlabel hlines₀ ?_
    rw [← hlines]
    unfold Block.retarget
    rw [List.map_map]
    rfl
  refine ⟨hshort, fun line hline k hk hleft => ?_⟩
  have hall := hrel.lines hlabel hshort
  rw [← hlines] at hall
  unfold Block.retarget at hall
  rw [List.forall₂_map_right_iff, List.forall₂_same] at hall
  obtain ⟨n, hdraw, hmove⟩ := hall _ (List.mem_map_of_mem hline)
  rw [hk] at hmove
  have hnk : rank (s.program part) k = placeOf (survivors (s.part part)) n k :=
    Option.some.inj (congrArg Prod.snd hmove)
  rw [placeOf_not_left hs hleft] at hnk
  rw [hnk]
  exact hdraw

/-- A call that returns has found the data. -/
theorem data_of_deleteNop {data : List Int} {w w' : World}
    (h : m.deleteNop s w = .ok ((r, data), w')) : m.getData s.dataSeed = .ok data := by
  unfold RvMutator.deleteNop at h
  obtain ⟨_, _, _, h⟩ := StateT.bind_ok.mp h
  obtain ⟨_, _, _, h⟩ := StateT.bind_ok.mp h
  obtain ⟨_, _, _, h⟩ := StateT.bind_ok.mp h
  obtain ⟨data', _, hdata, h⟩ := StateT.bind_ok.mp h
  have hout := Prod.mk.inj (StateT.pure_ok.mp h)
  rw [← (Prod.mk.inj hout.1).2]
  exact (lift_ok.mp hdata).1

theorem possible_randint_eq {lo hi n : Nat} (h : lo ≤ n) (h' : n ≤ hi) :
    Possible (randint (lo : Int) (hi : Int)) fun r => ∃ k : Nat, r = k ∧ k = n :=
  Possible.logic.mono (possible_randint (r := (n : Int)) (by omega) (by omega)) fun _ hr => ⟨n, hr, rfl⟩

/-- If every outcome preserves the program, so do those of the least and of the greatest draws. -/
theorem resolved_of_outcomes (hs : s.Labelled)
    (h : ∀ D : Nat → Nat → Nat → Prop, (∀ lo hi : Nat, lo ≤ hi →
        Possible (randint (lo : Int) (hi : Int)) fun r => ∃ n : Nat, r = n ∧ D lo hi n) →
      (∀ lo hi, lo ≤ hi → ∃ n, D lo hi n) → ∃ r, Reset D s r ∧ Deleted s r) (part : Part) :
    Resolved s part := by
  obtain ⟨r₁, hr₁, hd₁⟩ := h (fun lo _ n => n = lo)
    (fun lo hi hle => possible_randint_eq le_rfl hle) (fun lo _ _ => ⟨lo, rfl⟩)
  obtain ⟨r₂, hr₂, hd₂⟩ := h (fun _ hi n => n = hi)
    (fun lo hi hle => possible_randint_eq hle le_rfl) (fun _ hi _ => ⟨hi, rfl⟩)
  intro i w hw hn
  obtain ⟨hshort, hleast⟩ := hr₁.resolved hs (hd₁.program part) hw hn
  obtain ⟨-, hgreatest⟩ := hr₂.resolved hs (hd₂.program part) hw hn
  refine ⟨hshort, fun line hline k hk => or_iff_not_imp_left.mpr fun hleft => ?_⟩
  have hlo : rank (s.program part) k = rank (s.program part) i + 1 := hleast line hline k hk hleft
  have hhi : rank (s.program part) k = (survivors (s.part part)).length :=
    hgreatest line hline k hk hleft
  constructor
  · by_contra hle
    have := rank_mono (s.program part) (Nat.le_of_not_lt hle)
    omega
  · intro j hij hj
    obtain ⟨v, hv, hvn⟩ := hj
    have hlt := (List.getElem?_eq_some_iff.mp (getElem?_survivors hv hvn)).1
    have hge := rank_mono (s.program part) (show i + 1 ≤ j from hij)
    rw [rank_after hw hn] at hge
    omega

/-- **Deletion preserves the program** in every outcome exactly if no reference is left to chance. -/
theorem deleteNop_iff (hs : s.Labelled) :
    (∀ world, ∃ r data world', m.deleteNop s world = .ok ((r, data), world') ∧ Deleted s r) ↔
      (∃ data, m.getData s.dataSeed = .ok data) ∧ ∀ part, Resolved s part := by
  constructor
  · intro h
    obtain ⟨_, data, _, hcall, _⟩ := h ⟨[], none, none⟩
    have hdata := data_of_deleteNop hcall
    refine ⟨⟨data, hdata⟩, resolved_of_outcomes hs fun D hdraw hD => ?_⟩
    obtain ⟨r, hr, hworld⟩ := reads_deleteNop Possible.logic hdraw hD hs hdata
    obtain ⟨world, hrun⟩ := hworld ⟨[], none, none⟩
    obtain ⟨r', data', world', hcall', hdel⟩ := h world
    rw [hrun] at hcall'
    obtain ⟨rfl, -⟩ := Prod.mk.inj (Prod.mk.inj (Except.ok.inj hcall')).1
    exact ⟨_, hr, hdel⟩
  · intro h world
    obtain ⟨⟨data, hdata⟩, hres⟩ := h
    have hdraw : ∀ lo hi : Nat, lo ≤ hi →
        Difuzz.Returns (randint (lo : Int) (hi : Int)) fun r => ∃ n : Nat, r = n ∧ lo ≤ n ∧ n ≤ hi := by
      intro lo hi hle
      refine (returns_randint (by omega)).mono fun r hr => ?_
      obtain ⟨n, rfl⟩ := Int.eq_ofNat_of_zero_le (show 0 ≤ r by omega)
      exact ⟨n, rfl, by omega⟩
    obtain ⟨⟨r, data'⟩, world', hrun, hr⟩ := reads_deleteNop Returns.logic hdraw
      (fun lo _ hle => ⟨lo, le_rfl, hle⟩) hs hdata world
    have hprogram : ∀ part, r.program part = delete (s.program part) := fun part =>
      hr.program (fun _ _ _ h => h) hs (hres part)
    refine ⟨r, data', world', hrun, hprogram, fun part i w hw => ?_, fun k w hw hn => hr.slices hw hn,
      fun part choose k v => ?_, hr.dataSeed, hr.template⟩
    · have hlt : i < (survivors (s.part part)).length :=
        hr.length part ▸ (List.getElem?_eq_some_iff.mp hw).1
      obtain ⟨j, hj, hn, hrank⟩ := exists_of_survivors (List.getElem?_eq_getElem hlt)
      obtain ⟨w', hw', hrel⟩ := hr.word hj hn
      rw [hrank] at hw' hrel
      rw [Option.some.inj (hw.symm.trans hw')]
      exact hrel.label
    · rw [hprogram]
      exact visits_delete _ _ _ _

end Inputs

namespace Demo

/-- A word of one instruction, as `read_siminput` makes it. -/
def wordOf (n : Nat) (inst : String) : Word where
  label := n
  insts := [inst.toList]
  populated := true
  retInsts := [labelCol .mainPart n ++ ljust 42 inst.toList]

/-- A test with a jump to the given word, a `nop` and two other words. -/
def jumpTo (target : Nat) : SimInput where
  prefixWords := []
  words :=
    [{ label := 0, insts := [refBody .mainPart "jal ra".toList target 0], populated := true,
       retInsts := [labelCol .mainPart 0 ++ ljust 42 (refBody .mainPart "jal ra".toList target 0)] },
     wordOf 1 "nop", wordOf 2 "add a0, a0, a0", wordOf 3 "add a1, a1, a1"]
  suffixWords := []
  ints := [0, 0, 0, 4]
  dataSeed := 0
  template := .pM

theorem wordOf_lines (n : Nat) {inst : String} (h : Plain inst.toList) :
    (wordOf n inst).Lines .mainPart fun _ => True :=
  ⟨[ljust 42 inst.toList], ⟨rfl, rfl, List.cons_ne_nil _ _, rfl⟩, rfl,
    List.forall_mem_singleton.mpr (.plain (h.ljust 42))⟩

theorem jumpTo_labelled (target : Nat) : (jumpTo target).Labelled := by
  intro part i w hw
  match part, i with
  | .mainPart, 0 =>
      cases hw
      exact ⟨rfl, [_], ⟨rfl, rfl, List.cons_ne_nil _ _, rfl⟩, rfl, List.forall_mem_singleton.mpr
        ((Body.ref 0 (by decide) trivial).ljust 42)⟩
  | .mainPart, 1 =>
      cases hw
      exact ⟨rfl, wordOf_lines 1 (by decide)⟩
  | .mainPart, 2 =>
      cases hw
      exact ⟨rfl, wordOf_lines 2 (by decide)⟩
  | .mainPart, 3 =>
      cases hw
      exact ⟨rfl, wordOf_lines 3 (by decide)⟩
  | .mainPart, i + 4 => cases hw
  | .prefixPart, i => cases hw
  | .suffixPart, i => cases hw

/-- What is left of the jump to the `nop`, when the second of three labels is drawn. -/
def jumped : SimInput :=
  match seeded.deleteNop (jumpTo 1) ⟨[1], none, none⟩ with
  | .ok r => r.1.1
  | .error _ => jumpTo 1

end Demo

/-- A jump to a word that is left. -/
theorem deleteNop_kept : (Demo.jumpTo 2).Labelled ∧
    ∀ world, ∃ r data world', Demo.seeded.deleteNop (Demo.jumpTo 2) world = .ok ((r, data), world') ∧
      Deleted (Demo.jumpTo 2) r := by
  refine ⟨Demo.jumpTo_labelled 2, ?_⟩
  refine (deleteNop_iff (Demo.jumpTo_labelled 2)).mpr ⟨⟨[1], by decide⟩, fun part i w hw hn => ?_⟩
  have hplain : ∀ (n : Nat) (inst : String), (∀ line ∈ (Demo.wordOf n inst).retInsts,
      (readLine .mainPart line).2 = none) → n < 100000 → n < 100000 ∧
      ∀ line ∈ (Demo.wordOf n inst).retInsts, ∀ k, (readLine .mainPart line).2 = some k →
        Left (Demo.jumpTo 2).words k ∨ (n < k ∧ ∀ j, n < j → ¬ Left (Demo.jumpTo 2).words j) :=
    fun n inst hnone hlt => ⟨hlt, fun line hline k hk => by rw [hnone line hline] at hk; cases hk⟩
  match part, i with
  | .mainPart, 0 =>
      cases hw
      refine ⟨by decide, List.forall_mem_singleton.mpr fun k hk => .inl ?_⟩
      obtain rfl : 2 = k := Option.some.inj ((by decide +kernel : _ = some 2).symm.trans hk)
      exact ⟨_, rfl, by decide⟩
  | .mainPart, 1 =>
      cases hw
      exact absurd rfl hn
  | .mainPart, 2 =>
      cases hw
      exact hplain 2 _ (by decide +kernel) (by decide)
  | .mainPart, 3 =>
      cases hw
      exact hplain 3 _ (by decide +kernel) (by decide)
  | .mainPart, i + 4 => cases hw
  | .prefixPart, i => cases hw
  | .suffixPart, i => cases hw

/-- A jump to a `nop` can leave out the word after it. -/
theorem deleteNop_jumps :
    (Demo.jumpTo 1).Labelled ∧
      Demo.seeded.deleteNop (Demo.jumpTo 1) ⟨[1], none, none⟩ =
        .ok ((Demo.jumped, [1]), ⟨[], none, none⟩) ∧
      ((Demo.jumped.program .mainPart).head?.map (·.lines) = some [("jal ra".toList, some 2)]) ∧
      ((delete ((Demo.jumpTo 1).program .mainPart)).head?.map (·.lines) =
        some [("jal ra".toList, some 1)]) ∧
      ¬ Deleted (Demo.jumpTo 1) Demo.jumped := by
  have hafter : (Demo.jumped.program .mainPart).head?.map (·.lines) =
      some [("jal ra".toList, some 2)] := by decide +kernel
  have hbefore : (delete ((Demo.jumpTo 1).program .mainPart)).head?.map (·.lines) =
      some [("jal ra".toList, some 1)] := by decide +kernel
  refine ⟨Demo.jumpTo_labelled 1, by decide +kernel, hafter, hbefore, fun h => ?_⟩
  rw [h.program .mainPart, hbefore] at hafter
  exact absurd hafter (by decide)

end Difuzz.Mutator
