/-
  File:      DifuzzRtl/Mutator/Relabel.lean
  Subject:   What `reset_labels` does to the labels of a list of words and to their references.

  * `resetFrom_spec` -- the first loop: the words get their places as labels, and the map knows the
    places of populated words only.
  * `Relocated` -- where a reference can go: to a populated word that had the old label, or to a label
    after the word that refers to it.
  * `ensures_resetLabels` -- both loops together, for any predicate on references that relocation
    respects.
-/
import DifuzzRtl.Mutator.Populate

namespace Difuzz.Mutator

open Text

/-! ## 1. The labels -/

/-- A word that is fresh, or populated with references as `R` says, under a label of five digits. -/
inductive Word.Ready (part : Part) (R : Word → Nat → Prop) (w : Word) : Prop where
  | fresh (h : w.Fresh) : Word.Ready part R w
  | lines (h : w.Lines part (R w)) (l : Nat) (hl : w.label = l) (hlt : l < 100000) : Word.Ready part R w

/-- The word after it was moved to a label: what it refers to satisfies `R`. -/
structure Word.Moved (part : Part) (R : Word → Nat → Prop) (w w' : Word) (label : Nat) : Prop where
  label : w'.label = label
  tpe : w'.tpe = w.tpe
  insts : w'.insts = w.insts
  state : (w.populated = false ∧ w'.Fresh) ∨ (w.populated = true ∧ w'.Lines part (R w))

theorem Word.Lines.populated {w : Word} {part : Part} {R : Nat → Prop} (h : w.Lines part R) :
    w.populated = true := by
  obtain ⟨_, hp, _⟩ := h
  exact hp.populated

theorem Word.Ready.resetLabel {part : Part} {R : Word → Nat → Prop} {w : Word} (h : w.Ready part R)
    (n : Nat) : ∃ w', w.resetLabel n part = .ok (w', if w.populated then some (w.label, (n : Int)) else none) ∧
      w.Moved part R w' n := by
  cases h with
  | fresh h =>
      refine ⟨{ w with label := n }, ?_, rfl, rfl, rfl, .inl ⟨h.unpopulated, ⟨h.unpopulated, h.noPrefix, h.shape⟩⟩⟩
      rw [Word.resetLabel_unpopulated h.unpopulated, h.unpopulated]
      rfl
  | lines h l hl hlt =>
      obtain ⟨bodies, hp, hlen, hb⟩ := h
      have hcol : (labelCol part w.label).length = 8 := by
        rw [hl]
        exact length_labelCol hlt
      obtain ⟨w', hw', hp', hlabel, hinsts, htpe⟩ := Word.resetLabel_prints hp hcol n
      refine ⟨w', ?_, hlabel, htpe, hinsts, .inr ⟨hp.populated, _, hp', ?_, ?_⟩⟩
      · rw [hw', hp.populated]
        rfl
      · rw [hinsts, ← hlen]
        cases bodies with
        | nil => exact absurd rfl hp.nonempty
        | cons b bs => rfl
      · intro b' hb'
        cases bodies with
        | nil => exact absurd rfl hp.nonempty
        | cons b bs =>
            rcases List.mem_cons.mp hb' with rfl | hb'
            · exact (hb b List.mem_cons_self).ljust 42
            · exact hb b' (List.mem_cons_of_mem _ hb')

/-- What the map of `reset_labels` can have: the places of populated words, under their old labels. -/
def PlacedIn (words : List Word) (n : Nat) (k v : Int) : Prop :=
  ∃ i w, words[i]? = some w ∧ w.populated = true ∧ w.label = k ∧ v = (n + i : Nat)

theorem PlacedIn.cons {w : Word} {words : List Word} {n : Nat} {k v : Int}
    (h : PlacedIn words (n + 1) k v) : PlacedIn (w :: words) n k v := by
  obtain ⟨i, w', hw', hp, hk, hv⟩ := h
  exact ⟨i + 1, w', hw', hp, hk, by rw [hv]; omega⟩

/-- **The first loop of `reset_labels`**. -/
theorem resetFrom_spec {part : Part} {R : Word → Nat → Prop} {words : List Word}
    (hw : ∀ w ∈ words, w.Ready part R) (n : Nat) (labelMap : Dict Int Int) :
    ∃ words' labelMap', resetFrom part n labelMap words = .ok (words', labelMap') ∧
      List.Forall₂ (fun p w' => p.1.Moved part R w' p.2) (words.zipIdx n) words' ∧
      ∀ k v, labelMap'.get? k = some v → labelMap.get? k = some v ∨ PlacedIn words n k v := by
  induction words generalizing n labelMap with
  | nil => exact ⟨[], labelMap, rfl, .nil, fun k v h => .inl h⟩
  | cons w words ih =>
      obtain ⟨w', hreset, hmoved⟩ := (hw w List.mem_cons_self).resetLabel n
      obtain ⟨words', labelMap', he, hall, hmap⟩ :=
        ih (fun x hx => hw x (List.mem_cons_of_mem _ hx)) (n + 1)
          (if w.populated then labelMap.set w.label n else labelMap)
      refine ⟨w' :: words', labelMap', ?_, .cons hmoved hall, fun k v h => ?_⟩
      · rw [resetFrom, hreset]
        cases hp : w.populated with
        | true =>
            rw [hp] at he
            change (resetFrom part (n + 1) (labelMap.set w.label n) words >>= fun r =>
              Except.ok (w' :: r.1, r.2)) = _
            rw [show labelMap.set w.label n = if true = true then labelMap.set w.label n else labelMap from
              rfl, he]
            rfl
        | false =>
            rw [hp] at he
            change (resetFrom part (n + 1) labelMap words >>= fun r =>
              Except.ok (w' :: r.1, r.2)) = _
            rw [show labelMap = if false = true then labelMap.set w.label n else labelMap from rfl, he]
            rfl
      · rcases hmap k v h with h | h
        · cases hp : w.populated with
          | true =>
              rw [hp, if_pos rfl, Dict.get?_set] at h
              split at h
              · rename_i hk
                cases h
                exact .inr ⟨0, w, rfl, hp, hk.symm, by simp⟩
              · exact .inl h
          | false =>
              rw [hp, if_neg (by decide)] at h
              exact .inl h
        · exact .inr h.cons

/-! ## 2. The references -/

section Repop

variable {part : Part} {w : Word} {R R' : Nat → Prop} {labelMap : Dict Int Int} {maxLabel label : Nat}

/-- What the map and the draw make of a reference satisfies `R'`. -/
def Follows (R R' : Nat → Prop) (labelMap : Dict Int Int) (label maxLabel : Nat) : Prop :=
  ∀ k, R k → ∀ r : Nat, label < r → r ≤ maxLabel → ∃ v : Nat, labelMap.getD k r = v ∧ R' v

/-- One line of `repop_label`: the columns of the label stay, the body follows. -/
theorem ensures_repopInst (hpre : w.labelPrefix = []) (hl : w.label = label)
    (hf : Follows R R' labelMap label maxLabel) {col : Text} (hcol : ',' ∉ col) (hlen : col.length = 8)
    {b : Text} (hb : Body part R b) :
    Ensures (w.repopInst labelMap maxLabel part (col ++ b)) fun t => ∃ b', t = col ++ b' ∧
      Body part R' b' := by
  cases hb with
  | plain h =>
      rw [repopInst_plain hcol h.1]
      exact Ensures.pure ⟨b, rfl, Body.plain h⟩
  | ref blanks h hk =>
      rename_i a k
      have hund : '_' ∉ col.drop 8 := by
        rw [List.drop_of_length_le (Nat.le_of_eq hlen)]
        exact List.not_mem_nil
      rw [repopInst_ref hcol (Nat.le_of_eq hlen.symm) hund hpre h.1]
      refine (ensures_randint _ _).bind fun r hr => Ensures.pure ⟨_, rfl, ?_⟩
      rw [hl] at hr
      obtain ⟨r, rfl⟩ := Int.eq_ofNat_of_zero_le (show 0 ≤ r by omega)
      obtain ⟨v, hv, hR⟩ := hf k hk r (by omega) (by omega)
      rw [hv]
      exact (Body.ref blanks h hR).ljust _
  | data blanks h hi hj =>
      rw [repopInst_data hcol h.1]
      exact Ensures.pure ⟨_, rfl, Body.data blanks h hi hj⟩

/-- Lines with blanks in the columns of the label. -/
theorem bodies_of_lines {P : Text → Prop} {lines : List Text}
    (h : ∀ t ∈ lines, ∃ b, t = ljust 8 [] ++ b ∧ P b) :
    ∃ bodies : List Text, lines = bodies.map (ljust 8 [] ++ ·) ∧ ∀ b ∈ bodies, P b := by
  induction lines with
  | nil => exact ⟨[], rfl, fun b hb => (nomatch hb)⟩
  | cons t lines ih =>
      obtain ⟨b, rfl, hb⟩ := h t List.mem_cons_self
      obtain ⟨bodies, rfl, hbs⟩ := ih fun t ht => h t (List.mem_cons_of_mem _ ht)
      exact ⟨b :: bodies, rfl, List.forall_mem_cons.mpr ⟨hb, hbs⟩⟩

/-- **The second loop of `reset_labels`**, for a populated word. -/
theorem ensures_repopLabel (hw : w.Lines part R) (hl : w.label = label) (hlt : label < 100000)
    (hf : Follows R R' labelMap label maxLabel) :
    Ensures (w.repopLabel labelMap maxLabel part) fun w' => w'.Lines part R' ∧ w'.label = w.label ∧
      w'.tpe = w.tpe ∧ w'.insts = w.insts := by
  obtain ⟨bodies, hp, hlen, hb⟩ := hw
  refine Ensures.ite (fun _ => ?_) fun h => absurd hp.populated h
  cases bodies with
  | nil => exact absurd rfl hp.nonempty
  | cons b bs =>
      have hcol : ',' ∉ labelCol part w.label ∧ (labelCol part w.label).length = 8 := by
        rw [hl]
        exact ⟨not_mem_labelCol (by decide) (by decide), length_labelCol hlt⟩
      have hlines : Ensures (w.retInsts.mapM (w.repopInst labelMap maxLabel part)) fun ts =>
          ∃ bodies, bodies ≠ [] ∧ bodies.length = w.insts.length ∧ (∀ b ∈ bodies, Body part R' b) ∧
            ts = wordLines (labelCol part w.label) bodies := by
        rw [hp.lines, wordLines, List.mapM_cons]
        refine (ensures_repopInst hp.noPrefix hl hf hcol.1 hcol.2 (hb b List.mem_cons_self)).bind
          fun t ht => ?_
        obtain ⟨b', rfl, hb'⟩ := ht
        have hrest : Ensures ((bs.map (ljust 8 [] ++ ·)).mapM (w.repopInst labelMap maxLabel part))
            (List.Forall₂ (fun _ t => ∃ b', t = ljust 8 [] ++ b' ∧ Body part R' b')
              (bs.map (ljust 8 [] ++ ·))) := by
          refine Ensures.mapM fun line hline => ?_
          obtain ⟨c, hc, rfl⟩ := List.mem_map.mp hline
          exact ensures_repopInst hp.noPrefix hl hf (by decide) (by decide)
            (hb c (List.mem_cons_of_mem _ hc))
        refine hrest.bind fun ts hts => Ensures.pure ?_
        obtain ⟨bs', rfl, hbs'⟩ := bodies_of_lines fun t ht =>
          (Forall₂.mem_right hts ht).elim fun _ h => h.2
        refine ⟨b' :: bs', List.cons_ne_nil _ _, ?_, List.forall_mem_cons.mpr ⟨hb', hbs'⟩, rfl⟩
        have := hts.length_eq
        rw [List.length_map, List.length_map] at this
        rw [← hlen, List.length_cons, List.length_cons, this]
      refine hlines.bind fun ts hts => Ensures.pure ?_
      obtain ⟨bodies, hne, hlen', hall, rfl⟩ := hts
      exact ⟨⟨bodies, ⟨hp.populated, hp.noPrefix, hne, rfl⟩, hlen', hall⟩, rfl, rfl, rfl⟩

end Repop

/-! ## 3. Both loops -/

/-- Where a reference of the word at a place can go: to a populated word that had the old label, or
    to a label after the word itself. -/
def Relocated (words : List Word) (i k v : Nat) : Prop :=
  (∃ w, words[v]? = some w ∧ w.populated = true ∧ w.label = k) ∨ (i < v ∧ v ≤ words.length)

/-- **`reset_labels`** moves every word to its place, and its references go where they can. -/
theorem ensures_resetLabels {part : Part} {R : Word → Nat → Prop} {R' : Nat → Word → Nat → Prop}
    {words : List Word} (hw : ∀ w ∈ words, w.Ready part R) (hlen : words.length ≤ 100000)
    (hR : ∀ i w, words[i]? = some w → ∀ k v, R w k → Relocated words i k v → R' i w v) :
    Ensures (resetLabels words part)
      (List.Forall₂ (fun p w' => p.1.Moved part (R' p.2) w' p.2) words.zipIdx) := by
  obtain ⟨words', labelMap, he, hall, hmap⟩ := resetFrom_spec hw 0 Dict.empty
  have hlen' : words'.length = words.length := by
    rw [← hall.length_eq, List.length_zipIdx]
  have hl : Ensures (lift (resetFrom part 0 Dict.empty words) : Rand _) (· = (words', labelMap)) := by
    rw [he]
    refine Ensures.lift fun r hr => ?_
    cases hr
    rfl
  refine hl.bind fun r hr => ?_
  subst hr
  refine Ensures.mapM₂ hall fun p hp w' hw' => ?_
  have hget : words[p.2]? = some p.1 := List.mem_zipIdx_iff_getElem?.mp hp
  have hlt : p.2 < words.length := (List.getElem?_eq_some_iff.mp hget).1
  rcases hw'.state with ⟨hp, hfresh⟩ | ⟨hp, hlines⟩
  · have hstay : w'.repopLabel labelMap (words'.length : Nat) part = pure w' := by
      rw [Word.repopLabel, if_neg (by rw [hfresh.unpopulated]; decide)]
    show Ensures (w'.repopLabel labelMap (words'.length : Nat) part) _
    rw [hstay]
    exact Ensures.pure ⟨hw'.label, hw'.tpe, hw'.insts, .inl ⟨hp, hfresh⟩⟩
  · have hf : Follows (R p.1) (R' p.2 p.1) labelMap p.2 words'.length := by
      intro k hk r hr hr'
      cases hv : labelMap.get? k with
      | some v =>
          rcases hmap k v hv with h | ⟨i, w, hi, hpop, hlab, rfl⟩
          · cases h
          · refine ⟨i, by rw [Dict.getD, hv]; simp, hR p.2 p.1 hget k i hk ?_⟩
            exact .inl ⟨w, hi, hpop, hlab⟩
      | none =>
          refine ⟨r, by rw [Dict.getD, hv]; rfl, hR p.2 p.1 hget k r hk ?_⟩
          exact .inr ⟨hr, by omega⟩
    refine (ensures_repopLabel hlines hw'.label (by omega) hf).mono fun w'' h => ?_
    exact ⟨h.2.1.trans hw'.label, h.2.2.1.trans hw'.tpe, h.2.2.2.trans hw'.insts, .inr ⟨hp, h.1⟩⟩

end Difuzz.Mutator
