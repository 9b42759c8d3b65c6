/-
  File:      DifuzzRtl/Mutator/Programs.lean
  Subject:   The programs that `get` returns: every word stands under its place as label, and its
             references satisfy a predicate.

  * `Refs` -- what the labels that a word refers to satisfy, by its type and its own label.
  * `Placed` -- a list of words before they are populated; `ensures_populateAll` after.
  * `ensures_genWords`, `ensures_mutateFold` -- where the words come from: a generator, or the words of
    a seed between fresh ones.
  * `SimInput.Printed` -- an input as `get` returns it; `get_printed` reduces it to the draft.
-/
import DifuzzRtl.Mutator.Relabel
import DifuzzRtl.Mutator.Seeds

namespace Difuzz.Mutator

open Text

/-- What the labels that a word refers to satisfy, by the type of the word and its label. -/
abbrev Refs := Tpe → Int → Nat → Prop

/-- A populated word that refers to labels as `S` says. -/
def Word.Refers (S : Refs) (w : Word) : Prop := w.Lines .mainPart (S w.tpe w.label)

/-- The words are at the places that their labels name, fresh or with references as `S` says. -/
def Placed (S : Refs) (words : List Word) : Prop :=
  ∀ (i : Nat) (w : Word), words[i]? = some w → w.label = i ∧ (w.Fresh ∨ w.Refers S)

/-- What a new word in a program of `n` words may refer to satisfies `S`. -/
def Refs.Admits (S : Refs) (n : Nat) : Prop :=
  ∀ tpe label k, k ≤ n → (tpe ≠ .memR → label < (k : Int)) → S tpe label k

/-! ## 1. Populating all words -/

theorem ensures_populateAll {S : Refs} {n : Nat} (hS : S.Admits n) {words : List Word}
    (hw : ∀ w ∈ words, (∃ l : Nat, w.label = l) ∧ (w.Fresh ∨ w.Refers S)) (g : Generator) :
    Ensures (populateAll n .mainPart g words) fun r =>
      List.Forall₂ (fun w w' => w'.label = w.label ∧ w'.Refers S) words r.1 := by
  induction words generalizing g with
  | nil => exact Ensures.pure .nil
  | cons w words ih =>
      obtain ⟨⟨l, hl⟩, hw₀⟩ := hw w List.mem_cons_self
      have hone : Ensures (g.populateWord w n .mainPart) fun r => r.1.label = w.label ∧ r.1.Refers S := by
        rcases hw₀ with hfresh | hlines
        · refine (ensures_populateWord hfresh hl n .mainPart).mono fun r hr => ?_
          obtain ⟨hlines, hlabel, htpe, -⟩ := hr
          refine ⟨hlabel, ?_⟩
          obtain ⟨bodies, hp, hlen, hb⟩ := hlines
          refine ⟨bodies, hp, hlen, fun b h => (hb b h).mono fun k hk => ?_⟩
          rw [htpe, hlabel]
          exact hS _ _ k hk.1 hk.2
        · have hstay : g.populateWord w n .mainPart = pure (w, g) := by
            rw [Generator.populateWord, if_pos hlines.populated]
          rw [hstay]
          exact Ensures.pure ⟨rfl, hlines⟩
      refine hone.bind fun r hr => ?_
      refine (ih (fun x hx => hw x (List.mem_cons_of_mem _ hx)) r.2).bind fun r' hr' => ?_
      exact Ensures.pure (.cons hr hr')

/-! ## 2. Words of a generator -/

theorem num_next (g : Generator) (part : Part) : (g.next part).num part = g.num part + 1 := by
  cases part <;> rfl

theorem ensures_genWords (part : Part) (n : Nat) (g : Generator) :
    Ensures (genWords part n g) fun r => r.1.length = n ∧
      ∀ (i : Nat) (w : Word), r.1[i]? = some w → w.label = (g.num part + i : Nat) ∧ w.Fresh := by
  induction n generalizing g with
  | zero => exact Ensures.pure ⟨rfl, fun i w h => by simp at h⟩
  | succ n ih =>
      refine (ensures_getWord g part).bind fun r hr => ?_
      obtain ⟨hfresh, hlabel, hnext⟩ := hr
      refine (ih r.2).bind fun r' hr' => Ensures.pure ⟨by rw [List.length_cons, hr'.1], ?_⟩
      intro i w h
      cases i with
      | zero =>
          obtain rfl : r.1 = w := by simpa using h
          exact ⟨hlabel, hfresh⟩
      | succ i =>
          obtain ⟨hl, hf⟩ := hr'.2 i w h
          rw [hnext, num_next] at hl
          exact ⟨by rw [hl]; omega, hf⟩

theorem ensures_newWord (selector : List Nat) (part : Part) :
    Ensures (newWord selector part) Word.Fresh :=
  Ensures.bind' fun _ => (ensures_getWord _ part).bind fun _ hr => Ensures.pure hr.1

theorem ensures_newWords (selector : List Nat) (part : Part) (k : Nat) :
    Ensures (newWords selector part k) fun ws => ∀ w ∈ ws, w.Fresh := by
  induction k with
  | zero => exact Ensures.pure fun w hw => (nomatch hw)
  | succ k ih =>
      refine (ensures_newWord selector part).bind fun w hw => ih.bind fun ws hws => ?_
      exact Ensures.pure (List.forall_mem_cons.mpr ⟨hw, hws⟩)

/-! ## 3. Words of a seed -/

/-- One round of the loop of `mutate_words` keeps what holds of the seed words and of fresh ones. -/
theorem ensures_mutateWord {selector : List Nat} {part : Part} {P : Word → Prop}
    (hP : ∀ w, w.Fresh → P w) {words : List Word} {word : Word} (hws : ∀ w ∈ words, P w)
    (hw : P word) : Ensures (mutateWord selector part words word) fun ws => ∀ w ∈ ws, P w := by
  have hadd : ∀ w ∈ words ++ [word], P w := by
    intro w h
    rcases List.mem_append.mp h with h | h
    · exact hws w h
    · rw [List.mem_singleton.mp h]
      exact hw
  refine Ensures.bind' fun rand => Ensures.ite (fun _ => Ensures.pure hadd) fun _ => ?_
  refine Ensures.ite (fun _ => ?_) fun _ => Ensures.ite (fun _ => ?_) fun _ =>
    Ensures.ite (fun _ => ?_) fun _ => Ensures.ite (fun _ => ?_) fun _ => ?_
  · refine Ensures.bind' fun k => (ensures_newWords selector part k).bind fun ws h => Ensures.pure ?_
    intro w hw
    rcases List.mem_append.mp hw with hw | hw
    · exact hadd w hw
    · exact hP w (h w hw)
  · refine (ensures_newWord selector part).bind fun v hv => Ensures.pure ?_
    intro w hw
    rcases List.mem_append.mp hw with hw | hw
    · exact hws w hw
    · rw [List.mem_singleton.mp hw]
      exact hP v hv
  · exact Ensures.pure (List.forall_mem_singleton.mpr hw)
  · exact (ensures_shuffle _).mono fun ws h w hw => hadd w (h.mem_iff.mp hw)
  · refine Ensures.bind' fun i => Ensures.pure ?_
    intro w hw
    simp only [List.mem_append, List.mem_singleton] at hw
    rcases hw with (hw | rfl) | hw
    · exact hws w (List.mem_of_mem_take hw)
    · assumption
    · exact hws w (List.mem_of_mem_drop hw)

theorem ensures_mutateFold {selector : List Nat} {part : Part} {P : Word → Prop}
    (hP : ∀ w, w.Fresh → P w) {seedWords : List Word} (hs : ∀ w ∈ seedWords, P w) :
    Ensures (seedWords.foldlM (mutateWord selector part) []) fun ws => ∀ w ∈ ws, P w :=
  Ensures.foldlM (fun _ hw => (nomatch hw)) fun _ hb a ha => ensures_mutateWord hP hb (hs a ha)

/-- Words that `reset_labels` has moved are at their places. -/
theorem placed_of_moved {S : Refs} {words words' : List Word}
    (h : List.Forall₂ (fun p w' => p.1.Moved .mainPart (fun w => S w.tpe (p.2 : Nat)) w' p.2)
      words.zipIdx words') : Placed S words' ∧ words'.length = words.length := by
  have hlen : words'.length = words.length := by rw [← h.length_eq, List.length_zipIdx]
  refine ⟨fun i w' hw' => ?_, hlen⟩
  obtain ⟨hi, rfl⟩ := List.getElem?_eq_some_iff.mp hw'
  have hz : i < words.zipIdx.length := by rw [List.length_zipIdx]; omega
  have hm := h.get hz hi
  simp only [List.get_eq_getElem, List.getElem_zipIdx, Nat.zero_add] at hm
  refine ⟨hm.label, ?_⟩
  rcases hm.state with ⟨-, hf⟩ | ⟨-, hl⟩
  · exact .inl hf
  · refine .inr ?_
    rw [Word.Refers, hm.tpe, hm.label]
    exact hl

/-! ## 4. Inputs -/

/-- The part of a mutator that its constructor fixes, and the bound on the number of words. -/
structure RvMutator.Sized (m : RvMutator) : Prop where
  numPrefix : m.numPrefix = 0
  numSuffix : m.numSuffix = 0
  numWords : m.numWords ≤ 20000
  maxNWords : m.maxNWords = 20000

/-- A draft: main words only, at their places. -/
structure Draft.Ok (S : Nat → Refs) (d : Draft) : Prop where
  prefixWords : d.prefixWords = []
  suffixWords : d.suffixWords = []
  length : d.words.length ≤ 20000
  placed : Placed (S d.words.length) d.words

/-- An input as `get` returns it. The predicate on references depends on the number of words. -/
structure SimInput.Printed (S : Nat → Refs) (si : SimInput) : Prop where
  prefixWords : si.prefixWords = []
  suffixWords : si.suffixWords = []
  length : si.words.length ≤ 20000
  labels : ∀ (i : Nat) (w : Word), si.words[i]? = some w → w.label = i
  refers : ∀ w ∈ si.words, w.Refers (S si.words.length)
  ints : si.ints.length = (si.words.map (·.lenInsts)).sum

theorem ensures_drawInts (n : Nat) (intr : Bool) :
    Ensures (RvMutator.drawInts n intr) fun ints => ints.length = n := by
  refine Ensures.ite (fun _ => ?_) fun _ => Ensures.pure (by simp)
  exact Ensures.bind' fun i => Ensures.bind' fun v => Ensures.pure (by simp)

theorem populateAll_nil {n : Int} {part : Part} {g : Generator} {w : World} {r : List Word × Generator}
    {w' : World} (h : populateAll n part g [] w = .ok (r, w')) : r.1 = [] := by
  have hp := StateT.pure_ok.mp h
  cases hp
  rfl

/-- **From the draft to the input**: `get` populates the words of the draft that it makes, and takes
    its data from the table. -/
theorem get_printed {selector : List Nat} {m m' : RvMutator} {intr : Bool} {si : SimInput}
    {data : List Int} {k : GeneratorKind} {w w' : World}
    (h : m.get selector intr w = .ok (((si, data, k), m'), w')) :
    ∃ w₁ t w₂ d g w₃, instGenerator selector w = .ok (k, w₁) ∧ choice k.templates w₁ = .ok (t, w₂) ∧
      m.draft selector { kind := k } t w₂ = .ok ((d, g), w₃) ∧
      (∃ w₄ w₅, m.seedData d.dataSeed w₄ = .ok ((si.dataSeed, m'), w₅)) ∧
      m'.getData si.dataSeed = .ok data ∧
      ∀ S : Nat → Refs, (S d.words.length).Admits d.words.length → d.Ok S → si.Printed S := by
  unfold RvMutator.get at h
  obtain ⟨kind, w₁, hkind, h⟩ := StateT.bind_ok.mp h
  obtain ⟨t, w₂, ht, h⟩ := StateT.bind_ok.mp h
  obtain ⟨⟨d, g⟩, w₃, hdraft, h⟩ := StateT.bind_ok.mp h
  obtain ⟨⟨pw, g₁⟩, w₄, hpw, h⟩ := StateT.bind_ok.mp h
  obtain ⟨⟨mw, g₂⟩, w₅, hmw, h⟩ := StateT.bind_ok.mp h
  obtain ⟨⟨sw, g₃⟩, w₆, hsw, h⟩ := StateT.bind_ok.mp h
  obtain ⟨ints, w₇, hints, h⟩ := StateT.bind_ok.mp h
  obtain ⟨⟨seed, m₁⟩, w₈, hseed, h⟩ := StateT.bind_ok.mp h
  obtain ⟨dat, w₉, hdata, h⟩ := StateT.bind_ok.mp h
  have hp := StateT.pure_ok.mp h
  simp only [Prod.mk.injEq] at hp
  obtain ⟨⟨⟨rfl, rfl, rfl⟩, rfl⟩, -⟩ := hp
  refine ⟨w₁, t, w₂, d, g, w₃, hkind, ht, hdraft, ⟨w₇, w₈, hseed⟩, (lift_ok.mp hdata).1,
    fun S hS hd => ?_⟩
  rw [hd.prefixWords] at hpw
  rw [hd.suffixWords] at hsw
  have hwords : ∀ w ∈ d.words, (∃ l : Nat, w.label = l) ∧ (w.Fresh ∨ w.Refers (S d.words.length)) := by
    intro w hw
    obtain ⟨i, hi, rfl⟩ := List.mem_iff_getElem.mp hw
    obtain ⟨hl, hr⟩ := hd.placed i _ (List.getElem?_eq_getElem hi)
    exact ⟨⟨i, hl⟩, hr⟩
  have hall := ensures_populateAll hS hwords g₁ w₄ _ _ hmw
  have hlen : mw.length = d.words.length := hall.length_eq.symm
  refine ⟨populateAll_nil hpw, populateAll_nil hsw, hlen ▸ hd.length, fun i w hw => ?_,
    fun w hw => ?_, ensures_drawInts _ _ _ _ _ hints⟩
  · obtain ⟨hi, rfl⟩ := List.getElem?_eq_some_iff.mp hw
    have hi' : i < d.words.length := hlen ▸ hi
    have hrel := hall.get hi' hi
    exact hrel.1.trans (hd.placed i _ (List.getElem?_eq_getElem hi')).1
  · obtain ⟨v, -, hv⟩ := Forall₂.mem_right hall hw
    show w.Refers (S mw.length)
    rw [hlen]
    exact hv.2

/-! ## 5. Drafts -/

variable {selector : List Nat} {m : RvMutator} {S : Nat → Refs}

/-- A generated draft has fresh words only. -/
theorem ensures_generate (hm : m.Sized) (kind : GeneratorKind) (t : Template) :
    Ensures (m.generate { kind := kind } t) fun r => r.1.Ok S := by
  unfold RvMutator.generate
  rw [hm.numPrefix, hm.numSuffix]
  refine (Ensures.pure (P := fun r => r = (([] : List Word), ({ kind := kind } : Generator))) rfl).bind
    fun r hr => ?_
  subst hr
  refine (ensures_genWords .mainPart m.numWords { kind := kind }).bind fun r hr => ?_
  refine (Ensures.pure (P := fun r' => r' = (([] : List Word), r.2)) rfl).bind fun r' hr' => ?_
  subst hr'
  refine Ensures.pure ⟨rfl, rfl, hr.1.trans_le hm.numWords, fun i w hw => ?_⟩
  obtain ⟨hl, hf⟩ := hr.2 i w hw
  rw [show Generator.num { kind := kind } .mainPart + i = i from Nat.zero_add i] at hl
  exact ⟨hl, .inl hf⟩

theorem mutateWords_nil {part : Part} {n : Nat} {w w' : World} {ws : List Word}
    (h : mutateWords selector [] part n w = .ok (ws, w')) : ws = [] ∧ w' = w := by
  unfold mutateWords at h
  obtain ⟨ws₁, w₁, h₁, h⟩ := StateT.bind_ok.mp h
  rw [List.foldlM_nil] at h₁
  cases StateT.pure_ok.mp h₁
  rw [List.take_nil] at h
  obtain ⟨r, w₂, hr, h⟩ := StateT.bind_ok.mp h
  obtain ⟨hr, rfl⟩ := lift_ok.mp hr
  cases hr
  have hpure : (pure [] : Rand (List Word)) w₂ = .ok (ws, w') := h
  cases StateT.pure_ok.mp hpure
  exact ⟨rfl, rfl⟩

/-- The main words of the seeds, from one entry or from two. -/
theorem seeds_words {d : Draft} {w w' : World} (h : m.seeds w = .ok (d, w')) :
    ∃ e ∈ m.corpus, ∃ e₂ ∈ m.corpus, ∃ idx ≤ min e.words.length e₂.words.length,
      d.words = e.words.take idx ++ e₂.words.drop idx ∧ d.prefixWords = e.prefixWords ∧
        d.suffixWords = e.suffixWords := by
  unfold RvMutator.seeds at h
  obtain ⟨e, w₁, he, h⟩ := StateT.bind_ok.mp h
  have hemem := ensures_choice m.corpus w e w₁ he
  cases hphase : m.phase with
  | merge =>
      rw [hphase] at h
      obtain ⟨e₂, w₂, he₂, h⟩ := StateT.bind_ok.mp h
      obtain ⟨idx, w₃, hidx, h⟩ := StateT.bind_ok.mp h
      cases StateT.pure_ok.mp h
      exact ⟨e, hemem, e₂, ensures_choice m.corpus _ _ _ he₂, idx,
        (ensures_randnat _ _ _ _ _ hidx).2, rfl, rfl, rfl⟩
  | generation =>
      rw [hphase] at h
      cases StateT.pure_ok.mp h
      exact ⟨e, hemem, e, hemem, 0, Nat.zero_le _, by simp, rfl, rfl⟩
  | mutation =>
      rw [hphase] at h
      cases StateT.pure_ok.mp h
      exact ⟨e, hemem, e, hemem, 0, Nat.zero_le _, by simp, rfl, rfl⟩

/-- The three stages of a mutation: the seeds, the loop over their words, and the labels. -/
theorem mutate_stages {d : Draft} {w w' : World} (hm : m.Sized)
    (hc : ∀ e ∈ m.corpus, e.prefixWords = [] ∧ e.suffixWords = [])
    (h : m.mutate selector w = .ok (d, w')) :
    d.prefixWords = [] ∧ d.suffixWords = [] ∧ ∃ d₀ w₁ ws w₂ w₃, m.seeds w = .ok (d₀, w₁) ∧
      d₀.words.foldlM (mutateWord selector .mainPart) [] w₁ = .ok (ws, w₂) ∧
      resetLabels (ws.take 20000) .mainPart w₂ = .ok (d.words, w₃) := by
  unfold RvMutator.mutate at h
  obtain ⟨d₀, w₁, hseeds, h⟩ := StateT.bind_ok.mp h
  obtain ⟨pw, w₂, hpw, h⟩ := StateT.bind_ok.mp h
  obtain ⟨mw, w₃, hmw, h⟩ := StateT.bind_ok.mp h
  obtain ⟨sw, w₄, hsw, h⟩ := StateT.bind_ok.mp h
  cases StateT.pure_ok.mp h
  obtain ⟨e, he, -, -, -, -, -, hpre, hsuf⟩ := seeds_words hseeds
  rw [hpre, (hc e he).1] at hpw
  rw [hsuf, (hc e he).2] at hsw
  obtain ⟨rfl, rfl⟩ := mutateWords_nil hpw
  obtain ⟨rfl, -⟩ := mutateWords_nil hsw
  unfold mutateWords at hmw
  obtain ⟨ws, w₅, hfold, hreset⟩ := StateT.bind_ok.mp hmw
  rw [hm.maxNWords] at hreset
  exact ⟨rfl, rfl, d₀, w₂, ws, w₅, w₃, hseeds, hfold, hreset⟩

/-- A mutated draft, from what `reset_labels` is given. -/
theorem draft_ok_of_resetLabels {d : Draft} {w w' : World} {ws : List Word} {R : Word → Nat → Prop}
    (hpre : d.prefixWords = []) (hsuf : d.suffixWords = [])
    (hws : ∀ w ∈ ws, w.Ready .mainPart R)
    (hreset : resetLabels (ws.take 20000) .mainPart w = .ok (d.words, w'))
    (hR : ∀ (i : Nat) (w : Word), (ws.take 20000)[i]? = some w → ∀ k v, R w k →
      Relocated (ws.take 20000) i k v → S (ws.take 20000).length w.tpe i v) : d.Ok S := by
  have hlen : (ws.take 20000).length ≤ 20000 := List.length_take_le _ _
  have hmoved : List.Forall₂ (fun p w' => p.1.Moved .mainPart
      (fun w => S (ws.take 20000).length w.tpe (p.2 : Nat)) w' p.2) (ws.take 20000).zipIdx d.words :=
    ensures_resetLabels (fun w hw => hws w (List.mem_of_mem_take hw)) (by omega) hR _ _ _ hreset
  obtain ⟨hplaced, hlen'⟩ : Placed (S (ws.take 20000).length) d.words ∧
    d.words.length = (ws.take 20000).length := placed_of_moved hmoved
  rw [← hlen'] at hplaced hlen
  exact ⟨hpre, hsuf, hlen, hplaced⟩

/-- A word of a printed input can be a seed. -/
theorem SimInput.Printed.ready {si : SimInput} (h : si.Printed S) {w : Word} (hw : w ∈ si.words) :
    w.Ready .mainPart fun w => S si.words.length w.tpe w.label := by
  obtain ⟨i, hi, rfl⟩ := List.mem_iff_getElem.mp hw
  have hl := h.labels i _ (List.getElem?_eq_getElem hi)
  have hlen := h.length
  exact .lines (h.refers _ hw) i hl (by omega)

/-! ## 6. Runs -/

/-- The table of a mutator that was never given data has entries of `64 * 6` words. -/
def RvMutator.Filled (m : RvMutator) : Prop :=
  ∀ seed d, m.randomData.get? seed = some d → d.length = 64 * 6

theorem ensures_seedData (hm : m.Filled) (ds : Option Nat) :
    Ensures (m.seedData ds) fun r => r.2.Filled := by
  cases ds with
  | some seed =>
      refine (Ensures.lift fun m' hm' => (updateDataSeeds_frame hm').2).bind fun m' hm' =>
        Ensures.pure ?_
      subst hm'
      exact hm
  | none =>
      refine Ensures.bind' fun r => ?_
      have hdata : Ensures (RvMutator.dataFor []) fun d => d.length = 64 * 6 := by
        refine (Ensures.mapM (R := fun _ _ => True) fun _ _ => Ensures.triv).mono fun d hd => ?_
        rw [← hd.length_eq, List.length_range]
      refine hdata.bind fun d hd => Ensures.pure fun seed x hx => ?_
      rw [Dict.get?_set] at hx
      split at hx
      · cases hx
        exact hd
      · exact hm seed x hx

/-- A state of a run without `read_siminput`. -/
structure Fuzz.Printed (S : Nat → Refs) (s : Fuzz) : Prop where
  sized : s.mutator.Sized
  filled : s.mutator.Filled
  corpus : ∀ e ∈ s.mutator.corpus, e.Printed S
  returned : ∀ e ∈ s.returned, e.1.Printed S ∧ e.2.length = 64 * 6

/-- The calls of a run without `read_siminput`. -/
def Call.Plain : Call → Prop
  | .readSiminput _ => False
  | _ => True

/-- The drafts that a call of `get` in another phase than `GENERATION` can make. -/
def MutatesOk (selector : List Nat) (S : Nat → Refs) (s : Fuzz) (c : Call) : Prop :=
  ∀ phase intr, c = .get phase intr → phase ≠ .generation →
    ∀ k w₁ t w₂ d w₃, instGenerator selector s.world = .ok (k, w₁) →
      choice k.templates w₁ = .ok (t, w₂) →
      { s.mutator with phase := phase }.mutate selector w₂ = .ok (d, w₃) → d.Ok S

theorem DataStep.sized {m m' : RvMutator} {seed : Nat} {data : List Int} (h : DataStep m seed data m')
    (hm : m.Sized) : m'.Sized := by
  cases h with
  | fresh h => exact ⟨hm.numPrefix, hm.numSuffix, hm.numWords, hm.maxNWords⟩
  | again hd he h =>
      obtain ⟨-, rfl⟩ := updateDataSeeds_frame h
      exact ⟨hm.numPrefix, hm.numSuffix, hm.numWords, hm.maxNWords⟩

theorem Fuzz.Printed.call {s s' : Fuzz} {c : Call} (hS : ∀ n, (S n).Admits n) (hs : s.Printed S)
    (hc : c.Plain) (hmut : MutatesOk selector S s c) (h : s.call selector c = some s') :
    s'.Printed S := by
  cases c with
  | readSiminput file => exact absurd hc id
  | get phase intr =>
      unfold Fuzz.call at h
      dsimp only at h
      split at h
      · rename_i si data k m w hg
        cases h
        have hsized : ({ s.mutator with phase := phase } : RvMutator).Sized :=
          ⟨hs.sized.numPrefix, hs.sized.numSuffix, hs.sized.numWords, hs.sized.maxNWords⟩
        obtain ⟨hstep, -⟩ := get_dataStep hg
        obtain ⟨w₁, t, w₂, d, g, w₃, hkind, ht, hdraft, ⟨w₄, w₅, hseed⟩, hdata, hprinted⟩ := get_printed hg
        have hfilled₀ : ({ s.mutator with phase := phase } : RvMutator).Filled := hs.filled
        have hfilled : m.Filled := ensures_seedData hfilled₀ _ _ _ _ hseed
        have hd : d.Ok S := by
          unfold RvMutator.draft at hdraft
          cases hp : phase with
          | generation =>
              rw [hp] at hdraft hsized
              exact ensures_generate hsized k t _ _ _ hdraft
          | mutation =>
              rw [hp] at hdraft
              obtain ⟨d', w', hd', hdraft⟩ := StateT.bind_ok.mp hdraft
              cases StateT.pure_ok.mp hdraft
              exact hmut phase intr rfl (by rw [hp]; decide) k w₁ t w₂ _ _ hkind ht (hp ▸ hd')
          | merge =>
              rw [hp] at hdraft
              obtain ⟨d', w', hd', hdraft⟩ := StateT.bind_ok.mp hdraft
              cases StateT.pure_ok.mp hdraft
              exact hmut phase intr rfl (by rw [hp]; decide) k w₁ t w₂ _ _ hkind ht (hp ▸ hd')
        refine ⟨hstep.sized hsized, hfilled, ?_, fun e he => ?_⟩
        · rw [hstep.frame.1]
          exact hs.corpus
        · rcases List.mem_append.mp he with he | he
          · exact hs.returned e he
          · rw [List.mem_singleton.mp he]
            exact ⟨hprinted S (hS _) hd, hfilled _ _ (getData_ok.mp hdata)⟩
      · cases h
  | addCorpus i =>
      rcases call_cases h with ⟨si, data, m, -, -, ⟨phase, intr, hc, -⟩ | ⟨file, hc, -⟩⟩ | ⟨j, e, -, he, rfl⟩
      · cases hc
      · cases hc
      · refine ⟨⟨hs.sized.numPrefix, hs.sized.numSuffix, ?_, hs.sized.maxNWords⟩, hs.filled, ?_,
          hs.returned⟩
        · have := hs.sized.maxNWords
          show min (s.mutator.numWords + 1) s.mutator.maxNWords ≤ 20000
          omega
        · intro x hx
          rcases mem_addCorpus hx with hx | rfl
          · exact hs.corpus x hx
          · exact (hs.returned e he).1

/-- **The programs of a run** are printed as `S` says, if the steps that mutate keep to it. -/
theorem run_printed {maxData corpusSize : Nat} {tr : List (Fuzz × Call × Fuzz)} {s : Fuzz}
    {P : Fuzz → Call → Prop} (hS : ∀ n, (S n).Admits n)
    (hP : ∀ s c, s.Printed S → P s c → c.Plain ∧ MutatesOk selector S s c)
    (h : (machine selector maxData corpusSize).Trace tr s) (htr : Machine.Along P tr) :
    s.Printed S := by
  refine h.inv (P := P) ?_ (fun s c s' hs hc hstep => ?_) htr
  · intro s hx
    obtain ⟨world, rfl⟩ := hx
    exact ⟨⟨rfl, rfl, show 200 ≤ 20000 by decide, rfl⟩, fun _ _ h => (nomatch h), fun e he => (nomatch he),
      fun e he => (nomatch he)⟩
  · exact hs.call hS (hP s c hs hc).1 (hP s c hs hc).2 hstep

/-- A new mutator with draws that are given. -/
def Fuzz.fresh (maxData corpusSize : Nat) (tape : List Nat) : Fuzz :=
  ⟨RvMutator.new maxData corpusSize, ⟨tape, none, none⟩, [], []⟩

theorem exec_fresh (selector : List Nat) (maxData corpusSize : Nat) (tape : List Nat) (cs : List Call) :
    (machine selector maxData corpusSize).Trace
      (exec (Fuzz.call selector) (Fuzz.fresh maxData corpusSize tape) cs).1
      (exec (Fuzz.call selector) (Fuzz.fresh maxData corpusSize tape) cs).2 := by
  have h₀ : (machine selector maxData corpusSize).Trace [] (Fuzz.fresh maxData corpusSize tape) :=
    Machine.Trace.start _ ⟨_, rfl⟩
  exact Machine.exec_trace (fun _ _ _ h => h) h₀ cs

end Difuzz.Mutator
