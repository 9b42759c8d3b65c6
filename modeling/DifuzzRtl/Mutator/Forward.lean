/-
  File:      DifuzzRtl/Mutator/Forward.lean
  Subject:   Whether generated programs only go forward: the targets of jumps, branches and trap returns
             against the labels of the words that contain them.

  * `SimInput.Forward` -- read from the texts of the lines.
  * A mutation that moves a word of the seed past another one can turn a target around
    (`not_forward_swapped`): the references follow the words.
  * `KeepsOrder` -- the random choices of a call leave the words of the seeds in their order. Programs of
    runs whose calls all do so go forward (`forward_of_keepsOrder`).
-/
import DifuzzRtl.Mutator.Links

namespace Difuzz.Mutator

open Text

/-! ## 1. Targets -/

/-- Jumps, branches and trap returns. -/
def Tpe.isFlow : Tpe → Bool
  | .cfJ | .cfBr | .cfRet => true
  | _ => false

/-- Every target of a jump, a branch or a trap return is after the word that contains it. The first
    eight columns of a line are those of the label. -/
def SimInput.Forward (si : SimInput) : Prop :=
  ∀ w ∈ si.words, w.tpe.isFlow = true → ∀ line ∈ w.retInsts, ∀ k : Nat,
    labelName k ∈ symbolsOf ['_', 'l'] (line.drop 8) → w.label < k

/-- In range, and ahead for the words that change the flow. -/
def ahead (n : Nat) : Refs := fun tpe label k => k ≤ n ∧ (tpe.isFlow = true → label < (k : Int))

theorem labelName_inj {j k : Nat} (h : labelName j = labelName k) : j = k := by
  have hd : digits 10 j = digits 10 k := List.append_cancel_left h
  have hj : pyInt 10 (intText j) = some (j : Int) := pyInt_intText j
  have hk : pyInt 10 (intText k) = some (k : Int) := pyInt_intText k
  rw [show intText j = intText k from hd, hk] at hj
  exact Int.ofNat.inj (Option.some.inj hj).symm

/-- The lines of a printed input go forward if its references are ahead. -/
theorem SimInput.Printed.forward {si : SimInput} (h : si.Printed ahead) : si.Forward := by
  intro w hw hflow line hline k hk
  obtain ⟨i, hi, rfl⟩ := List.mem_iff_getElem.mp hw
  have hlabel := h.labels i _ (List.getElem?_eq_getElem hi)
  obtain ⟨bodies, hp, -, hb⟩ := h.refers _ hw
  have hbody : ∃ b ∈ bodies, line.drop 8 = b := by
    rw [hp.lines, hlabel] at hline
    have hlen := h.length
    have hcol : (labelCol .mainPart i).length = 8 := length_labelCol (by omega)
    cases bodies with
    | nil => cases hline
    | cons b bs =>
        rcases List.mem_cons.mp hline with rfl | hline
        · exact ⟨b, List.mem_cons_self, List.drop_left' hcol⟩
        · obtain ⟨c, hc, rfl⟩ := List.mem_map.mp hline
          exact ⟨c, List.mem_cons_of_mem _ hc, List.drop_left' (by decide)⟩
  obtain ⟨b, hbmem, hdrop⟩ := hbody
  rw [hdrop] at hk
  obtain ⟨k', hk', e⟩ := (hb b hbmem).labels _ hk
  rw [labelName_inj e]
  exact hk'.2 hflow

/-! ## 2. The order of the seed words -/

/-- The populated words of a list: in the loop of `mutate_words`, those of the seed. -/
def seedsOf (words : List Word) : List Word := words.filter (·.populated)

/-- In this round, a shuffle leaves the seed words in their order, and an insertion is after all of
    them. -/
def OrderedRound (words : List Word) (word : Word) (w : World) : Prop :=
  ∀ rand w₁, percent w = .ok (rand, w₁) →
    (82 ≤ rand → rand < 90 → ∀ ws w₂, shuffle (words ++ [word]) w₁ = .ok (ws, w₂) →
      seedsOf ws = seedsOf (words ++ [word])) ∧
    (90 ≤ rand → ∀ i w₂, randnat 0 words.length w₁ = .ok (i, w₂) → seedsOf (words.drop i) = [])

/-- The same for all rounds of the loop, from the words so far and the seed words that are left. -/
def OrderedRounds (selector : List Nat) (part : Part) : List Word → List Word → World → Prop
  | _, [], _ => True
  | words, word :: seedWords, w => OrderedRound words word w ∧
      ∀ words' w', mutateWord selector part words word w = .ok (words', w') →
        OrderedRounds selector part words' seedWords w'

/-- The draws of a call keep the order of the seed words. The lists of words before and after the main
    part are empty. -/
def KeepsOrder (selector : List Nat) (s : Fuzz) : Call → Prop
  | .get phase _ => phase ≠ .generation → ∀ k w₁ t w₂ d w₃, instGenerator selector s.world = .ok (k, w₁) →
      choice k.templates w₁ = .ok (t, w₂) → { s.mutator with phase := phase }.seeds w₂ = .ok (d, w₃) →
      OrderedRounds selector .mainPart [] d.words w₃
  | _ => True

theorem seedsOf_append (l l' : List Word) : seedsOf (l ++ l') = seedsOf l ++ seedsOf l' :=
  List.filter_append l l'

theorem seedsOf_fresh {ws : List Word} (h : ∀ w ∈ ws, w.Fresh) : seedsOf ws = [] := by
  rw [seedsOf, List.filter_eq_nil_iff]
  intro w hw
  rw [(h w hw).unpopulated]
  decide

/-- **A round that keeps the order** appends the seed word to the seed words, or leaves some out. -/
theorem mutateWord_sublist {selector : List Nat} {part : Part} {words words' : List Word} {word : Word}
    {w w' : World} (hp : word.populated = true) (ho : OrderedRound words word w)
    (h : mutateWord selector part words word w = .ok (words', w')) :
    (seedsOf words').Sublist (seedsOf words ++ [word]) := by
  have hword : seedsOf [word] = [word] := by simp [seedsOf, hp]
  have hadd : seedsOf (words ++ [word]) = seedsOf words ++ [word] := by rw [seedsOf_append, hword]
  unfold mutateWord at h
  obtain ⟨rand, w₁, hrand, h⟩ := StateT.bind_ok.mp h
  obtain ⟨hshuffle, hinsert⟩ := ho rand w₁ hrand
  split_ifs at h
  · cases StateT.pure_ok.mp h
    rw [hadd]
  · obtain ⟨k, w₂, -, h⟩ := StateT.bind_ok.mp h
    obtain ⟨ws, w₃, hws, h⟩ := StateT.bind_ok.mp h
    cases StateT.pure_ok.mp h
    rw [seedsOf_append, seedsOf_fresh (ensures_newWords selector part k _ _ _ hws), List.append_nil, hadd]
  · obtain ⟨v, w₂, hv, h⟩ := StateT.bind_ok.mp h
    cases StateT.pure_ok.mp h
    have hfresh : ∀ x ∈ [v], x.Fresh :=
      List.forall_mem_singleton.mpr (ensures_newWord selector part _ _ _ hv)
    rw [seedsOf_append, seedsOf_fresh hfresh, List.append_nil]
    exact List.sublist_append_left _ _
  · cases StateT.pure_ok.mp h
    rw [hword]
    exact List.sublist_append_right _ _
  · rw [hshuffle (by omega) (by omega) _ _ h, hadd]
  · obtain ⟨i, w₂, hi, h⟩ := StateT.bind_ok.mp h
    cases StateT.pure_ok.mp h
    have hdrop := hinsert (by omega) i _ hi
    have hall : seedsOf words = seedsOf (words.take i) := by
      conv_lhs => rw [← List.take_append_drop i words]
      rw [seedsOf_append, hdrop, List.append_nil]
    rw [seedsOf_append, seedsOf_append, hdrop, List.append_nil, hword, ← hall]

/-- The loop of `mutate_words`. -/
theorem mutateFold_sublist {selector : List Nat} {part : Part} {seedWords words ws past : List Word}
    {w w' : World} (hp : ∀ v ∈ seedWords, v.populated = true)
    (ho : OrderedRounds selector part words seedWords w) (hpast : (seedsOf words).Sublist past)
    (h : seedWords.foldlM (mutateWord selector part) words w = .ok (ws, w')) :
    (seedsOf ws).Sublist (past ++ seedWords) := by
  induction seedWords generalizing words past w with
  | nil =>
      rw [List.foldlM_nil] at h
      cases StateT.pure_ok.mp h
      rw [List.append_nil]
      exact hpast
  | cons v seedWords ih =>
      rw [List.foldlM_cons] at h
      obtain ⟨words', w₁, hround, h⟩ := StateT.bind_ok.mp h
      have hsub := mutateWord_sublist (hp v List.mem_cons_self) ho.1 hround
      rw [List.append_cons]
      refine ih (fun x hx => hp x (List.mem_cons_of_mem _ hx)) (ho.2 words' w₁ hround) ?_ h
      exact hsub.trans (hpast.append (List.Sublist.refl _))

/-! ## 3. Runs -/

/-- The labels of the words of a seed, from one entry or from two, are their places. -/
theorem seeds_labels {m : RvMutator} {S : Nat → Refs} (hc : ∀ e ∈ m.corpus, e.Printed S) {d : Draft}
    {w w' : World} (h : m.seeds w = .ok (d, w')) (i : Nat) (v : Word) (hv : d.words[i]? = some v) :
    v.label = i ∧ ∃ e ∈ m.corpus, v ∈ e.words := by
  obtain ⟨e, he, e₂, he₂, idx, hidx, hwords, -, -⟩ := seeds_words h
  have hlen : (e.words.take idx).length = idx := by
    rw [List.length_take]
    omega
  rw [hwords] at hv
  by_cases hi : i < idx
  · rw [List.getElem?_append_left (by omega), List.getElem?_take_of_lt hi] at hv
    exact ⟨(hc e he).labels i v hv, e, he, List.mem_of_getElem? hv⟩
  · rw [List.getElem?_append_right (by omega), hlen, List.getElem?_drop,
      Nat.add_sub_cancel' (by omega)] at hv
    exact ⟨(hc e₂ he₂).labels i v hv, e₂, he₂, List.mem_of_getElem? hv⟩

/-- A target that is after its word in the seed is after it in a list that keeps the order. -/
theorem relocated_ahead {words : List Word} {i k v : Nat} {w : Word}
    (hsorted : (seedsOf words).Pairwise fun a b => a.label < b.label) (hw : words[i]? = some w)
    (hp : w.populated = true) (hk : w.label < k) (h : Relocated words i k v) : i < v := by
  rcases h with ⟨w', hw', hp', hl'⟩ | ⟨h, -⟩
  · rw [seedsOf, List.pairwise_filter, List.pairwise_iff_getElem] at hsorted
    obtain ⟨hi, rfl⟩ := List.getElem?_eq_some_iff.mp hw
    obtain ⟨hv, rfl⟩ := List.getElem?_eq_some_iff.mp hw'
    by_contra hle
    rcases Nat.lt_or_eq_of_le (Nat.le_of_not_lt hle) with hlt | rfl
    · have := hsorted v i hv hi hlt hp' hp
      omega
    · omega
  · exact h

theorem mutatesOk_ahead {selector : List Nat} {s : Fuzz} (hs : s.Printed ahead) {c : Call}
    (hc : KeepsOrder selector s c) : MutatesOk selector ahead s c := by
  rintro phase intr rfl hphase k w₁ t w₂ d w₃ hkind ht hmut
  have hsized : ({ s.mutator with phase := phase } : RvMutator).Sized :=
    ⟨hs.sized.numPrefix, hs.sized.numSuffix, hs.sized.numWords, hs.sized.maxNWords⟩
  obtain ⟨hpre, hsuf, d₀, w₄, ws, w₅, w₆, hseeds, hfold, hreset⟩ := mutate_stages hsized
    (fun e he => ⟨(hs.corpus e he).prefixWords, (hs.corpus e he).suffixWords⟩) hmut
  have hlabels := seeds_labels (m := { s.mutator with phase := phase }) hs.corpus hseeds
  -- The references of a seed word are ahead of it; a fresh word has none yet.
  have hready : ∀ v ∈ d₀.words, v.populated = true ∧ v.Ready .mainPart fun v k =>
      v.populated = true ∧ (v.tpe.isFlow = true → v.label < (k : Int)) := by
    intro v hv
    obtain ⟨i, hi, rfl⟩ := List.mem_iff_getElem.mp hv
    obtain ⟨-, e, he, hmem⟩ := hlabels i _ (List.getElem?_eq_getElem hi)
    have href := (hs.corpus e he).refers _ hmem
    refine ⟨href.populated, ?_⟩
    cases (hs.corpus e he).ready hmem with
    | fresh h => exact .fresh h
    | lines h l hl hlt =>
        obtain ⟨bodies, hp, hlen, hb⟩ := h
        exact .lines ⟨bodies, hp, hlen, fun b h => (hb b h).mono fun k hk =>
          ⟨hp.populated, hk.2⟩⟩ l hl hlt
  have hsub : (seedsOf ws).Sublist d₀.words :=
    mutateFold_sublist (fun v hv => (hready v hv).1) (hc hphase k w₁ t w₂ d₀ w₄ hkind ht hseeds)
      (List.Sublist.refl []) hfold
  have hseed : d₀.words.Pairwise fun a b => a.label < b.label := by
    rw [List.pairwise_iff_getElem]
    intro i j hi hj hij
    rw [(hlabels i _ (List.getElem?_eq_getElem hi)).1, (hlabels j _ (List.getElem?_eq_getElem hj)).1]
    omega
  have hsorted : (seedsOf (ws.take 20000)).Pairwise fun a b => a.label < b.label :=
    (hseed.sublist hsub).sublist ((List.take_sublist _ _).filter _)
  have hall := ensures_mutateFold (fun w h => Word.Ready.fresh h) (fun v hv => (hready v hv).2) _ _ _ hfold
  refine draft_ok_of_resetLabels hpre hsuf hall hreset fun i v hv k l hk hl => ⟨?_, fun hflow => ?_⟩
  · rcases hl with ⟨v', hv', -⟩ | ⟨-, hl⟩
    · exact Nat.le_of_lt (List.getElem?_eq_some_iff.mp hv').1
    · exact hl
  · have := relocated_ahead hsorted hv hk.1 (hk.2 hflow) hl
    omega

/-- **Programs go forward** in every run of `get` and `add_corpus` calls whose draws keep the order of
    the seed words. -/
theorem forward_of_keepsOrder {selector : List Nat} {maxData corpusSize : Nat}
    {tr : List (Fuzz × Call × Fuzz)} {s : Fuzz} (h : (machine selector maxData corpusSize).Trace tr s)
    (htr : Machine.Along (fun s c => c.Plain ∧ KeepsOrder selector s c) tr) :
    ∀ e ∈ s.returned, e.1.Forward := by
  have hs : s.Printed ahead := run_printed
    (fun n tpe label k hk hnew => ⟨hk, fun hflow => hnew (by rintro rfl; cases hflow)⟩)
    (fun s c hs hc => ⟨hc.1, mutatesOk_ahead hs hc.2⟩) h htr
  exact fun e he => (hs.returned e he).1.forward

/-! ### A run that keeps the order -/

/-- Draws for which each round keeps its word at the end, alone or not. -/
def Calm (w : World) : Prop := ∀ n ∈ w.tape, n % 100 < 70 ∨ n % 100 = 80

theorem percent_calm {w w' : World} {rand : Nat} (hw : Calm w) (h : percent w = .ok (rand, w')) :
    (rand < 70 ∨ rand = 80) ∧ Calm w' := by
  obtain ⟨n, w₁, hn, h⟩ := StateT.bind_ok.mp h
  cases hn
  cases StateT.pure_ok.mp h
  refine ⟨?_, fun n hn => hw n (List.mem_of_mem_tail hn)⟩
  cases ht : w.tape with
  | nil => exact .inl (by decide)
  | cons n tape => exact hw n (ht ▸ List.mem_cons_self)

theorem orderedRounds_calm (selector : List Nat) (part : Part) (seedWords : List Word) :
    ∀ (words : List Word) (w : World), Calm w → OrderedRounds selector part words seedWords w := by
  induction seedWords with
  | nil => exact fun _ _ _ => trivial
  | cons word seedWords ih =>
      intro words w hw
      refine ⟨fun rand w₁ hrand => ?_, fun words' w' h => ih words' w' ?_⟩
      · have hcalm := (percent_calm hw hrand).1
        exact ⟨fun h _ => absurd h (by omega), fun h => absurd h (by omega)⟩
      · obtain ⟨rand, w₁, hrand, h⟩ := StateT.bind_ok.mp h
        obtain ⟨hr, hcalm⟩ := percent_calm hw hrand
        rcases hr with hr | rfl
        · rw [if_pos hr] at h
          cases StateT.pure_ok.mp h
          exact hcalm
        · cases StateT.pure_ok.mp h
          exact hcalm

theorem choice_tape {α : Type} {l : List α} {a : α} {w w' : World} (h : choice l w = .ok (a, w')) :
    w'.tape = w.tape.tail := by
  obtain ⟨n, w₁, hn, h⟩ := StateT.bind_ok.mp h
  cases hn
  cases hl : l[w.tape.headD 0 % l.length]? with
  | none =>
      rw [hl] at h
      cases h
  | some b =>
      rw [hl] at h
      cases StateT.pure_ok.mp h
      rfl

theorem choices_tape {α : Type} {l : List α} {ws : List Nat} {a : α} {w w' : World}
    (h : choices l ws w = .ok (a, w')) : w'.tape = w.tape.tail := by
  unfold choices at h
  split at h
  · cases h
  · obtain ⟨n, w₁, hn, h⟩ := StateT.bind_ok.mp h
    cases hn
    cases hl : pick (l.zip ws) (w.tape.headD 0 % ws.sum) with
    | none =>
        rw [hl] at h
        cases h
    | some b =>
        rw [hl] at h
        cases StateT.pure_ok.mp h
        rfl

/-- As `swapTape`, without the swap. -/
def keepTape : List Nat :=
  List.replicate 796 0 ++ [50, 35] ++ List.replicate 1189 0 ++ [80]

/-- The two words that are left of the program go forward. -/
theorem forward_of_keepsOrder_kept :
    let s := (exec (Fuzz.call generatorSelector) (Fuzz.fresh 1 1 keepTape)
      [.get .generation false, .addCorpus 0, .get .mutation false]).2
    s.returned.map (·.1.words.length) = [200, 2] ∧ ∀ e ∈ s.returned, e.1.Forward := by
  refine ⟨by decide +kernel, forward_of_keepsOrder (exec_fresh generatorSelector 1 1 keepTape _) ?_⟩
  intro x hx
  have hplain : x.2.1.Plain :=
    exec_along (P := Call.Plain) (by simp [Call.Plain]) _ x hx
  refine ⟨hplain, ?_⟩
  have hx' : x ∈ (exec (Fuzz.call generatorSelector) (Fuzz.fresh 1 1 keepTape)
    ([.get .generation false, .addCorpus 0] ++ [.get .mutation false])).1 := hx
  rcases exec_concat hx' with hx | ⟨hs, hc⟩
  · have hcall := exec_along (P := fun c => c = .get .generation false ∨ c = .addCorpus 0) (by simp) _ x hx
    rcases hcall with hc | hc
    · rw [hc]
      exact fun h => absurd rfl h
    · rw [hc]
      trivial
  · rw [hc]
    intro _ k w₁ t w₂ d w₃ hkind ht hseeds
    refine orderedRounds_calm _ _ _ _ _ fun n hn => ?_
    obtain ⟨e, w₄, he, hseeds⟩ := StateT.bind_ok.mp hseeds
    cases StateT.pure_ok.mp hseeds
    rw [choice_tape he, choice_tape ht, choices_tape hkind, hs] at hn
    revert n
    decide +kernel

/-! ### A run that does not -/

/-- The symbols of the words of the last input: type, label, and for each line the labels in it. -/
def lastTargets (s : Fuzz) : List (Tpe × Int × List (List Text)) :=
  (s.returned.getLast?.map fun e => e.1.words.map fun w =>
    (w.tpe, w.label, w.retInsts.map fun line => symbolsOf ['_', 'l'] (line.drop 8))).getD []

theorem lastTargets_forward {s : Fuzz} (h : ∀ e ∈ s.returned, e.1.Forward)
    {x : Tpe × Int × List (List Text)} (hx : x ∈ lastTargets s) (hflow : x.1.isFlow = true) :
    ∀ targets ∈ x.2.2, ∀ k : Nat, labelName k ∈ targets → x.2.1 < k := by
  unfold lastTargets at hx
  cases he : s.returned.getLast? with
  | none =>
      rw [he] at hx
      cases hx
  | some e =>
      rw [he] at hx
      obtain ⟨w, hw, rfl⟩ := List.mem_map.mp hx
      intro targets ht k hk
      obtain ⟨line, hline, rfl⟩ := List.mem_map.mp ht
      exact h e (List.mem_of_getLast? he) w hw hflow line hline k hk

/-- **A jump that goes backward**: a mutation swaps a jump and the word that it jumps to. -/
theorem not_forward_swapped :
    let s := (exec (Fuzz.call generatorSelector) (Fuzz.fresh 1 1 swapTape)
      [.get .generation false, .addCorpus 0, .get .mutation false]).2
    (∃ tr, (machine generatorSelector 1 1).Trace tr s ∧ Machine.Along (fun _ c => c.Plain) tr) ∧
      ¬ ∀ e ∈ s.returned, e.1.Forward := by
  refine ⟨⟨_, exec_fresh generatorSelector 1 1 swapTape _,
    exec_along (P := Call.Plain) (by simp [Call.Plain]) _⟩, fun hall => ?_⟩
  have hlast : lastTargets (exec (Fuzz.call generatorSelector) (Fuzz.fresh 1 1 swapTape)
      [.get .generation false, .addCorpus 0, .get .mutation false]).2 =
        [(.memR, 0, [[], []]), (.cfJ, 1, [[labelName 0]])] := by
    decide +kernel
  have hx : (Tpe.cfJ, (1 : Int), [[labelName 0]]) ∈ lastTargets
      (exec (Fuzz.call generatorSelector) (Fuzz.fresh 1 1 swapTape)
        [.get .generation false, .addCorpus 0, .get .mutation false]).2 := by
    rw [hlast]
    exact List.mem_cons_of_mem _ List.mem_cons_self
  have := lastTargets_forward hall hx rfl [labelName 0] List.mem_cons_self 0 List.mem_cons_self
  exact absurd this (by decide)

end Difuzz.Mutator
