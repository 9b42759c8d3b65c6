/-
  File:      DifuzzRtl/Lib/Tokens.lean
  Subject:   Texts as tokens between separators, and substitutions that work on each token.

  * `tokens` -- the pieces of a text between its separators.
  * `infix_tokens` -- what has no separator stands in a text if and only if it stands in a token.
  * `Tokenwise` -- a function that leaves the separators where they are: it is known when it is known
    on tokens (`Tokenwise.eq_mapTokens`).
  * `fillIn` -- names give way to values, one name after the other. Where the names do not overlap,
    each becomes its value (`fillIn_name`), and what has no name in it stays (`fillIn_of_notInfix`).
-/
import DifuzzRtl.Lib.Text

namespace Difuzz.Text

/-! ## 1. Tokens -/

/-- The tokens of a text; `cur` is the one read so far, reversed. -/
def tokensFrom (sep : Char → Bool) : Text → Text → List Text
  | cur, [] => [cur.reverse]
  | cur, c :: t =>
      if sep c then cur.reverse :: tokensFrom sep [] t else tokensFrom sep (c :: cur) t

def tokens (sep : Char → Bool) (t : Text) : List Text := tokensFrom sep [] t

/-- A text without separators. -/
def Unseparated (sep : Char → Bool) (t : Text) : Prop := ∀ c ∈ t, sep c = false

instance (sep : Char → Bool) (t : Text) : Decidable (Unseparated sep t) :=
  inferInstanceAs (Decidable (∀ c ∈ t, sep c = false))

variable {sep : Char → Bool}

theorem tokensFrom_append {c : Char} (hc : sep c = true) (cur t u : Text) :
    tokensFrom sep cur (t ++ c :: u) = tokensFrom sep cur t ++ tokens sep u := by
  induction t generalizing cur with
  | nil =>
      show tokensFrom sep cur (c :: u) = cur.reverse :: tokens sep u
      rw [tokensFrom, if_pos hc]
      rfl
  | cons d t ih =>
      rw [List.cons_append, tokensFrom, tokensFrom]
      split
      · rw [ih, List.cons_append]
      · exact ih _

/-- A separator ends a token. -/
theorem tokens_append {c : Char} (hc : sep c = true) (t u : Text) :
    tokens sep (t ++ c :: u) = tokens sep t ++ tokens sep u :=
  tokensFrom_append hc [] t u

theorem tokensFrom_unseparated {a : Text} (ha : Unseparated sep a) (cur : Text) :
    tokensFrom sep cur a = [cur.reverse ++ a] := by
  induction a generalizing cur with
  | nil => rw [tokensFrom, List.append_nil]
  | cons c a ih =>
      have hc : ¬ sep c = true := by
        rw [ha c List.mem_cons_self]
        decide
      rw [tokensFrom, if_neg hc, ih fun d hd => ha d (List.mem_cons_of_mem _ hd)]
      simp

theorem tokens_unseparated {a : Text} (ha : Unseparated sep a) : tokens sep a = [a] :=
  tokensFrom_unseparated ha []

/-- Induction along the separators of a text. -/
theorem separator_induction (sep : Char → Bool) {P : Text → Prop}
    (unseparated : ∀ a, Unseparated sep a → P a)
    (separated : ∀ a c u, Unseparated sep a → sep c = true → P u → P (a ++ c :: u)) (t : Text) :
    P t := by
  -- what has been read of the current token is carried along
  have hall : ∀ t a, Unseparated sep a → P (a ++ t) := by
    intro t
    induction t with
    | nil =>
        intro a ha
        rw [List.append_nil]
        exact unseparated a ha
    | cons c t ih =>
        intro a ha
        by_cases hc : sep c = true
        · exact separated a c t ha hc (ih [] fun d hd => (nomatch hd))
        · have ha' : Unseparated sep (a ++ [c]) := by
            intro d hd
            rcases List.mem_append.mp hd with hd | hd
            · exact ha d hd
            · rw [List.mem_singleton.mp hd]
              simpa using hc
          have h := ih (a ++ [c]) ha'
          rwa [List.append_assoc, List.singleton_append] at h
  exact hall t [] fun d hd => (nomatch hd)

theorem unseparated_of_mem_tokens {t a : Text} (h : a ∈ tokens sep t) : Unseparated sep a := by
  induction t using separator_induction sep with
  | unseparated b hb =>
      rw [tokens_unseparated hb] at h
      rwa [List.mem_singleton.mp h]
  | separated b c u hb hc ih =>
      rw [tokens_append hc, tokens_unseparated hb, List.singleton_append] at h
      rcases List.mem_cons.mp h with rfl | h
      · exact hb
      · exact ih h

/-- The tokens that are not empty. -/
def words (sep : Char → Bool) (t : Text) : List Text := (tokens sep t).filter (· ≠ [])

theorem words_append {c : Char} (hc : sep c = true) (t u : Text) :
    words sep (t ++ c :: u) = words sep t ++ words sep u := by
  rw [words, tokens_append hc, List.filter_append]
  rfl

theorem words_unseparated {a : Text} (ha : Unseparated sep a) (hne : a ≠ []) : words sep a = [a] := by
  rw [words, tokens_unseparated ha]
  simp [hne]

/-- Separators at the ends do not count. -/
theorem words_replicate_append {c : Char} (hc : sep c = true) (k : Nat) (t : Text) :
    words sep (List.replicate k c ++ t) = words sep t := by
  induction k with
  | zero => rfl
  | succ k ih =>
      have h := words_append hc [] (List.replicate k c ++ t)
      rw [ih] at h
      exact h

theorem words_append_replicate {c : Char} (hc : sep c = true) (t : Text) (k : Nat) :
    words sep (t ++ List.replicate k c) = words sep t := by
  have hnil : words sep [] = [] := rfl
  cases k with
  | zero => rw [List.replicate_zero, List.append_nil]
  | succ k =>
      have h := words_replicate_append hc k []
      rw [List.append_nil, hnil] at h
      rw [List.replicate_succ, words_append hc, h, List.append_nil]

/-- What has not the character stands on one side of it. -/
theorem infix_append_cons {n t u : Text} {c : Char} (hc : c ∉ n) :
    n <:+: t ++ c :: u ↔ n <:+: t ∨ n <:+: u := by
  constructor
  · intro h
    induction t with
    | nil =>
        rcases List.infix_cons_iff.mp h with hp | hi
        · cases n with
          | nil => exact .inl (List.infix_refl _)
          | cons d n =>
              have hd : d = c := (List.cons_prefix_cons.mp hp).1
              exact absurd (hd ▸ List.mem_cons_self) hc
        · exact .inr hi
    | cons d t ih =>
        rcases List.infix_cons_iff.mp h with hp | hi
        · left
          have hsame : n.isPrefixOf (d :: t ++ c :: u) = n.isPrefixOf (d :: t) :=
            isPrefixOf_append_char hc
          have hp' : n.isPrefixOf (d :: t) = true := hsame ▸ List.isPrefixOf_iff_prefix.mpr hp
          exact (List.isPrefixOf_iff_prefix.mp hp').isInfix
        · rcases ih hi with h | h
          · exact .inl (h.trans (List.suffix_cons d t).isInfix)
          · exact .inr h
  · intro h
    rcases h with h | h
    · exact h.trans (List.prefix_append _ _).isInfix
    · exact h.trans ((List.suffix_cons c u).trans (List.suffix_append _ _)).isInfix

/-! ## 2. Functions that leave the separators -/

/-- The function works on each side of a separator. -/
def Tokenwise (sep : Char → Bool) (f : Text → Text) : Prop :=
  ∀ c, sep c = true → ∀ t u, f (t ++ c :: u) = f t ++ c :: f u

/-- A function, used on each token. -/
def mapTokensFrom (sep : Char → Bool) (f : Text → Text) : Text → Text → Text
  | cur, [] => f cur.reverse
  | cur, c :: t =>
      if sep c then f cur.reverse ++ c :: mapTokensFrom sep f [] t
      else mapTokensFrom sep f (c :: cur) t

def mapTokens (sep : Char → Bool) (f : Text → Text) (t : Text) : Text := mapTokensFrom sep f [] t

namespace Tokenwise

variable {f g : Text → Text}

theorem id : Tokenwise sep fun t => t := fun _ _ _ _ => rfl

theorem comp (hg : Tokenwise sep g) (hf : Tokenwise sep f) : Tokenwise sep fun t => g (f t) := by
  intro c hc t u
  show g (f (t ++ c :: u)) = g (f t) ++ c :: g (f u)
  rw [hf c hc, hg c hc]

theorem replace {old new : Text} (hne : old ≠ []) (ho : Unseparated sep old) :
    Tokenwise sep (replace old new) := by
  intro c hc t u
  refine replace_append_char hne (fun hm => ?_) t u
  rw [ho c hm] at hc
  cases hc

theorem eq_mapTokensFrom (hf : Tokenwise sep f) (cur t : Text) :
    f (cur.reverse ++ t) = mapTokensFrom sep f cur t := by
  induction t generalizing cur with
  | nil => rw [List.append_nil, mapTokensFrom]
  | cons c t ih =>
      rw [mapTokensFrom]
      split
      · rename_i hc
        rw [hf c hc, ← ih []]
        rfl
      · rw [← ih (c :: cur), List.reverse_cons, List.append_assoc, List.singleton_append]

theorem eq_mapTokens (hf : Tokenwise sep f) (t : Text) : f t = mapTokens sep f t :=
  hf.eq_mapTokensFrom [] t

/-- The tokens of the result, if no token gets a separator. -/
theorem tokens_eq (hf : Tokenwise sep f) {t : Text} (h : ∀ a ∈ tokens sep t, Unseparated sep (f a)) :
    tokens sep (f t) = (tokens sep t).map f := by
  induction t using separator_induction sep with
  | unseparated a ha =>
      rw [tokens_unseparated ha] at h ⊢
      exact tokens_unseparated (h a List.mem_cons_self)
  | separated a c u ha hc ih =>
      rw [tokens_append hc, tokens_unseparated ha, List.singleton_append] at h ⊢
      rw [hf c hc, tokens_append hc, tokens_unseparated (h a List.mem_cons_self),
        ih fun b hb => h b (List.mem_cons_of_mem _ hb)]
      rfl

/-- **What has no separator** stands in the result if and only if it stands in what becomes of a
    token. -/
theorem infix_iff (hf : Tokenwise sep f) {n : Text} (hn : Unseparated sep n) (t : Text) :
    n <:+: f t ↔ ∃ a ∈ tokens sep t, n <:+: f a := by
  induction t using separator_induction sep with
  | unseparated a ha => simp [tokens_unseparated ha]
  | separated a c u ha hc ih =>
      have hcn : c ∉ n := by
        intro hm
        rw [hn c hm] at hc
        cases hc
      rw [hf c hc, infix_append_cons hcn, ih, tokens_append hc, tokens_unseparated ha,
        List.singleton_append]
      simp

end Tokenwise

theorem infix_tokens {n : Text} (hn : Unseparated sep n) (t : Text) :
    n <:+: t ↔ ∃ a ∈ tokens sep t, n <:+: a :=
  Tokenwise.id.infix_iff hn t

/-! ## 3. Names and values -/

theorem replace_of_notInfix {old new t : Text} (h : ¬ old <:+: t) : replace old new t = t := by
  unfold replace
  induction t with
  | nil => rfl
  | cons c t ih =>
      have hp : ¬ old.isPrefixOf (c :: t) = true := fun hp =>
        h (List.isPrefixOf_iff_prefix.mp hp).isInfix
      rw [replaceFrom, if_neg hp, ih fun hi => h (hi.trans (List.suffix_cons c t).isInfix)]

theorem replace_self {old : Text} (hne : old ≠ []) (new : Text) : replace old new old = new := by
  cases old with
  | nil => exact absurd rfl hne
  | cons c y =>
      have h := @replace_append_self [] y [] new [] c List.not_mem_nil List.not_mem_nil
      simpa [replace, replaceFrom] using h

/-- Filling in entries one after the other. -/
def fillIn (es : List (Text × Text)) (t : Text) : Text := es.foldl (fun i e => replace e.1 e.2 i) t

theorem tokenwise_fillIn {es : List (Text × Text)}
    (h : ∀ e ∈ es, e.1 ≠ [] ∧ Unseparated sep e.1) : Tokenwise sep (fillIn es) := by
  induction es with
  | nil => exact Tokenwise.id
  | cons e es ih =>
      obtain ⟨hne, hsep⟩ := h e List.mem_cons_self
      exact (ih fun x hx => h x (List.mem_cons_of_mem _ hx)).comp (Tokenwise.replace hne hsep)

/-- A text in which no name stands stays. -/
theorem fillIn_of_notInfix {es : List (Text × Text)} {t : Text} (h : ∀ e ∈ es, ¬ e.1 <:+: t) :
    fillIn es t = t := by
  induction es with
  | nil => rfl
  | cons e es ih =>
      show fillIn es (replace e.1 e.2 t) = t
      rw [replace_of_notInfix (h e List.mem_cons_self)]
      exact ih fun x hx => h x (List.mem_cons_of_mem _ hx)

theorem mem_fillIn {es : List (Text × Text)} {t : Text} {d : Char} (h : d ∈ fillIn es t) :
    d ∈ t ∨ ∃ e ∈ es, d ∈ e.2 := by
  induction es generalizing t with
  | nil => exact .inl h
  | cons e es ih =>
      rcases ih h with h | ⟨x, hx, hd⟩
      · rcases mem_replace h with h | h
        · exact .inl h
        · exact .inr ⟨e, List.mem_cons_self, h⟩
      · exact .inr ⟨x, List.mem_cons_of_mem _ hx, hd⟩

/-- **A name becomes its value**, if no other name stands in it and none in a value. -/
theorem fillIn_name {es : List (Text × Text)} {name : Text} (hne : name ≠ [])
    (hnames : ∀ e ∈ es, e.1 <:+: name → e.1 = name) (hvals : ∀ e ∈ es, ∀ e' ∈ es, ¬ e'.1 <:+: e.2)
    (h : name ∈ es.map (·.1)) : (name, fillIn es name) ∈ es := by
  induction es with
  | nil => cases h
  | cons e es ih =>
      have htail : ∀ x ∈ es, ∀ y ∈ es, ¬ y.1 <:+: x.2 := fun x hx y hy =>
        hvals x (List.mem_cons_of_mem _ hx) y (List.mem_cons_of_mem _ hy)
      show (name, fillIn es (replace e.1 e.2 name)) ∈ e :: es
      by_cases he : e.1 = name
      · -- the value stays
        have hstay : fillIn es e.2 = e.2 := fillIn_of_notInfix fun x hx =>
          hvals e List.mem_cons_self x (List.mem_cons_of_mem _ hx)
        rw [he, replace_self hne, hstay, ← he]
        exact List.mem_cons_self
      · rw [replace_of_notInfix fun hi => he (hnames e List.mem_cons_self hi)]
        have hmem : name ∈ es.map (·.1) := by
          rcases List.mem_cons.mp h with h | h
          · exact absurd h.symm he
          · exact h
        exact List.mem_cons_of_mem _ (ih (fun x hx => hnames x (List.mem_cons_of_mem _ hx)) htail hmem)

end Difuzz.Text
