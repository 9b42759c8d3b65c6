/-
  File:      DifuzzRtl/Coverage/VecRegs.lean
  Subject:   Which registers `findVecRegs` takes for a vector.

  The registers of one source line, or of none, are cut at their longest common beginning; what is
  left has to start with a digit, is read as a number up to the first `_`, and cut again by the length
  of that number as it is printed. Only the checks on all of them together say that the number was
  printed without leading zeros.

  * `commonPrefix_spec` -- the longest common beginning.
  * `bodyIndex`, `vElements_spec` -- the index of what is left, and the elements by index.
  * `keys_range` -- sorted keys that follow each other and contain 0 are the numbers below their
    count.
  * `IsVec`, `vecOfNames_isVec` -- what is recognised is a vector: the names are the prefix, an
    index below the size and one of the bodies.
  * `vecOfNames_of_isVec` -- a vector is recognised, if the iteration of its indices starts with 0.
  * `Parsable`, `vecOfNames_isSome_iff` -- when the recognition throws.
-/
import DifuzzRtl.Coverage.GraphLedger
import DifuzzRtl.Lib.Names

namespace Difuzz.Coverage

open Firrtl

/-! ## 1. The common beginning -/

theorem mem_commonPrefixes {ns : List (List Char)} {set : List (List Char)} {s : List Char} :
    s ∈ ns.foldl (fun set m => m.inits.filter (· ∈ set)) set ↔ s ∈ set ∧ ∀ m ∈ ns, s <+: m := by
  induction ns generalizing set with
  | nil => simp
  | cons m ns ih =>
      rw [List.foldl_cons, ih, List.mem_filter, List.mem_inits, decide_eq_true_eq,
        List.forall_mem_cons]
      tauto

/-- The longest text of a list. -/
theorem longest_spec (set : List (List Char)) (best : List Char) :
    let l := set.foldl (fun best s => if best.length < s.length then s else best) best
    (l = best ∨ l ∈ set) ∧ best.length ≤ l.length ∧ ∀ s ∈ set, s.length ≤ l.length := by
  induction set generalizing best with
  | nil => simp
  | cons s set ih =>
      rw [List.foldl_cons]
      by_cases hlt : best.length < s.length
      · rw [if_pos hlt]
        obtain ⟨hmem, hbest, hall⟩ := ih s
        refine ⟨.inr ?_, by omega, List.forall_mem_cons.mpr ⟨hbest, hall⟩⟩
        rcases hmem with h | h
        · rw [h]
          exact List.mem_cons_self
        · exact List.mem_cons_of_mem _ h
      · rw [if_neg hlt]
        obtain ⟨hmem, hbest, hall⟩ := ih best
        exact ⟨hmem.imp_right (List.mem_cons_of_mem _), hbest,
          List.forall_mem_cons.mpr ⟨by omega, hall⟩⟩

/-- **The longest common beginning**: a beginning of every name, and longer than any other. -/
theorem commonPrefix_spec {ns : List (List Char)} (hne : ns ≠ []) :
    (∀ n ∈ ns, commonPrefix ns <+: n) ∧
    ∀ s, (∀ n ∈ ns, s <+: n) → s.length ≤ (commonPrefix ns).length := by
  cases ns with
  | nil => exact absurd rfl hne
  | cons n ns =>
      obtain ⟨hmem, _, hall⟩ := longest_spec
        (ns.foldl (fun set m => m.inits.filter (· ∈ set)) n.inits) []
      constructor
      · rcases hmem with h | h
        · intro m _
          show List.foldl _ _ _ <+: m
          rw [h]
          exact List.nil_prefix
        · obtain ⟨h₀, h₁⟩ := mem_commonPrefixes.mp h
          exact List.forall_mem_cons.mpr ⟨(List.mem_inits _ _).mp h₀, h₁⟩
      · intro s hs
        obtain ⟨h₀, h₁⟩ := List.forall_mem_cons.mp hs
        exact hall s (mem_commonPrefixes.mpr ⟨(List.mem_inits _ _).mpr h₀, h₁⟩)

/-! ## 2. Elements by index -/

theorem toInt_eq_some {cs : List Char} {i : Nat} : toInt cs = some i ↔
    cs ≠ [] ∧ (∀ c ∈ cs, c.isDigit = true) ∧ Nat.ofDigitChars 10 cs 0 = i ∧ i < 2 ^ 31 := by
  have hval : cs.foldl (fun acc c => acc * 10 + (c.toNat - '0'.toNat)) 0 =
      Nat.ofDigitChars 10 cs 0 := by
    rw [Nat.ofDigitChars_eq_foldl]
    congr 1
    funext acc c
    rw [Nat.mul_comm]
  unfold toInt
  rw [hval]
  constructor
  · intro h
    split at h
    · rename_i hcs
      simp only at h
      split at h
      · rename_i hlt
        cases h
        exact ⟨hcs.1, List.all_eq_true.mp hcs.2, rfl, hlt⟩
      · cases h
    · cases h
  · intro hx
    obtain ⟨hne, hdig, rfl, hlt⟩ := hx
    rw [if_pos ⟨hne, List.all_eq_true.mpr hdig⟩]
    exact if_pos hlt

/-- The index that a body starts with. -/
def bodyIndex (body : List Char) : Option Nat := toInt (body.takeWhile (· ≠ '_'))

/-- The elements after some of the bodies. -/
structure ElementsOf (bodies : List (List Char)) (d : Dict Nat (List (List Char))) : Prop where
  parsed : ∀ b ∈ bodies, ∃ i, bodyIndex b = some i
  nodup : d.keys.Nodup
  keys : ∀ i, i ∈ d.keys ↔ ∃ b ∈ bodies, bodyIndex b = some i
  rests : ∀ i x, x ∈ d.getD i [] ↔
    ∃ b ∈ bodies, bodyIndex b = some i ∧ x = b.drop (decimal i).length

/-- One more body. -/
theorem ElementsOf.snoc {bodies : List (List Char)} {d : Dict Nat (List (List Char))}
    (h : ElementsOf bodies d) {body : List Char} {idx : Nat} (hi : bodyIndex body = some idx) :
    ElementsOf (bodies ++ [body])
      (d.set idx (d.getD idx [] ++ [body.drop (decimal idx).length])) where
  parsed b hb := by
    rcases List.mem_append.mp hb with hb | hb
    · exact h.parsed b hb
    · rw [List.mem_singleton.mp hb]
      exact ⟨idx, hi⟩
  nodup := by
    have hk : (d.set idx (d.getD idx [] ++ [body.drop (decimal idx).length])).keys =
        if idx ∈ d.keys then d.keys else d.keys ++ [idx] := Dict.keys_setEntries _ _ _
    rw [hk]
    split
    · exact h.nodup
    · rename_i hne
      rw [List.nodup_append]
      refine ⟨h.nodup, by simp, fun a ha b hb e => hne ?_⟩
      rw [List.mem_singleton.mp hb] at e
      rwa [← e]
  keys i := by
    rw [← Dict.get?_isSome_iff, Dict.get?_set]
    by_cases hii : i = idx
    · subst hii
      simp only [if_true, Option.some.injEq, exists_eq', true_iff]
      exact ⟨body, by simp, hi⟩
    · rw [if_neg hii, Dict.get?_isSome_iff, h.keys]
      simp only [List.mem_append, List.mem_singleton, or_and_right, exists_or, exists_eq_left, hi,
        Option.some.injEq]
      exact ⟨.inl, fun h => h.resolve_right fun e => hii e.symm⟩
  rests i x := by
    rw [Dict.getD_set]
    by_cases hii : i = idx
    · subst hii
      rw [if_pos rfl, List.mem_append, h.rests, List.mem_singleton]
      simp only [List.mem_append, List.mem_singleton, or_and_right, exists_or, exists_eq_left, hi,
        true_and]
    · rw [if_neg hii, h.rests]
      simp only [List.mem_append, List.mem_singleton, or_and_right, exists_or, exists_eq_left, hi,
        Option.some.injEq]
      exact ⟨.inl, fun h => h.resolve_right fun e => hii e.1.symm⟩

/-- **The elements by index**, when every body starts with one. -/
theorem vElements_spec (bodies : List (List Char)) :
    (∀ d, vElements bodies = some d → ElementsOf bodies d) ∧
    ((∀ b ∈ bodies, ∃ i, bodyIndex b = some i) → ∃ d, vElements bodies = some d) := by
  -- the fold, from the elements of the bodies before
  have key : ∀ (bs done : List (List Char)) (d : Dict Nat (List (List Char))), ElementsOf done d →
      (∀ d', bs.foldlM (fun d body => (bodyIndex body).map fun idx =>
          d.set idx (d.getD idx [] ++ [body.drop (decimal idx).length])) d = some d' →
        ElementsOf (done ++ bs) d') ∧
      ((∀ b ∈ bs, ∃ i, bodyIndex b = some i) → ∃ d',
        bs.foldlM (fun d body => (bodyIndex body).map fun idx =>
          d.set idx (d.getD idx [] ++ [body.drop (decimal idx).length])) d = some d') := by
    intro bs
    induction bs with
    | nil =>
        intro done d h
        refine ⟨fun d' hd' => ?_, fun _ => ⟨d, rfl⟩⟩
        cases hd'
        rwa [List.append_nil]
    | cons b bs ih =>
        intro done d h
        rw [List.foldlM_cons]
        cases hi : bodyIndex b with
        | none =>
            refine ⟨fun d' hd' => by simp at hd', fun hall => ?_⟩
            obtain ⟨i, hi'⟩ := hall b List.mem_cons_self
            rw [hi] at hi'
            cases hi'
        | some idx =>
            obtain ⟨h₁, h₂⟩ := ih (done ++ [b]) _ (h.snoc hi)
            rw [List.append_assoc] at h₁
            exact ⟨h₁, fun hall => h₂ fun x hx => hall x (List.mem_cons_of_mem _ hx)⟩
  have empty : ElementsOf [] Dict.empty :=
    ⟨by simp, List.nodup_nil, by simp [Dict.keys, Dict.empty], by simp [Dict.getD]⟩
  exact key bodies [] Dict.empty empty

/-! ## 3. Consecutive indices -/

theorem range'_of_consecutive {a : Nat} {l : List Nat}
    (h : ∀ k ∈ (a :: l).zip l, k.1 + 1 = k.2) : a :: l = List.range' a (l.length + 1) := by
  induction l generalizing a with
  | nil => rfl
  | cons b l ih =>
      have hab : a + 1 = b := h (a, b) (by simp)
      have hrest := ih (a := b) fun k hk => h k (List.mem_cons_of_mem _ hk)
      rw [List.length_cons, List.range'_succ, hab, ← hrest]

theorem countConsecutive_range {n : Nat} (hn : 2 ≤ n) :
    countConsecutive (List.range n) = some (n - 1) := by
  obtain ⟨m, rfl⟩ : ∃ m, n = m + 2 := ⟨n - 2, by omega⟩
  have hall : ((List.range (m + 2)).zip (List.range (m + 2)).tail).countP
      (fun k => k.1 + 1 = k.2) = m + 2 - 1 := by
    have hlen : ((List.range (m + 2)).zip (List.range (m + 2)).tail).length = m + 2 - 1 := by
      simp
    rw [← hlen, List.countP_eq_length]
    intro k hk
    obtain ⟨j, hj, rfl⟩ := List.mem_iff_getElem.mp hk
    simp [Nat.add_comm]
  have hcons : ∃ a b l, List.range (m + 2) = a :: b :: l :=
    ⟨0, 1, (List.range m).map (· + 2), by simp [List.range_succ_eq_map, Function.comp_def]⟩
  obtain ⟨a, b, l, e⟩ := hcons
  rw [e] at hall ⊢
  exact congrArg some hall

/-- **Keys that follow each other from 0 on** are the numbers below their count. -/
theorem keys_range {ks : List Nat} (h0 : 0 ∈ ks)
    (h : countConsecutive (ks.insertionSort (· ≤ ·)) = some (ks.length - 1)) :
    2 ≤ ks.length ∧ ∀ i, i ∈ ks ↔ i < ks.length := by
  have hperm := List.perm_insertionSort (· ≤ ·) ks
  have hlen := hperm.length_eq
  generalize ks.insertionSort (· ≤ ·) = s at *
  match s, h with
  | [], _ =>
      have := hperm.mem_iff.mpr h0
      cases this
  | a :: b :: l, h =>
      have hcount := Option.some.inj h
      have hzip : ((a :: b :: l).zip (b :: l)).length = ks.length - 1 := by
        rw [← hlen]
        simp
      rw [← hzip] at hcount
      have hall := List.countP_eq_length.mp hcount
      have hs := range'_of_consecutive (a := a) (l := b :: l) fun k hk => by simpa using hall k hk
      have ha : a = 0 := by
        have := hperm.mem_iff.mpr h0
        rw [hs, List.mem_range'_1] at this
        omega
      refine ⟨by rw [← hlen]; simp, fun i => ?_⟩
      rw [← hperm.mem_iff, hs, List.mem_range'_1, ← hlen, ha]
      simp

/-- Such keys pass the count. -/
theorem countConsecutive_keys {ks : List Nat} {n : Nat} (hnd : ks.Nodup) (hn : 2 ≤ n)
    (h : ∀ i, i ∈ ks ↔ i < n) :
    ks.length = n ∧ countConsecutive (ks.insertionSort (· ≤ ·)) = some (ks.length - 1) := by
  have hperm : ks.Perm (List.range n) :=
    (List.perm_ext_iff_of_nodup hnd List.nodup_range).mpr fun i => by rw [h, List.mem_range]
  have hlen : ks.length = n := by rw [hperm.length_eq, List.length_range]
  have hsort : ks.insertionSort (· ≤ ·) = List.range n := by
    refine List.Perm.eq_of_pairwise' ((List.pairwise_insertionSort (· ≤ ·) ks)) ?_
      ((List.perm_insertionSort (· ≤ ·) ks).trans hperm)
    exact (List.pairwise_lt_range).imp Nat.le_of_lt
  rw [hsort, hlen]
  exact ⟨rfl, countConsecutive_range hn⟩

/-! ## 4. Indices without leading zeros -/

/-- What may follow an index: nothing, or a separator. -/
def Separated (b : List Char) : Prop := b.takeWhile (· ≠ '_') = []

theorem digit_ne_sep {c : Char} (h : c.isDigit = true) : c ≠ '_' := by
  rintro rfl
  revert h
  decide

theorem takeWhile_digits {w b : List Char} (hw : ∀ c ∈ w, c.isDigit = true) (hb : Separated b) :
    (w ++ b).takeWhile (· ≠ '_') = w := by
  rw [List.takeWhile_append_of_pos fun c hc => by simpa using digit_ne_sep (hw c hc), hb,
    List.append_nil]

theorem isDigit_decimal {i : Nat} : ∀ c ∈ decimal i, c.isDigit = true := fun _ hc =>
  Nat.isDigit_of_mem_toDigits (by decide) (by decide) hc

/-- **No leading zeros**: if what is cut off leaves a separated body, it was the printed index. -/
theorem body_eq_decimal {body : List Char} {i : Nat} (hi : bodyIndex body = some i)
    (hb : Separated (body.drop (decimal i).length)) :
    body = decimal i ++ body.drop (decimal i).length := by
  obtain ⟨hne, hdig, hval, _⟩ := toInt_eq_some.mp hi
  generalize hw : body.takeWhile (· ≠ '_') = w at hne hdig hval
  have hbody : body = w ++ body.dropWhile (· ≠ '_') := by
    rw [← hw, List.takeWhile_append_dropWhile]
  have hle : (decimal i).length ≤ w.length := by
    refine (Nat.length_toDigits_le_iff (by decide) (List.length_pos_of_ne_nil hne)).mpr ?_
    rw [← hval]
    exact ofDigitChars_lt hdig
  -- a digit left over would stand before the separator
  have hlen : w.length ≤ (decimal i).length := by
    have hdrop : body.drop (decimal i).length =
        w.drop (decimal i).length ++ body.dropWhile (· ≠ '_') := by
      conv => lhs; rw [hbody]
      exact List.drop_append_of_le_length hle
    unfold Separated at hb
    rw [hdrop, List.takeWhile_append_of_pos fun c hc => by
      simpa using digit_ne_sep (hdig c (List.mem_of_mem_drop hc))] at hb
    have := congrArg List.length (List.append_eq_nil_iff.mp hb).1
    rw [List.length_drop, List.length_nil] at this
    omega
  have hwd : w = decimal i := by
    refine ofDigitChars_inj hdig isDigit_decimal (Nat.le_antisymm hlen hle) ?_
    rw [hval]
    exact Nat.ofDigitChars_ten_toDigits.symm
  rw [hwd] at hbody
  conv => rhs; rw [hbody]
  rw [List.drop_left]
  exact hbody

/-- A body that follows both 0 and 1 is separated. -/
theorem separated_of_zero_one {body₀ body₁ b : List Char} (h₀ : bodyIndex body₀ = some 0)
    (h₁ : bodyIndex body₁ = some 1) (hb₀ : body₀.drop (decimal 0).length = b)
    (hb₁ : body₁.drop (decimal 1).length = b) : Separated b := by
  -- each is one character before `b`
  have split : ∀ {body : List Char} {i : Nat}, bodyIndex body = some i → body.drop 1 = b →
      ∃ c, 10 ^ (b.takeWhile (· ≠ '_')).length * (c - 48) +
        Nat.ofDigitChars 10 (b.takeWhile (· ≠ '_')) 0 = i := by
    intro body i hi hd
    obtain ⟨hne, _, hval, _⟩ := toInt_eq_some.mp hi
    cases body with
    | nil => exact absurd rfl hne
    | cons c body =>
        have hd : body = b := hd
        subst hd
        by_cases hc : c = '_'
        · subst hc
          simp at hne
        · have htake : (c :: body).takeWhile (· ≠ '_') = c :: body.takeWhile (· ≠ '_') := by
            simp [hc]
          rw [htake, ofDigitChars_cons_zero] at hval
          exact ⟨c.toNat, hval⟩
  obtain ⟨c₀, e₀⟩ := split h₀ hb₀
  obtain ⟨c₁, e₁⟩ := split h₁ hb₁
  have hz : Nat.ofDigitChars 10 (b.takeWhile (· ≠ '_')) 0 = 0 := (Nat.add_eq_zero_iff.mp e₀).2
  rw [hz, Nat.add_zero] at e₁
  have hpow := Nat.eq_one_of_mul_eq_one_right e₁
  exact List.length_eq_zero_iff.mp ((Nat.pow_eq_one.mp hpow).resolve_left (by decide))

/-! ## 5. One source line -/

/-- The names of a line, sorted. -/
def sortedNames (names : List String) : List (List Char) :=
  (names.map String.toList).insertionSort (· ≤ ·)

/-- Their longest common beginning. -/
def linePrefix (names : List String) : List Char := commonPrefix (sortedNames names)

/-- What is left of them. -/
def lineBodies (names : List String) : List (List Char) :=
  (sortedNames names).map fun n => n.drop (linePrefix names).length

/-- Every name goes on with a digit. -/
def startsWithDigits (names : List String) : Bool :=
  (lineBodies names).all fun b => (b.head?.map Char.isDigit).getD false

/-- The bodies of the first index in iteration order. -/
def firstBodies (σ : SetOrder) (elems : Dict Nat (List (List Char))) : List (List Char) :=
  ((σ.toSeq elems.entries).head?.map (·.2)).getD []

/-- The check on all elements. -/
def acceptsElems (σ : SetOrder) (elems : Dict Nat (List (List Char))) (cnt : Nat) : Prop :=
  cnt = elems.keys.length - 1 ∧ (σ.toSeq elems.keys).head? = some 0 ∧
  (elems.values.all fun l => l.all (· ∈ firstBodies σ elems) && (firstBodies σ elems).all (· ∈ l)) =
    true

instance (σ : SetOrder) (elems : Dict Nat (List (List Char))) (cnt : Nat) :
    Decidable (acceptsElems σ elems cnt) := inferInstanceAs (Decidable (_ ∧ _ ∧ _))

/-- `vecOfNames`, by its steps. -/
theorem vecOfNames_eq (σ : SetOrder) (names : List String) : vecOfNames σ names =
    if (linePrefix names).length = 0 then some none
    else if startsWithDigits names then
      (vElements (lineBodies names)).bind fun elems =>
        (countConsecutive (elems.keys.insertionSort (· ≤ ·))).bind fun cnt =>
          if acceptsElems σ elems cnt then
            some (some (elems.keys.length, String.ofList (linePrefix names),
              (firstBodies σ elems).dedup.map String.ofList))
          else some none
    else some none := rfl

theorem mem_sortedNames {names : List String} {x : List Char} :
    x ∈ sortedNames names ↔ ∃ n ∈ names, n.toList = x := by
  unfold sortedNames
  rw [List.mem_insertionSort, List.mem_map]

/-- A name of the line is the common beginning and a body. -/
theorem mem_lineBodies {names : List String} {b : List Char} :
    b ∈ lineBodies names ↔ ∃ n ∈ names, n.toList = linePrefix names ++ b := by
  unfold lineBodies
  rw [List.mem_map]
  have hpre : ∀ x ∈ sortedNames names, linePrefix names <+: x := fun x hx =>
    (commonPrefix_spec (List.ne_nil_of_mem hx)).1 x hx
  constructor
  · intro h
    obtain ⟨x, hx, rfl⟩ := h
    obtain ⟨n, hn, rfl⟩ := mem_sortedNames.mp hx
    refine ⟨n, hn, ?_⟩
    obtain ⟨y, hy⟩ := hpre _ hx
    rw [← hy, List.drop_left]
  · intro h
    obtain ⟨n, hn, e⟩ := h
    exact ⟨n.toList, mem_sortedNames.mpr ⟨n, hn, rfl⟩, by rw [e, List.drop_left]⟩

theorem mem_names_iff {names : List String} {x : String} :
    x ∈ names ↔ ∃ b ∈ lineBodies names, x.toList = linePrefix names ++ b := by
  constructor
  · intro hx
    have hs : x.toList ∈ sortedNames names := mem_sortedNames.mpr ⟨x, hx, rfl⟩
    obtain ⟨b, hb⟩ := (commonPrefix_spec (List.ne_nil_of_mem hs)).1 _ hs
    exact ⟨b, mem_lineBodies.mpr ⟨x, hx, hb.symm⟩, hb.symm⟩
  · intro h
    obtain ⟨b, hb, e⟩ := h
    obtain ⟨n, hn, e'⟩ := mem_lineBodies.mp hb
    rw [← e', String.toList_inj] at e
    rwa [e]

/-- The names are a vector: a prefix, an index below the size, and one of the bodies. -/
structure IsVec (names : List String) (n : Nat) (pre : String) (bodies : List String) : Prop where
  size : 2 ≤ n
  nonempty : bodies ≠ []
  separated : ∀ b ∈ bodies, Separated b.toList
  names : ∀ x, x ∈ names ↔ ∃ i < n, ∃ b ∈ bodies, x = pre ++ (toString i ++ b)

theorem toList_element (pre b : String) (i : Nat) :
    (pre ++ (toString i ++ b)).toList = pre.toList ++ (decimal i ++ b.toList) := by
  rw [String.toList_append, String.toList_append, Nat.toString_eq_repr, Nat.toList_repr]
  rfl

/-- Every index has the same bodies. -/
theorem acceptsElems_bodies {σ : SetOrder} {elems : Dict Nat (List (List Char))} {cnt : Nat}
    (h : acceptsElems σ elems cnt) {i : Nat} (hi : i ∈ elems.keys) (x : List Char) :
    x ∈ elems.getD i [] ↔ x ∈ firstBodies σ elems := by
  obtain ⟨l, hl⟩ := Dict.get?_isSome_iff.mpr hi
  have hmem : l ∈ elems.values := List.mem_map.mpr ⟨_, Dict.mem_of_lookup hl, rfl⟩
  have hall := List.all_eq_true.mp h.2.2 l hmem
  simp only [Bool.and_eq_true, List.all_eq_true, decide_eq_true_eq] at hall
  have hget : elems.getD i [] = l := by
    unfold Dict.getD
    rw [hl]
    rfl
  rw [hget]
  exact ⟨hall.1 x, hall.2 x⟩

/-- **What is recognised is a vector.** -/
theorem vecOfNames_isVec {σ : SetOrder} {names : List String} {n : Nat} {pre : String}
    {bodies : List String} (h : vecOfNames σ names = some (some (n, pre, bodies))) :
    IsVec names n pre bodies := by
  rw [vecOfNames_eq] at h
  split at h
  · cases h
  split at h
  swap
  · cases h
  simp only [Option.bind_eq_some_iff] at h
  obtain ⟨elems, helems, cnt, hcnt, h⟩ := h
  split at h
  swap
  · cases h
  rename_i hacc
  cases h
  have hel := (vElements_spec _).1 elems helems
  have h0 : 0 ∈ elems.keys := (SetOrder.mem_toSeq σ).mp (List.mem_of_head? hacc.2.1)
  rw [hacc.1] at hcnt
  obtain ⟨hsize, hkeys⟩ := keys_range h0 hcnt
  have hsame := fun {i} hi => acceptsElems_bodies hacc (i := i) hi
  -- every body is what follows 0 and 1
  have hsep : ∀ b ∈ firstBodies σ elems, Separated b := by
    intro b hb
    obtain ⟨b₀, _, hi₀, e₀⟩ := (hel.rests 0 b).mp ((hsame h0 b).mpr hb)
    obtain ⟨b₁, _, hi₁, e₁⟩ :=
      (hel.rests 1 b).mp ((hsame ((hkeys 1).mpr (by omega)) b).mpr hb)
    exact separated_of_zero_one hi₀ hi₁ e₀.symm e₁.symm
  -- so the bodies of the line are the printed indices and these
  have hbodies : ∀ y, y ∈ lineBodies names ↔
      ∃ i < elems.keys.length, ∃ b ∈ firstBodies σ elems, y = decimal i ++ b := by
    intro y
    constructor
    · intro hy
      obtain ⟨i, hi⟩ := hel.parsed y hy
      have hik : i ∈ elems.keys := (hel.keys i).mpr ⟨y, hy, hi⟩
      have hb := (hsame hik _).mp ((hel.rests i _).mpr ⟨y, hy, hi, rfl⟩)
      exact ⟨i, (hkeys i).mp hik, _, hb, body_eq_decimal hi (hsep _ hb)⟩
    · intro hex
      obtain ⟨i, hi, b, hb, rfl⟩ := hex
      obtain ⟨y, hy, hyi, e⟩ := (hel.rests i b).mp ((hsame ((hkeys i).mpr hi) b).mpr hb)
      have hyb := body_eq_decimal hyi (e ▸ hsep b hb)
      rw [← e] at hyb
      rwa [← hyb]
  have hmem : ∀ b, b ∈ (firstBodies σ elems).dedup.map String.ofList ↔
      b.toList ∈ firstBodies σ elems := by
    intro b
    rw [List.mem_map]
    constructor
    · intro hex
      obtain ⟨x, hx, rfl⟩ := hex
      rw [String.toList_ofList]
      exact List.mem_dedup.mp hx
    · intro hb
      exact ⟨b.toList, List.mem_dedup.mpr hb, String.ofList_toList⟩
  refine ⟨hsize, ?_, fun b hb => hsep _ ((hmem b).mp hb), fun x => ?_⟩
  · obtain ⟨b₀, hb₀, hi₀⟩ := (hel.keys 0).mp h0
    have hb := (hsame h0 _).mp ((hel.rests 0 _).mpr ⟨b₀, hb₀, hi₀, rfl⟩)
    exact List.ne_nil_of_mem ((hmem (String.ofList _)).mpr (by rwa [String.toList_ofList]))
  · rw [mem_names_iff]
    constructor
    · intro hex
      obtain ⟨y, hy, e⟩ := hex
      obtain ⟨i, hi, b, hb, rfl⟩ := (hbodies y).mp hy
      refine ⟨i, hi, String.ofList b, (hmem _).mpr (by rwa [String.toList_ofList]), ?_⟩
      rw [← String.toList_inj, toList_element, e, String.toList_ofList, String.toList_ofList]
    · intro hex
      obtain ⟨i, hi, b, hb, rfl⟩ := hex
      refine ⟨decimal i ++ b.toList, (hbodies _).mpr ⟨i, hi, _, (hmem b).mp hb, rfl⟩, ?_⟩
      rw [toList_element, String.toList_ofList]

/-! ## 6. Vectors are recognised -/

section Recognised

variable {names : List String} {n : Nat} {pre : String} {bodies : List String}

/-- The prefix of a vector is the longest common beginning: its names part at the index. -/
theorem IsVec.linePrefix (h : IsVec names n pre bodies) : linePrefix names = pre.toList := by
  obtain ⟨b, hb⟩ := List.exists_mem_of_ne_nil _ h.nonempty
  have hname : ∀ i < n, pre.toList ++ (decimal i ++ b.toList) ∈ sortedNames names := fun i hi =>
    mem_sortedNames.mpr ⟨_, (h.names _).mpr ⟨i, hi, b, hb, rfl⟩, toList_element pre b i⟩
  have h₀ := hname 0 (by have := h.size; omega)
  have h₁ := hname 1 (by have := h.size; omega)
  obtain ⟨hall, hmax⟩ := commonPrefix_spec (List.ne_nil_of_mem h₀)
  have hpre : ∀ x ∈ sortedNames names, pre.toList <+: x := by
    intro x hx
    obtain ⟨y, hy, rfl⟩ := mem_sortedNames.mp hx
    obtain ⟨i, _, b, _, rfl⟩ := (h.names y).mp hy
    rw [toList_element]
    exact List.prefix_append _ _
  have hle := hmax _ hpre
  have hge : (commonPrefix (sortedNames names)).length ≤ pre.toList.length := by
    refine Nat.le_of_not_lt fun hlt => ?_
    -- otherwise the next character would be 0 and 1
    have char : ∀ {c : Char} {y : List Char}, pre.toList ++ c :: y ∈ sortedNames names →
        (commonPrefix (sortedNames names))[pre.toList.length]? = some c := by
      intro c y hy
      obtain ⟨z, hz⟩ := hall _ hy
      have hleft : (commonPrefix (sortedNames names) ++ z)[pre.toList.length]? =
          (commonPrefix (sortedNames names))[pre.toList.length]? := List.getElem?_append_left hlt
      rw [← hleft, hz, List.getElem?_append_right (Nat.le_refl _), Nat.sub_self]
      rfl
    have e₀ := char (c := '0') (y := b.toList) h₀
    have e₁ := char (c := '1') (y := b.toList) h₁
    rw [e₀] at e₁
    revert e₁
    decide
  exact ((List.prefix_of_prefix_length_le (hall _ h₀) (hpre _ h₀) hge).eq_of_length
    (Nat.le_antisymm hge hle))

theorem IsVec.mem_lineBodies (h : IsVec names n pre bodies) {y : List Char} :
    y ∈ lineBodies names ↔ ∃ i < n, ∃ b ∈ bodies, y = decimal i ++ b.toList := by
  rw [Coverage.mem_lineBodies, h.linePrefix]
  constructor
  · intro hex
    obtain ⟨x, hx, e⟩ := hex
    obtain ⟨i, hi, b, hb, rfl⟩ := (h.names x).mp hx
    rw [toList_element] at e
    exact ⟨i, hi, b, hb, (List.append_cancel_left e).symm⟩
  · intro hex
    obtain ⟨i, hi, b, hb, rfl⟩ := hex
    exact ⟨_, (h.names _).mpr ⟨i, hi, b, hb, rfl⟩, toList_element pre b i⟩

theorem IsVec.startsWithDigits (h : IsVec names n pre bodies) : startsWithDigits names = true := by
  unfold Coverage.startsWithDigits
  rw [List.all_eq_true]
  intro y hy
  obtain ⟨i, _, b, _, rfl⟩ := h.mem_lineBodies.mp hy
  cases hd : decimal i with
  | nil => exact absurd hd Nat.toDigits_ne_nil
  | cons c cs =>
      have hc := isDigit_decimal (i := i) c (by simp [hd])
      simp [hc]

/-- The elements of a vector by index. -/
theorem IsVec.elements (h : IsVec names n pre bodies) {elems : Dict Nat (List (List Char))}
    (hel : ElementsOf (lineBodies names) elems) :
    (∀ i, i ∈ elems.keys ↔ i < n) ∧
    ∀ i < n, ∀ x, x ∈ elems.getD i [] ↔ ∃ b ∈ bodies, b.toList = x := by
  -- an index that is read is the printed one
  have hindex : ∀ {i j : Nat} {b : String}, b ∈ bodies →
      bodyIndex (decimal i ++ b.toList) = some j → i = j := by
    intro i j b hb hj
    obtain ⟨_, _, hval, _⟩ := toInt_eq_some.mp hj
    rw [takeWhile_digits isDigit_decimal (h.separated b hb)] at hval
    rw [← hval]
    exact Nat.ofDigitChars_ten_toDigits.symm
  have hparsed : ∀ {i : Nat} {b : String}, i < n → b ∈ bodies →
      bodyIndex (decimal i ++ b.toList) = some i := by
    intro i b hi hb
    obtain ⟨j, hj⟩ := hel.parsed _ (h.mem_lineBodies.mpr ⟨i, hi, b, hb, rfl⟩)
    rwa [← hindex hb hj] at hj
  refine ⟨fun i => ?_, fun i hi x => ?_⟩
  · rw [hel.keys]
    constructor
    · intro hx
      obtain ⟨y, hy, hyi⟩ := hx
      obtain ⟨j, hj, b, hb, rfl⟩ := h.mem_lineBodies.mp hy
      rwa [← hindex hb hyi]
    · intro hi
      obtain ⟨b, hb⟩ := List.exists_mem_of_ne_nil _ h.nonempty
      exact ⟨_, h.mem_lineBodies.mpr ⟨i, hi, b, hb, rfl⟩, hparsed hi hb⟩
  · rw [hel.rests]
    constructor
    · intro hx
      obtain ⟨y, hy, hyi, rfl⟩ := hx
      obtain ⟨j, hj, b, hb, rfl⟩ := h.mem_lineBodies.mp hy
      rw [← hindex hb hyi, List.drop_left]
      exact ⟨b, hb, rfl⟩
    · intro hx
      obtain ⟨b, hb, rfl⟩ := hx
      exact ⟨_, h.mem_lineBodies.mpr ⟨i, hi, b, hb, rfl⟩, hparsed hi hb, by rw [List.drop_left]⟩

/-- The indices of a line, in the order in which the sorted names bring them up. -/
def indexKeys (names : List String) : List Nat :=
  ((vElements (lineBodies names)).map Dict.keys).getD []

/-- **A vector is recognised iff the iteration of its indices starts with 0**, as far as they are
    read at all. -/
theorem vecOfNames_of_isVec {σ : SetOrder} (h : IsVec names n pre bodies) (hpre : pre ≠ "")
    (hread : ∀ b ∈ lineBodies names, ∃ i, bodyIndex b = some i) :
    ((σ.toSeq (indexKeys names)).head? = some 0 → ∃ bs,
      vecOfNames σ names = some (some (n, pre, bs)) ∧ ∀ b, b ∈ bs ↔ b ∈ bodies) ∧
    ((σ.toSeq (indexKeys names)).head? ≠ some 0 → vecOfNames σ names = some none) := by
  obtain ⟨elems, helems⟩ := (vElements_spec _).2 hread
  have hel := (vElements_spec _).1 elems helems
  obtain ⟨hkeys, hrests⟩ := h.elements hel
  obtain ⟨hlen, hcount⟩ := countConsecutive_keys hel.nodup h.size hkeys
  have hpos : ¬ (Coverage.linePrefix names).length = 0 := by
    rw [h.linePrefix, List.length_eq_zero_iff, String.toList_eq_nil_iff]
    exact hpre
  have hindex : indexKeys names = elems.keys := by
    unfold indexKeys
    rw [helems]
    rfl
  have hval : ∀ e ∈ elems.entries, ∀ x, x ∈ e.2 ↔ ∃ b ∈ bodies, b.toList = x := by
    intro e he x
    have hk : e.1 ∈ elems.keys := List.mem_map_of_mem he
    have hget : elems.getD e.1 [] = e.2 := by
      unfold Dict.getD Dict.get?
      rw [Dict.lookup_of_mem hel.nodup he]
      rfl
    rw [← hget]
    exact hrests _ ((hkeys _).mp hk) x
  have hfirst : ∀ x, x ∈ firstBodies σ elems ↔ ∃ b ∈ bodies, b.toList = x := by
    intro x
    have hne : σ.toSeq elems.entries ≠ [] := by
      intro he
      have h0 : 0 ∈ elems.keys := (hkeys 0).mpr (by have := h.size; omega)
      obtain ⟨e, he', _⟩ := List.mem_map.mp h0
      have := (SetOrder.mem_toSeq σ).mpr he'
      rw [he] at this
      cases this
    obtain ⟨e, l, he⟩ := List.exists_cons_of_ne_nil hne
    unfold firstBodies
    rw [he]
    exact hval e ((SetOrder.mem_toSeq σ).mp (by rw [he]; exact List.mem_cons_self)) x
  have hsame : (elems.values.all fun l => l.all (· ∈ firstBodies σ elems) &&
      (firstBodies σ elems).all (· ∈ l)) = true := by
    rw [List.all_eq_true]
    intro l hl
    obtain ⟨e, he, rfl⟩ := List.mem_map.mp hl
    simp only [Bool.and_eq_true, List.all_eq_true, decide_eq_true_eq]
    exact ⟨fun x hx => (hfirst x).mpr ((hval e he x).mp hx),
      fun x hx => (hval e he x).mpr ((hfirst x).mp hx)⟩
  have hrun : vecOfNames σ names = if (σ.toSeq (indexKeys names)).head? = some 0 then
      some (some (n, pre, (firstBodies σ elems).dedup.map String.ofList)) else some none := by
    rw [vecOfNames_eq, if_neg hpos, if_pos h.startsWithDigits, helems, Option.bind_some, hcount,
      Option.bind_some, hlen, h.linePrefix, String.ofList_toList, hindex]
    unfold acceptsElems
    simp only [hlen, hsame, true_and, and_true]
  constructor
  · intro h0
    rw [hrun, if_pos h0]
    refine ⟨_, rfl, fun b => ?_⟩
    rw [List.mem_map]
    constructor
    · intro hex
      obtain ⟨x, hx, rfl⟩ := hex
      obtain ⟨b, hb, rfl⟩ := (hfirst x).mp (List.mem_dedup.mp hx)
      rwa [String.ofList_toList]
    · intro hb
      exact ⟨b.toList, List.mem_dedup.mpr ((hfirst _).mpr ⟨b, hb, rfl⟩), String.ofList_toList⟩
  · intro h0
    rw [hrun, if_neg h0]

end Recognised

/-! ## 7. All source lines -/

/-- The control registers of one source line, by name. -/
def lineNames (ctrlRegs : List DefRegister) (info : Info) : List String :=
  (ctrlRegs.filter (·.info = info)).map (·.name)

theorem mem_lineNames {ctrlRegs : List DefRegister} {info : Info} {x : String} :
    x ∈ lineNames ctrlRegs info ↔ ∃ r ∈ ctrlRegs, r.info = info ∧ r.name = x := by
  unfold lineNames
  simp only [List.mem_map, List.mem_filter, decide_eq_true_eq, and_assoc]

/-- A line on which the recognition does not throw: if its names share a beginning and all go on
    with a digit, then up to the next `_` they go on with numbers below `2^31`, and not all with
    the same. -/
def Parsable (names : List String) : Prop :=
  linePrefix names ≠ [] → startsWithDigits names = true →
    (∀ b ∈ lineBodies names, ∃ i, bodyIndex b = some i) ∧
    ∃ b ∈ lineBodies names, ∃ b' ∈ lineBodies names, bodyIndex b ≠ bodyIndex b'

theorem countConsecutive_isSome {ks : List Nat} : (∃ c, countConsecutive ks = some c) ↔
    ks.length ≠ 1 := by
  match ks with
  | [] => simp [countConsecutive]
  | [_] => simp [countConsecutive]
  | _ :: _ :: _ => simp [countConsecutive]

/-- **When one line throws.** -/
theorem vecOfNames_isSome_iff {σ : SetOrder} {names : List String} (hne : names ≠ []) :
    (∃ o, vecOfNames σ names = some o) ↔ Parsable names := by
  rw [vecOfNames_eq]
  unfold Parsable
  by_cases hpre : (linePrefix names).length = 0
  · rw [if_pos hpre]
    exact ⟨fun _ h => absurd (List.length_eq_zero_iff.mp hpre) h, fun _ => ⟨_, rfl⟩⟩
  rw [if_neg hpre]
  have hpre : linePrefix names ≠ [] := fun h => hpre (List.length_eq_zero_iff.mpr h)
  by_cases hdig : startsWithDigits names = true
  swap
  · rw [if_neg hdig]
    exact ⟨fun _ _ h => absurd h hdig, fun _ => ⟨_, rfl⟩⟩
  rw [if_pos hdig]
  simp only [hpre, hdig, ne_eq, not_false_iff, forall_const]
  -- the elements, and whether there are two indices
  have hcount : ∀ elems, vElements (lineBodies names) = some elems →
      ((∃ c, countConsecutive (elems.keys.insertionSort (· ≤ ·)) = some c) ↔
        ∃ b ∈ lineBodies names, ∃ b' ∈ lineBodies names, ¬ bodyIndex b = bodyIndex b') := by
    intro elems helems
    have hel := (vElements_spec _).1 elems helems
    rw [countConsecutive_isSome, List.length_insertionSort]
    constructor
    · intro hlen
      refine Classical.byContradiction fun hno => hlen ?_
      simp only [not_exists, not_and, not_not] at hno
      obtain ⟨x, hx⟩ := List.exists_mem_of_ne_nil _ hne
      obtain ⟨b, hb, _⟩ := mem_names_iff.mp hx
      obtain ⟨i, hi⟩ := hel.parsed b hb
      have hall : ∀ j ∈ elems.keys, j = i := by
        intro j hj
        obtain ⟨b', hb', hj⟩ := (hel.keys j).mp hj
        have := hno b' hb' b hb
        rw [hi, hj] at this
        exact Option.some.inj this
      have hmem : i ∈ elems.keys := (hel.keys i).mpr ⟨b, hb, hi⟩
      have hnd := hel.nodup
      match hks : elems.keys with
      | [] =>
          rw [hks] at hmem
          cases hmem
      | [_] => rfl
      | a :: c :: l =>
          rw [hks] at hnd hall
          have e : a = c := (hall a (by simp)).trans (hall c (by simp)).symm
          rw [e] at hnd
          simp at hnd
    · intro hex hlen
      obtain ⟨b, hb, b', hb', hne⟩ := hex
      obtain ⟨i, hi⟩ := hel.parsed b hb
      obtain ⟨j, hj⟩ := hel.parsed b' hb'
      obtain ⟨k, hk⟩ := List.length_eq_one_iff.mp hlen
      have h₁ := (hel.keys i).mpr ⟨b, hb, hi⟩
      have h₂ := (hel.keys j).mpr ⟨b', hb', hj⟩
      rw [hk, List.mem_singleton] at h₁ h₂
      exact hne (by rw [hi, hj, h₁, h₂])
  constructor
  · intro hex
    obtain ⟨o, ho⟩ := hex
    simp only [Option.bind_eq_some_iff] at ho
    obtain ⟨elems, helems, cnt, hcnt, _⟩ := ho
    exact ⟨((vElements_spec _).1 elems helems).parsed, (hcount elems helems).mp ⟨cnt, hcnt⟩⟩
  · intro h'
    obtain ⟨hparsed, htwo⟩ := h'
    obtain ⟨elems, helems⟩ := (vElements_spec _).2 hparsed
    obtain ⟨cnt, hcnt⟩ := (hcount elems helems).mpr htwo
    rw [helems, Option.bind_some, hcnt, Option.bind_some]
    split
    · exact ⟨_, rfl⟩
    · exact ⟨_, rfl⟩

section Lines

variable {σ : SetOrder} {ctrlRegs : List DefRegister}

/-- The lines that are looked at; registers without a source line make one, too. -/
def IsLine (ctrlRegs : List DefRegister) (info : Info) : Prop :=
  2 ≤ (lineNames ctrlRegs info).length

theorem mem_groups {ns : List String} :
    ns ∈ ((ctrlRegs.map (·.info)).dedup.map fun i =>
      (ctrlRegs.filter (·.info = i)).map (·.name)).filter (fun ns => 2 ≤ ns.length) ↔
    ∃ info, IsLine ctrlRegs info ∧ lineNames ctrlRegs info = ns := by
  simp only [List.mem_filter, List.mem_map, List.mem_dedup, decide_eq_true_eq]
  constructor
  · intro h
    obtain ⟨⟨info, _, rfl⟩, hlen⟩ := h
    exact ⟨info, hlen, rfl⟩
  · intro h
    obtain ⟨info, hlen, rfl⟩ := h
    refine ⟨⟨info, ?_, rfl⟩, hlen⟩
    obtain ⟨x, hx⟩ := List.exists_mem_of_length_pos (Nat.lt_of_lt_of_le Nat.two_pos hlen)
    obtain ⟨r, hr, hi, _⟩ := mem_lineNames.mp hx
    exact ⟨r, hr, hi⟩

/-- **`findVecRegs`, line by line.** -/
theorem mem_findVecRegs {vecs : List (Nat × String × List String)}
    (h : findVecRegs σ ctrlRegs = some vecs) {t : Nat × String × List String} :
    t ∈ vecs ↔ ∃ info, IsLine ctrlRegs info ∧
      vecOfNames σ (lineNames ctrlRegs info) = some (some t) := by
  unfold findVecRegs at h
  rw [Option.map_eq_some_iff] at h
  obtain ⟨os, hos, rfl⟩ := h
  have hos := forall₂_of_mapM hos
  rw [List.mem_dedup, List.mem_filterMap]
  constructor
  · intro hx
    obtain ⟨o, ho, rfl⟩ := hx
    obtain ⟨ns, hns, e⟩ := Forall₂.mem_right hos ho
    obtain ⟨info, hl, rfl⟩ := mem_groups.mp hns
    exact ⟨info, hl, e⟩
  · intro hx
    obtain ⟨info, hl, e⟩ := hx
    obtain ⟨o, ho, e'⟩ := Forall₂.mem_left hos (mem_groups.mpr ⟨info, hl, rfl⟩)
    rw [e] at e'
    exact ⟨o, ho, (Option.some.inj e').symm⟩

theorem IsLine.ne_nil {info : Info} (h : IsLine ctrlRegs info) : lineNames ctrlRegs info ≠ [] :=
  List.ne_nil_of_length_pos (Nat.lt_of_lt_of_le Nat.two_pos h)

/-- **When vector detection throws**: exactly when it does on some line. -/
theorem findVecRegs_isSome : (findVecRegs σ ctrlRegs).isSome = true ↔
    ∀ info, IsLine ctrlRegs info → ∃ o, vecOfNames σ (lineNames ctrlRegs info) = some o := by
  unfold findVecRegs
  rw [Option.isSome_map, Option.isSome_iff_exists, exists_mapM_iff]
  constructor
  · intro h info hl
    exact h _ (mem_groups.mpr ⟨info, hl, rfl⟩)
  · intro h ns hns
    obtain ⟨info, hl, rfl⟩ := mem_groups.mp hns
    exact h info hl

theorem IsLine.vecOfNames_isSome_iff {info : Info} (h : IsLine ctrlRegs info) :
    (∃ o, vecOfNames σ (lineNames ctrlRegs info) = some o) ↔ Parsable (lineNames ctrlRegs info) :=
  Coverage.vecOfNames_isSome_iff h.ne_nil

/-- The name of an element tells its index and its body. -/
theorem element_inj {pre b b' : String} {i i' : Nat} (hb : Separated b.toList)
    (hb' : Separated b'.toList) (h : pre ++ (toString i ++ b) = pre ++ (toString i' ++ b')) :
    i = i' ∧ b = b' := by
  rw [← String.toList_inj, toList_element, toList_element] at h
  have h := List.append_cancel_left h
  have hdec : decimal i = decimal i' := by
    rw [← takeWhile_digits isDigit_decimal hb, h, takeWhile_digits isDigit_decimal hb']
  have hi : i = i' := by
    have := congrArg (fun cs => Nat.ofDigitChars 10 cs 0) hdec
    simpa [decimal] using this
  refine ⟨hi, ?_⟩
  rw [hdec] at h
  exact String.toList_inj.mp (List.append_cancel_left h)

/-- **A name is an element of one vector only.** -/
theorem findVecRegs_unique (hinj : ∀ r ∈ ctrlRegs, ∀ r' ∈ ctrlRegs, r.name = r'.name → r = r')
    {vecs : List (Nat × String × List String)} (h : findVecRegs σ ctrlRegs = some vecs)
    {t t' : Nat × String × List String} (ht : t ∈ vecs) (ht' : t' ∈ vecs) {i i' : Nat}
    (hi : i < t.1) (hi' : i' < t'.1) {b b' : String} (hb : b ∈ t.2.2) (hb' : b' ∈ t'.2.2)
    (hn : t.2.1 ++ (toString i ++ b) = t'.2.1 ++ (toString i' ++ b')) : t = t' ∧ i = i' ∧ b = b' := by
  obtain ⟨info, _, hv⟩ := (mem_findVecRegs h).mp ht
  obtain ⟨info', _, hv'⟩ := (mem_findVecRegs h).mp ht'
  have hvec : IsVec _ t.1 t.2.1 t.2.2 := vecOfNames_isVec hv
  have hvec' : IsVec _ t'.1 t'.2.1 t'.2.2 := vecOfNames_isVec hv'
  -- the register of this name stands on one line
  obtain ⟨r, hr, e, hx⟩ := mem_lineNames.mp ((hvec.names _).mpr ⟨i, hi, b, hb, rfl⟩)
  obtain ⟨r', hr', e', hx'⟩ := mem_lineNames.mp ((hvec'.names _).mpr ⟨i', hi', b', hb', rfl⟩)
  have hrr : r = r' := hinj r hr r' hr' (by rw [hx, hx', hn])
  rw [← e', ← hrr, e, hv] at hv'
  have htt : t = t' := by simpa using hv'
  subst htt
  exact ⟨rfl, element_inj (hvec.separated b hb) (hvec.separated b' hb') hn⟩

/-- **Recognised vectors are real**: there is one source line whose control registers are exactly
    the prefix, an index below the size and one of the bodies. -/
theorem recognised_vectors_real {vecs : List (Nat × String × List String)}
    (h : findVecRegs σ ctrlRegs = some vecs) : ∀ t ∈ vecs, 2 ≤ t.1 ∧ t.2.2 ≠ [] ∧
      ∃ info, (∀ i < t.1, ∀ b ∈ t.2.2, ∃ r ∈ ctrlRegs, r.info = info ∧
          r.name = t.2.1 ++ (toString i ++ b)) ∧
        ∀ r ∈ ctrlRegs, r.info = info → ∃ i < t.1, ∃ b ∈ t.2.2,
          r.name = t.2.1 ++ (toString i ++ b) := by
  intro t ht
  obtain ⟨info, _, ht⟩ := (mem_findVecRegs h).mp ht
  have hv : IsVec _ t.1 t.2.1 t.2.2 := vecOfNames_isVec ht
  refine ⟨hv.size, hv.nonempty, info, fun i hi b hb => ?_, fun r hr hi => ?_⟩
  · exact mem_lineNames.mp ((hv.names _).mpr ⟨i, hi, b, hb, rfl⟩)
  · exact (hv.names _).mp (mem_lineNames.mpr ⟨r, hr, hi, rfl⟩)

end Lines

/-- A register of one bit on a source line. -/
def lineReg (info : Info) (name : String) : DefRegister :=
  ⟨info, name, .uint 1, .ref "clock" .clock, .uintLit 0 1, .ref name (.uint 1)⟩

/-- Without a source line they are a vector all the same. -/
example : findVecRegs .insertion (["r_0", "r_1"].map (lineReg .noInfo)) = some [(2, "r_", [""])] := by
  decide

/-- Two elements with two fields. -/
theorem recognised_two : ∃ vecs,
    findVecRegs .insertion (["r_0_a", "r_0_b", "r_1_a", "r_1_b"].map (lineReg (.fileInfo "l"))) =
      some vecs ∧ vecs = [(2, "r_", ["_a", "_b"])] ∧
    ∀ t ∈ vecs, 2 ≤ t.1 ∧ t.2.2 ≠ [] ∧ ∃ info,
      (∀ i < t.1, ∀ b ∈ t.2.2, ∃ r ∈ ["r_0_a", "r_0_b", "r_1_a", "r_1_b"].map
        (lineReg (.fileInfo "l")), r.info = info ∧ r.name = t.2.1 ++ (toString i ++ b)) ∧
      ∀ r ∈ ["r_0_a", "r_0_b", "r_1_a", "r_1_b"].map (lineReg (.fileInfo "l")), r.info = info →
        ∃ i < t.1, ∃ b ∈ t.2.2, r.name = t.2.1 ++ (toString i ++ b) := by
  have h : findVecRegs .insertion (["r_0_a", "r_0_b", "r_1_a", "r_1_b"].map
      (lineReg (.fileInfo "l"))) = some [(2, "r_", ["_a", "_b"])] := by decide
  exact ⟨_, h, rfl, recognised_vectors_real h⟩

/-! ## 8. When vectors are found -/

section Found

variable {σ : SetOrder} {ctrlRegs : List DefRegister}

/-- **Vector detection is total exactly** when every line is parsable: the names of a line that share
    a beginning and all go on with a digit go on with numbers below `2^31` up to the next `_`, and not
    all with the same number. -/
theorem findVecRegs_total_iff :
    (findVecRegs σ ctrlRegs).isSome = true ↔
      ∀ info, IsLine ctrlRegs info → Parsable (lineNames ctrlRegs info) := by
  rw [findVecRegs_isSome]
  exact forall₂_congr fun info hl => hl.vecOfNames_isSome_iff

/-- The characters of a FIRRTL identifier. -/
def legalId (n : String) : Bool :=
  n.toList.all (fun c => c.isAlphanum || c == '_' || c == '$') &&
    (n.toList.head?.map fun c => c.isAlpha || c == '_').getD false

/-- Legal names on which detection throws: a number that a letter follows, and one number that is
    written in two ways. -/
theorem findVecRegs_throws :
    (["r_0x", "r_1x", "s_1", "s_01"].all legalId = true) ∧
    findVecRegs .insertion (["r_0x", "r_1x"].map (lineReg (.fileInfo "l"))) = none ∧
    findVecRegs .insertion (["s_1", "s_01"].map (lineReg (.fileInfo "l"))) = none := by
  decide

theorem separated_iff {b : List Char} : Separated b ↔ b = [] ∨ b.head? = some '_' := by
  unfold Separated
  cases b with
  | nil => simp
  | cons c b => by_cases hc : c = '_' <;> simp [hc]

/-- **A complete vector is found exactly** when detection does not throw on any line, and the iteration
    order of the set of its indices starts with 0. -/
theorem vector_found_iff
    (hinj : ∀ r ∈ ctrlRegs, ∀ r' ∈ ctrlRegs, r.name = r'.name → r = r') {info : Info} {n : Nat}
    {pre : String} {bodies : List String} (hn : 2 ≤ n) (hpre : pre ≠ "") (hne : bodies ≠ [])
    (hsep : ∀ b ∈ bodies, b.toList = [] ∨ b.toList.head? = some '_')
    (hnames : ∀ x, (∃ r ∈ ctrlRegs, r.info = info ∧ r.name = x) ↔
      ∃ i < n, ∃ b ∈ bodies, x = pre ++ (toString i ++ b)) :
    (∃ vecs, findVecRegs σ ctrlRegs = some vecs ∧
      ∃ bs, (n, pre, bs) ∈ vecs ∧ ∀ b, b ∈ bs ↔ b ∈ bodies) ↔
    (∀ info, IsLine ctrlRegs info → Parsable (lineNames ctrlRegs info)) ∧
      (σ.toSeq (indexKeys (lineNames ctrlRegs info))).head? = some 0 := by
  have hv : IsVec (lineNames ctrlRegs info) n pre bodies :=
    ⟨hn, hne, fun b hb => separated_iff.mpr (hsep b hb), fun x => mem_lineNames.trans (hnames x)⟩
  obtain ⟨b, hb⟩ := List.exists_mem_of_ne_nil _ hne
  have hline : IsLine ctrlRegs info := by
    show 2 ≤ (lineNames ctrlRegs info).length
    have h₀ := (hv.names _).mpr ⟨0, by omega, b, hb, rfl⟩
    have h₁ := (hv.names _).mpr ⟨1, by omega, b, hb, rfl⟩
    have hdiff : pre ++ (toString 0 ++ b) ≠ pre ++ (toString 1 ++ b) := by
      intro e
      rw [← String.toList_inj, toList_element, toList_element] at e
      have hdec : decimal 0 = decimal 1 := List.append_cancel_right (List.append_cancel_left e)
      revert hdec
      decide
    match hl : lineNames ctrlRegs info with
    | [] =>
        rw [hl] at h₀
        cases h₀
    | [x] =>
        rw [hl, List.mem_singleton] at h₀ h₁
        exact absurd (h₀.trans h₁.symm) hdiff
    | _ :: _ :: _ => simp
  have hread : (∀ info, IsLine ctrlRegs info → Parsable (lineNames ctrlRegs info)) →
      ∀ b ∈ lineBodies (lineNames ctrlRegs info), ∃ i, bodyIndex b = some i := by
    intro hpars
    refine (hpars info hline (fun h => hpre ?_) hv.startsWithDigits).1
    rw [hv.linePrefix] at h
    exact String.toList_eq_nil_iff.mp h
  constructor
  · intro hex
    obtain ⟨vecs, hvecs, bs, hmem, hsame⟩ := hex
    have hsome := findVecRegs_isSome.mp (Option.isSome_iff_exists.mpr ⟨vecs, hvecs⟩)
    have hpars := fun info hl => (IsLine.vecOfNames_isSome_iff hl).mp (hsome info hl)
    refine ⟨hpars, Classical.byContradiction fun hzero => ?_⟩
    obtain ⟨info', _, hfound⟩ := (mem_findVecRegs hvecs).mp hmem
    -- the first element stands on both lines, so they are one
    have hv' := vecOfNames_isVec hfound
    obtain ⟨r, hr, hi, hx⟩ := mem_lineNames.mp ((hv.names _).mpr ⟨0, by omega, b, hb, rfl⟩)
    obtain ⟨r', hr', hi', hx'⟩ :=
      mem_lineNames.mp ((hv'.names _).mpr ⟨0, by omega, b, (hsame b).mpr hb, rfl⟩)
    have hrr := hinj r hr r' hr' (hx.trans hx'.symm)
    rw [← hi', ← hrr, hi, (vecOfNames_of_isVec hv hpre (hread hpars)).2 hzero] at hfound
    cases hfound
  · intro h'
    obtain ⟨hpars, hzero⟩ := h'
    obtain ⟨vecs, hvecs⟩ := Option.isSome_iff_exists.mp
      (findVecRegs_isSome.mpr fun info hl => hl.vecOfNames_isSome_iff.mpr (hpars info hl))
    obtain ⟨bs, hbs, hsame⟩ := (vecOfNames_of_isVec hv hpre (hread hpars)).1 hzero
    exact ⟨vecs, hvecs, bs, (mem_findVecRegs hvecs).mpr ⟨info, hline, hbs⟩, hsame⟩

end Found

/-- An order that keeps small collections as they were built and turns larger ones around. -/
def turnLarge : SetOrder where
  toSeq l := if l.length ≤ 4 then l else l.reverse
  perm l := by
    split
    · exact .refl l
    · exact l.reverse_perm

/-- A vector of five elements. -/
def fiveRegs : List DefRegister :=
  ["r_0", "r_1", "r_2", "r_3", "r_4"].map (lineReg (.fileInfo "l"))

/-- In the order of insertion it is found. -/
theorem fiveRegs_found : ∃ vecs, findVecRegs .insertion fiveRegs = some vecs ∧
    ∃ bs, (5, "r_", bs) ∈ vecs ∧ ∀ b, b ∈ bs ↔ b ∈ [""] := by
  have hsome := (@findVecRegs_isSome .insertion fiveRegs).mp (by decide)
  refine (@vector_found_iff .insertion fiveRegs (by decide) (.fileInfo "l") 5 "r_" [""] (by decide)
    (by decide) (by decide) (by decide) fun x => ?_).mpr
    ⟨fun info hl => hl.vecOfNames_isSome_iff.mp (hsome info hl), by decide⟩
  have hleft : ∀ r ∈ fiveRegs, ∃ i < 5, ∃ b ∈ [""], r.name = "r_" ++ (toString i ++ b) := by
    decide
  have hright : ∀ i < 5, ∀ b ∈ [""], ∃ r ∈ fiveRegs, r.info = .fileInfo "l" ∧
      r.name = "r_" ++ (toString i ++ b) := by decide
  constructor
  · intro h
    obtain ⟨r, hr, _, rfl⟩ := h
    exact hleft r hr
  · intro h
    obtain ⟨i, hi, b, hb, rfl⟩ := h
    exact hright i hi b hb

/-- In another order it is not, although the line has all of its elements and nothing else. -/
theorem fiveRegs_lost : findVecRegs turnLarge fiveRegs = some [] ∧
    fiveRegs.map (·.name) = (List.range 5).map fun i => "r_" ++ (toString i ++ "") := by
  decide

end Difuzz.Coverage
