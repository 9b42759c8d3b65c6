/-
  File:      DifuzzRtl/Lib/Collections.lean
  Subject:   The collections the source languages provide: maps that keep their insertion order,
             and sets whose iteration order is not specified.

  * `Dict` -- a map as its list of entries. Setting a present key replaces its value in place,
    setting an absent one appends. Lookups answer the first entry of a key.
  * `SetOrder` -- the order in which a hash set or hash map is iterated, as an arbitrary
    permutation of its elements. What is proved for every `SetOrder` holds whatever order the
    library picks.
  * `forall₂_of_mapM`, `exists_mapM_iff` -- the outcomes of a fallible map, position by position,
    and when there are any.
-/
import Mathlib.Data.List.Dedup
import Mathlib.Data.List.Perm.Basic
import Mathlib.Tactic.Common

namespace Difuzz

/-- One instance, so that texts are compared in the same way everywhere. -/
instance lawfulBEqText : LawfulBEq (List Char) := inferInstance

/-! ## 1. Maps -/

/-- A map with keys `κ`, as its entries in insertion order. -/
structure Dict (κ ν : Type) where
  entries : List (κ × ν)
  deriving DecidableEq

namespace Dict

variable {κ ν : Type} [DecidableEq κ]

def empty : Dict κ ν := ⟨[]⟩

def get? (d : Dict κ ν) (k : κ) : Option ν := d.entries.lookup k

def getD (d : Dict κ ν) (k : κ) (x : ν) : ν := (d.get? k).getD x

def keys (d : Dict κ ν) : List κ := d.entries.map (·.1)

def values (d : Dict κ ν) : List ν := d.entries.map (·.2)

/-- `true` iff the key has a value. -/
def contains (d : Dict κ ν) (k : κ) : Bool := (d.get? k).isSome

def setEntries : List (κ × ν) → κ → ν → List (κ × ν)
  | [], k, x => [(k, x)]
  | (k', x') :: es, k, x => if k' = k then (k, x) :: es else (k', x') :: setEntries es k x

def set (d : Dict κ ν) (k : κ) (x : ν) : Dict κ ν := ⟨setEntries d.entries k x⟩

def erase (d : Dict κ ν) (k : κ) : Dict κ ν := ⟨d.entries.filter fun e => e.1 ≠ k⟩

/-- The entries in order, a later value of a key replacing an earlier one. -/
def ofList (es : List (κ × ν)) : Dict κ ν := es.foldl (fun d e => d.set e.1 e.2) empty

@[simp] theorem get?_empty (k : κ) : (empty : Dict κ ν).get? k = none := rfl

theorem lookup_setEntries (es : List (κ × ν)) (k : κ) (x : ν) (k' : κ) :
    (setEntries es k x).lookup k' = if k' = k then some x else es.lookup k' := by
  induction es with
  | nil =>
      by_cases h : k' = k
      · subst h
        simp [setEntries]
      · have hb : (k' == k) = false := by simpa using h
        simp [setEntries, List.lookup_cons, h, hb]
  | cons e es ih =>
      obtain ⟨k₁, x₁⟩ := e
      by_cases h₁ : k₁ = k
      · subst h₁
        by_cases h : k' = k₁
        · subst h
          simp [setEntries]
        · have hb : (k' == k₁) = false := by simpa using h
          simp [setEntries, List.lookup_cons, h, hb]
      · by_cases h : k' = k₁
        · subst h
          simp [setEntries, h₁]
        · have hb : (k' == k₁) = false := by simpa using h
          simp only [setEntries, if_neg h₁, List.lookup_cons, hb]
          exact ih

@[simp] theorem get?_set (d : Dict κ ν) (k : κ) (x : ν) (k' : κ) :
    (d.set k x).get? k' = if k' = k then some x else d.get? k' :=
  lookup_setEntries d.entries k x k'

@[simp] theorem getD_set (d : Dict κ ν) (k : κ) (x : ν) (k' : κ) (y : ν) :
    (d.set k x).getD k' y = if k' = k then x else d.getD k' y := by
  unfold getD
  rw [get?_set]
  by_cases h : k' = k
  · simp [h]
  · simp [h]

/-- Another key is not erased. -/
theorem get?_erase_of_ne {d : Dict κ ν} {k k' : κ} (h : k' ≠ k) :
    (d.erase k).get? k' = d.get? k' := by
  unfold erase get?
  induction d.entries with
  | nil => rfl
  | cons e es ih =>
      obtain ⟨k₁, x₁⟩ := e
      by_cases h₁ : k₁ = k
      · have hb : (k' == k₁) = false := by simpa [h₁] using h
        simp only [List.filter_cons, h₁, ne_eq, not_true_eq_false, decide_false, Bool.false_eq_true,
          if_false, List.lookup_cons]
        rw [← h₁, hb, h₁]
        exact ih
      · simp only [List.filter_cons, ne_eq, h₁, not_false_eq_true, decide_true, if_true, List.lookup_cons]
        rw [ih]

theorem contains_set {d : Dict κ ν} {k k' : κ} {x : ν} (h : d.contains k' = true) :
    (d.set k x).contains k' = true := by
  unfold contains at h ⊢
  rw [get?_set]
  split
  · rfl
  · exact h

theorem contains_erase {d : Dict κ ν} {k k' : κ} (hne : k' ≠ k) (h : d.contains k' = true) :
    (d.erase k).contains k' = true := by
  unfold contains at h ⊢
  rw [get?_erase_of_ne hne]
  exact h

/-- A list of pairs whose values depend on their keys. -/
theorem lookup_map_self (l : List κ) (f : κ → ν) (k : κ) :
    (l.map fun x => (x, f x)).lookup k = if k ∈ l then some (f k) else none := by
  induction l with
  | nil => rfl
  | cons x l ih =>
      by_cases h : k = x
      · subst h
        simp
      · have hb : (k == x) = false := by simpa using h
        simp only [List.map_cons, List.lookup_cons, hb, ih, List.mem_cons, h, false_or]

theorem get?_append (l l' : List (κ × ν)) (k : κ) :
    (⟨l ++ l'⟩ : Dict κ ν).get? k = ((⟨l⟩ : Dict κ ν).get? k).or ((⟨l'⟩ : Dict κ ν).get? k) :=
  List.lookup_append

theorem set_entries_ne_nil (d : Dict κ ν) (k : κ) (x : ν) : (d.set k x).entries ≠ [] := by
  unfold set
  cases h : d.entries with
  | nil => exact List.cons_ne_nil _ _
  | cons e es =>
      unfold setEntries
      split
      · exact List.cons_ne_nil _ _
      · exact List.cons_ne_nil _ _

theorem get?_ofList_foldl (es : List (κ × ν)) (d : Dict κ ν) (k : κ) :
    (es.foldl (fun d e => d.set e.1 e.2) d).get? k =
      ((es.reverse.lookup k).or (d.get? k)) := by
  induction es generalizing d with
  | nil => simp
  | cons e es ih =>
      obtain ⟨k₁, x₁⟩ := e
      rw [List.foldl_cons, ih, List.reverse_cons, List.lookup_append, get?_set]
      by_cases h : k = k₁
      · subst h
        simp
      · have hb : (k == k₁) = false := by simpa using h
        simp [List.lookup_cons, h, hb]

/-- A map built from a list of entries holds the last entry of each key. -/
theorem get?_ofList (es : List (κ × ν)) (k : κ) : (ofList es).get? k = es.reverse.lookup k := by
  unfold ofList
  rw [get?_ofList_foldl]
  simp

theorem mem_of_lookup {es : List (κ × ν)} {k : κ} {x : ν} (h : es.lookup k = some x) :
    (k, x) ∈ es := by
  induction es with
  | nil => cases h
  | cons e es ih =>
      obtain ⟨k₁, x₁⟩ := e
      by_cases hk : k = k₁
      · subst hk
        simp at h
        subst h
        exact List.mem_cons_self
      · have hb : (k == k₁) = false := by simpa using hk
        simp only [List.lookup_cons, hb] at h
        exact List.mem_cons_of_mem _ (ih h)

theorem lookup_isSome_of_mem {es : List (κ × ν)} {k : κ} {x : ν} (h : (k, x) ∈ es) :
    ∃ y, es.lookup k = some y := by
  induction es with
  | nil => cases h
  | cons e es ih =>
      obtain ⟨k₁, x₁⟩ := e
      by_cases hk : k = k₁
      · subst hk
        exact ⟨x₁, by simp⟩
      · have hb : (k == k₁) = false := by simpa using hk
        rcases List.mem_cons.mp h with e | h'
        · exact absurd (congrArg Prod.fst e) hk
        · obtain ⟨y, hy⟩ := ih h'
          exact ⟨y, by simp only [List.lookup_cons, hb, hy]⟩

theorem mem_setEntries {es : List (κ × ν)} {k : κ} {x : ν} {e : κ × ν}
    (h : e ∈ setEntries es k x) : e = (k, x) ∨ e ∈ es := by
  induction es with
  | nil => exact .inl (List.mem_singleton.mp h)
  | cons e' es ih =>
      obtain ⟨k₁, x₁⟩ := e'
      by_cases hk : k₁ = k
      · simp only [setEntries, if_pos hk, List.mem_cons] at h
        exact h.imp id (List.mem_cons_of_mem _)
      · simp only [setEntries, if_neg hk, List.mem_cons] at h
        rcases h with rfl | h
        · exact .inr List.mem_cons_self
        · exact (ih h).imp id (List.mem_cons_of_mem _)

theorem setEntries_of_not_mem {es : List (κ × ν)} {k : κ} (x : ν) (h : k ∉ es.map (·.1)) :
    setEntries es k x = es ++ [(k, x)] := by
  induction es with
  | nil => rfl
  | cons e es ih =>
      obtain ⟨k₁, x₁⟩ := e
      simp only [List.map_cons, List.mem_cons, not_or] at h
      have hne : k₁ ≠ k := fun e => h.1 e.symm
      simp only [setEntries, if_neg hne, ih h.2, List.cons_append]

/-- Entries with distinct keys are kept as they are. -/
theorem ofList_entries {es : List (κ × ν)} (h : (es.map (·.1)).Nodup) : (ofList es).entries = es := by
  have key : ∀ (es : List (κ × ν)) (d : Dict κ ν), ((d.entries ++ es).map (·.1)).Nodup →
      (es.foldl (fun d e => d.set e.1 e.2) d).entries = d.entries ++ es := by
    intro es
    induction es with
    | nil => simp
    | cons e es ih =>
        intro d hn
        have hk : e.1 ∉ d.entries.map (·.1) := by
          intro hm
          rw [List.map_append, List.map_cons] at hn
          exact (List.nodup_append.mp hn).2.2 _ hm _ List.mem_cons_self rfl
        have hs : (d.set e.1 e.2).entries = d.entries ++ [e] := setEntries_of_not_mem e.2 hk
        rw [List.foldl_cons, ih _ (by rw [hs, List.append_assoc]; exact hn), hs, List.append_assoc]
        rfl
  exact key es empty h

theorem lookup_of_mem {es : List (κ × ν)} (h : (es.map (·.1)).Nodup) {k : κ} {x : ν}
    (hm : (k, x) ∈ es) : es.lookup k = some x := by
  induction es with
  | nil => cases hm
  | cons e es ih =>
      obtain ⟨k₁, x₁⟩ := e
      simp only [List.map_cons, List.nodup_cons] at h
      rcases List.mem_cons.mp hm with e | hm'
      · cases e
        simp
      · have hk : k ∈ es.map (·.1) := List.mem_map_of_mem (f := (·.1)) hm'
        have hne : k ≠ k₁ := fun e => h.1 (e ▸ hk)
        have hb : (k == k₁) = false := by simpa using hne
        simp only [List.lookup_cons, hb]
        exact ih h.2 hm'

/-- Setting a present key replaces one entry. -/
theorem set_split {d : Dict κ ν} {k : κ} {x : ν} (h : d.get? k = some x) :
    ∃ l r, d.entries = l ++ (k, x) :: r ∧ ∀ y, (d.set k y).entries = l ++ (k, y) :: r := by
  obtain ⟨es⟩ := d
  unfold get? at h
  unfold set
  induction es with
  | nil => cases h
  | cons e es ih =>
      obtain ⟨k₁, x₁⟩ := e
      by_cases hk : k₁ = k
      · subst hk
        have hx : x₁ = x := by simpa [List.lookup_cons] using h
        subst hx
        exact ⟨[], es, rfl, fun y => by simp [setEntries]⟩
      · have hb : (k == k₁) = false := by simpa using fun e => hk e.symm
        simp only [List.lookup_cons, hb] at h
        obtain ⟨l, r, hes, hset⟩ := ih h
        refine ⟨(k₁, x₁) :: l, r, by simpa using hes, fun y => ?_⟩
        simpa [setEntries, hk] using hset y

theorem keys_setEntries (es : List (κ × ν)) (k : κ) (x : ν) :
    (setEntries es k x).map (·.1) = if k ∈ es.map (·.1) then es.map (·.1) else es.map (·.1) ++ [k] := by
  induction es with
  | nil => simp [setEntries]
  | cons e es ih =>
      obtain ⟨k₁, x₁⟩ := e
      by_cases hk : k₁ = k
      · simp [setEntries, hk]
      · have hk' : k ≠ k₁ := fun e => hk e.symm
        simp only [setEntries, if_neg hk, List.map_cons, ih, List.mem_cons, hk', false_or]
        split <;> rfl

theorem keys_set_of_mem {d : Dict κ ν} {k : κ} {x : ν} (h : k ∈ d.keys) :
    (d.set k x).keys = d.keys :=
  (keys_setEntries d.entries k x).trans (if_pos h)

theorem get?_isSome_iff {d : Dict κ ν} {k : κ} : (∃ x, d.get? k = some x) ↔ k ∈ d.keys := by
  unfold keys
  constructor
  · intro h
    obtain ⟨x, hx⟩ := h
    exact List.mem_map.mpr ⟨_, mem_of_lookup hx, rfl⟩
  · intro h
    obtain ⟨e, he, rfl⟩ := List.mem_map.mp h
    exact lookup_isSome_of_mem he

theorem get?_eq_none {d : Dict κ ν} {k : κ} (h : k ∉ d.keys) : d.get? k = none := by
  cases hx : d.get? k with
  | none => rfl
  | some x => exact absurd (get?_isSome_iff.mp ⟨x, hx⟩) h

/-- A map built from a list of entries has distinct keys: those of the list. -/
theorem ofList_keys (es : List (κ × ν)) :
    (ofList es).keys.Nodup ∧ ∀ k, k ∈ (ofList es).keys ↔ k ∈ es.map (·.1) := by
  have key : ∀ (es : List (κ × ν)) (d : Dict κ ν), d.keys.Nodup →
      (es.foldl (fun d e => d.set e.1 e.2) d).keys.Nodup ∧
      ∀ k, k ∈ (es.foldl (fun d e => d.set e.1 e.2) d).keys ↔ k ∈ d.keys ∨ k ∈ es.map (·.1) := by
    intro es
    induction es with
    | nil => intro d hd; exact ⟨hd, by simp⟩
    | cons e es ih =>
        intro d hd
        have hs : (d.set e.1 e.2).keys = if e.1 ∈ d.keys then d.keys else d.keys ++ [e.1] :=
          keys_setEntries d.entries e.1 e.2
        have hn : (d.set e.1 e.2).keys.Nodup := by
          rw [hs]
          split
          · exact hd
          · rename_i hne
            rw [List.nodup_append]
            refine ⟨hd, by simp, fun a ha b hb e' => hne ?_⟩
            rw [List.mem_singleton.mp hb] at e'
            rw [← e']
            exact ha
        obtain ⟨h₁, h₂⟩ := ih _ hn
        refine ⟨h₁, fun k => ?_⟩
        have hmem : k ∈ (d.set e.1 e.2).keys ↔ k ∈ d.keys ∨ k = e.1 := by
          rw [hs]
          split
          · rename_i hin
            exact ⟨.inl, fun h => h.elim id fun e' => e' ▸ hin⟩
          · rw [List.mem_append, List.mem_singleton]
        rw [List.foldl_cons, h₂, hmem, List.map_cons, List.mem_cons, or_assoc]
  obtain ⟨h₁, h₂⟩ := key es empty List.nodup_nil
  refine ⟨h₁, fun k => (h₂ k).trans ⟨fun h => ?_, .inr⟩⟩
  rcases h with h | h
  · cases h
  · exact h

theorem mem_keys_ofList {es : List (κ × ν)} {k : κ} : k ∈ (ofList es).keys ↔ k ∈ es.map (·.1) :=
  (ofList_keys es).2 k

theorem mem_entries_iff {es : List (κ × ν)} {k : κ} {x : ν} :
    (k, x) ∈ (ofList es).entries ↔ (ofList es).get? k = some x :=
  ⟨fun h => lookup_of_mem (ofList_keys es).1 h, fun h => mem_of_lookup h⟩

/-- Mapping the values of a map built from a list. -/
theorem get?_ofList_map {μ : Type} (f : ν → μ) (es : List (κ × ν)) (k : κ) :
    (ofList (es.map fun e => (e.1, f e.2))).get? k = ((ofList es).get? k).map f := by
  rw [get?_ofList, get?_ofList, ← List.map_reverse]
  induction es.reverse with
  | nil => rfl
  | cons e es ih =>
      obtain ⟨k', x⟩ := e
      by_cases hk : k = k'
      · simp [hk]
      · have hb : (k == k') = false := by simpa using hk
        simp only [List.map_cons, List.lookup_cons, hb, ih]

/-- The entries of such a map are the last ones of their keys. -/
theorem mem_entries_ofList {es : List (κ × ν)} {e : κ × ν} :
    e ∈ (ofList es).entries ↔ ∃ xs ys, es = xs ++ e :: ys ∧ ∀ e' ∈ ys, e'.1 ≠ e.1 := by
  have hl : e ∈ (ofList es).entries ↔ es.reverse.lookup e.1 = some e.2 := by
    rw [← get?_ofList]
    exact mem_entries_iff
  rw [hl, List.lookup_eq_some_iff]
  constructor
  · intro hx
    obtain ⟨l₁, l₂, h, hn⟩ := hx
    refine ⟨l₂.reverse, l₁.reverse, ?_, fun e' he' heq => ?_⟩
    · rw [← List.reverse_reverse es, h]
      simp
    · have := hn e' (List.mem_reverse.mp he')
      simp [heq] at this
  · intro hx
    obtain ⟨xs, ys, rfl, hn⟩ := hx
    refine ⟨ys.reverse, xs.reverse, by simp, fun e' he' => ?_⟩
    simpa using fun h : e.1 = e'.1 => hn e' (List.mem_reverse.mp he') h.symm

end Dict

/-! ## 2. Iteration order of hash collections -/

/-- The iteration order of sets: some permutation of the elements. -/
structure SetOrder where
  toSeq : {α : Type} → List α → List α
  perm : ∀ {α : Type} (l : List α), (toSeq l).Perm l

namespace SetOrder

/-- Iteration in insertion order. -/
def insertion : SetOrder where
  toSeq l := l
  perm l := .refl l

@[simp] theorem mem_toSeq (σ : SetOrder) {α : Type} {l : List α} {x : α} :
    x ∈ σ.toSeq l ↔ x ∈ l := (σ.perm l).mem_iff

theorem nodup_toSeq (σ : SetOrder) {α : Type} {l : List α} (h : l.Nodup) : (σ.toSeq l).Nodup :=
  (σ.perm l).nodup_iff.mpr h

end SetOrder

/-! ## 3. Lists related position by position -/

theorem forall₂_of_mapM {α β : Type} {f : α → Option β} {l : List α} {l' : List β}
    (h : l.mapM f = some l') : List.Forall₂ (fun a b => f a = some b) l l' := by
  induction l generalizing l' with
  | nil =>
      simp at h
      subst h
      exact .nil
  | cons a l ih =>
      rw [List.mapM_cons] at h
      simp only [Option.bind_eq_bind, Option.bind_eq_some_iff, Option.pure_def,
        Option.some.injEq] at h
      obtain ⟨b, hb, l'', hl, rfl⟩ := h
      exact .cons hb (ih hl)

/-- A fallible map succeeds when each of its calls does. -/
theorem exists_mapM_iff {α β : Type} {f : α → Option β} {l : List α} :
    (∃ l', l.mapM f = some l') ↔ ∀ a ∈ l, ∃ b, f a = some b := by
  induction l with
  | nil => simp
  | cons a l ih =>
      rw [List.forall_mem_cons, ← ih, List.mapM_cons]
      simp only [Option.bind_eq_bind, Option.bind_eq_some_iff, Option.pure_def, Option.some.injEq]
      constructor
      · intro h
        obtain ⟨_, b, hb, l', hl, rfl⟩ := h
        exact ⟨⟨b, hb⟩, l', hl⟩
      · intro h
        obtain ⟨⟨b, hb⟩, l', hl⟩ := h
        exact ⟨b :: l', b, hb, l', hl, rfl⟩

theorem Forall₂.mem_right {α β : Type} {R : α → β → Prop} {l : List α} {l' : List β}
    (h : List.Forall₂ R l l') {b : β} (hb : b ∈ l') : ∃ a ∈ l, R a b := by
  induction h with
  | nil => cases hb
  | @cons a b' l l' hr _ ih =>
      rcases List.mem_cons.mp hb with rfl | hb
      · exact ⟨a, List.mem_cons_self, hr⟩
      · obtain ⟨a', ha', hr'⟩ := ih hb
        exact ⟨a', List.mem_cons_of_mem _ ha', hr'⟩

theorem Forall₂.mem_left {α β : Type} {R : α → β → Prop} {l : List α} {l' : List β}
    (h : List.Forall₂ R l l') {a : α} (ha : a ∈ l) : ∃ b ∈ l', R a b := by
  induction h with
  | nil => cases ha
  | @cons a' b l l' hr _ ih =>
      rcases List.mem_cons.mp ha with rfl | ha
      · exact ⟨b, List.mem_cons_self, hr⟩
      · obtain ⟨b', hb', hr'⟩ := ih ha
        exact ⟨b', List.mem_cons_of_mem _ hb', hr'⟩

end Difuzz
