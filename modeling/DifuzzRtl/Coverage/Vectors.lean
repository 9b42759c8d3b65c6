/-
  File:      DifuzzRtl/Coverage/Vectors.lean
  Subject:   The offsets of vector registers.

  Only the first element of a vector takes part in the layout of the state word. Its offset is
  copied to the other elements by name, after all of them were filtered by width and by direct
  input, and after the vectors were re-keyed by prefix and size.

  * `elements` -- the names that get an offset, each with the first element it is copied from;
    `elements_functional`: no name is copied from two.
  * `mem_allOffsets` -- the offsets of a constructed pass: those of the layout, less the first
    elements, and those of the elements.
  * `constructed_iff` -- the constructor throws iff an element is missing whose first element is
    there.
  * `room`, `slots_fit_iff` -- the elements fit the state word iff none is wider than the room that
    its first element has.
  * `vectors_represented_iff` -- a vector is represented iff its first element is small and the map
    keeps the vector.
-/
import DifuzzRtl.Coverage.StateWord
import DifuzzRtl.Coverage.VecRegs
import DifuzzRtl.Lib.Effects
import Mathlib.Algebra.Order.BigOperators.Group.List

namespace Difuzz.Coverage

open Firrtl Selection

/-! ## 1. Elements and their first elements -/

/-- What the record says about vectors. -/
theorem ofModule_vecRegs {σ : SetOrder} {d : DefModule} {info : ModuleInfo}
    (h : ModuleInfo.ofModule σ d = some info) : findVecRegs σ info.ctrlRegs = some info.vecRegs := by
  simp only [ModuleInfo.ofModule, Option.bind_eq_bind, Option.bind_eq_some_iff, Option.pure_def,
    Option.some.injEq] at h
  obtain ⟨cs, _, ms, _, vr, hvr, dr, _, rfl⟩ := h
  exact hvr

section Elements

variable (mInfo : ModuleInfo) (maxStateSize : Nat) (σ : SetOrder)

/-- A vector with its first elements, as the map has it. -/
def groupOf (t : Nat × String × List String) : (String × Nat) × List DefRegister :=
  ((t.2.1, t.1), firstRegs mInfo maxStateSize t)

/-- The names that get the offset of a first element, with that element, in the order of the map. -/
def elements : List (String × DefRegister) :=
  (firstVecRegs mInfo maxStateSize σ).entries.flatMap fun g =>
    (List.range g.1.2).flatMap fun i => g.2.map fun r₀ => (elementName g i r₀, r₀)

variable {mInfo maxStateSize σ}

theorem mem_elements {n : String} {f : DefRegister} : (n, f) ∈ elements mInfo maxStateSize σ ↔
    ∃ g, Kept mInfo maxStateSize σ g ∧ ∃ i < g.1.2, f ∈ g.2 ∧ n = elementName g i f := by
  simp only [elements, List.mem_flatMap, mem_firstVecRegs, List.mem_range, List.mem_map,
    Prod.mk.injEq]
  constructor
  · intro h
    obtain ⟨g, hg, i, hi, r₀, hr₀, rfl, rfl⟩ := h
    exact ⟨g, hg, i, hi, hr₀, rfl⟩
  · intro h
    obtain ⟨g, hg, i, hi, hf, rfl⟩ := h
    exact ⟨g, hg, i, hi, f, hf, rfl, rfl⟩

theorem kept_exists_vec {g : (String × Nat) × List DefRegister}
    (h : Kept mInfo maxStateSize σ g) : ∃ t ∈ mInfo.vecRegs, g = groupOf mInfo maxStateSize t := by
  obtain ⟨xs, ys, hxs, _⟩ := h
  have hg : g ∈ vecGroups mInfo maxStateSize := by
    rw [← SetOrder.mem_toSeq σ, hxs]
    simp
  obtain ⟨t, ht, rfl⟩ := List.mem_map.mp (List.mem_dedup.mp hg)
  exact ⟨t, ht, rfl⟩

theorem elementName_groupOf {t : Nat × String × List String} {i : Nat} {f : DefRegister}
    {b : String} (hf : f.name = t.2.1 ++ (toString 0 ++ b)) :
    elementName (groupOf mInfo maxStateSize t) i f = t.2.1 ++ (toString i ++ b) := by
  have hb : String.ofList (f.name.toList.drop (t.2.1 ++ "0").length) = b := by
    have hsplit : f.name.toList = (t.2.1 ++ "0").toList ++ b.toList := by
      rw [hf, toList_element, String.toList_append, List.append_assoc]
      rfl
    rw [hsplit, ← String.length_toList, List.drop_left, String.ofList_toList]
  unfold elementName
  show t.2.1 ++ (toString i ++ String.ofList (f.name.toList.drop (t.2.1 ++ "0").length)) = _
  rw [hb]

section Module

variable {d : DefModule} (hinfo : ModuleInfo.ofModule σ d = some mInfo)

include hinfo

theorem vectorRegs_find {r : DefRegister} (hr : r ∈ vectorRegs mInfo maxStateSize) :
    (vectorRegs mInfo maxStateSize).find? (fun r' => r'.name == r.name) = some r := by
  cases hfind : (vectorRegs mInfo maxStateSize).find? (fun r' => r'.name == r.name) with
  | none =>
      have := List.find?_eq_none.mp hfind r hr
      simp at this
  | some r' =>
      have hn : r'.name = r.name := by simpa using List.find?_some hfind
      have hc₁ := (mem_smallRegs.mp (vectorRegs_small (List.mem_of_find?_eq_some hfind))).1
      have hc₂ := (mem_smallRegs.mp (vectorRegs_small hr)).1
      rw [ctrlRegs_inj hinfo hc₁ hc₂ hn]

/-- The first elements of a vector. -/
theorem mem_firstRegs {t : Nat × String × List String} {f : DefRegister} :
    f ∈ firstRegs mInfo maxStateSize t ↔
      f ∈ vectorRegs mInfo maxStateSize ∧ ∃ b ∈ t.2.2, f.name = t.2.1 ++ (toString 0 ++ b) := by
  have hassoc : ∀ b : String, t.2.1 ++ "0" ++ b = t.2.1 ++ (toString 0 ++ b) := fun b =>
    String.append_assoc ..
  unfold firstRegs
  rw [List.mem_dedup, List.mem_filterMap]
  constructor
  · intro h
    obtain ⟨b, hb, hf⟩ := h
    have hn : f.name = t.2.1 ++ "0" ++ b := by simpa using List.find?_some hf
    exact ⟨List.mem_of_find?_eq_some hf, b, hb, by rw [hn, hassoc]⟩
  · intro h
    obtain ⟨hf, b, hb, hn⟩ := h
    refine ⟨b, hb, ?_⟩
    rw [hassoc, ← hn]
    exact vectorRegs_find hinfo hf

/-- **The elements**: the names of a vector that the map keeps, from its first element of the same
    body. -/
theorem mem_elements_iff {n : String} {f : DefRegister} : (n, f) ∈ elements mInfo maxStateSize σ ↔
    ∃ t ∈ mInfo.vecRegs, Kept mInfo maxStateSize σ (groupOf mInfo maxStateSize t) ∧
      f ∈ vectorRegs mInfo maxStateSize ∧ ∃ b ∈ t.2.2, f.name = t.2.1 ++ (toString 0 ++ b) ∧
        ∃ i < t.1, n = t.2.1 ++ (toString i ++ b) := by
  rw [mem_elements]
  constructor
  · intro h
    obtain ⟨g, hg, i, hi, hf, rfl⟩ := h
    obtain ⟨t, ht, rfl⟩ := kept_exists_vec hg
    obtain ⟨hv, b, hb, hn⟩ := (mem_firstRegs hinfo).mp hf
    exact ⟨t, ht, hg, hv, b, hb, hn, i, hi, elementName_groupOf hn⟩
  · intro h
    obtain ⟨t, ht, hg, hv, b, hb, hn, i, hi, rfl⟩ := h
    exact ⟨_, hg, i, hi, (mem_firstRegs hinfo).mpr ⟨hv, b, hb, hn⟩,
      (elementName_groupOf hn).symm⟩

/-- No name is copied from two first elements. -/
theorem elements_functional {n : String} {f f' : DefRegister}
    (h : (n, f) ∈ elements mInfo maxStateSize σ) (h' : (n, f') ∈ elements mInfo maxStateSize σ) :
    f = f' := by
  obtain ⟨t, ht, _, hf, b, hb, hn, i, hi, e⟩ := (mem_elements_iff hinfo).mp h
  obtain ⟨t', ht', _, hf', b', hb', hn', i', hi', e'⟩ := (mem_elements_iff hinfo).mp h'
  obtain ⟨rfl, _, rfl⟩ := findVecRegs_unique (fun r hr r' hr' => ctrlRegs_inj hinfo hr hr')
    (ofModule_vecRegs hinfo) ht ht' hi hi' hb hb' (e.symm.trans e')
  exact ctrlRegs_inj hinfo (mem_smallRegs.mp (vectorRegs_small hf)).1
    (mem_smallRegs.mp (vectorRegs_small hf')).1 (hn.trans hn'.symm)

end Module

end Elements

/-! ## 2. The offsets of elements -/

section Copied

variable {mInfo : ModuleInfo} {maxStateSize : Nat} {σ : SetOrder}

/-- The offset of a register in a layout. -/
def slotIn (offs : List (CtrlNode × Nat)) (f : DefRegister) : Nat :=
  ((offs.find? fun t => t.1 = .reg f).map (·.2)).getD 0

theorem find_slot {offs : List (CtrlNode × Nat)} {f : DefRegister}
    (h : .reg f ∈ offs.map (·.1)) :
    (offs.find? fun t => t.1 = .reg f) = some (.reg f, slotIn offs f) := by
  cases hfind : offs.find? fun t => t.1 = .reg f with
  | none =>
      obtain ⟨t, ht, e⟩ := List.mem_map.mp h
      exact absurd e (by simpa using List.find?_eq_none.mp hfind t ht)
  | some t =>
      have e : t.1 = .reg f := by simpa using List.find?_some hfind
      unfold slotIn
      rw [hfind, Option.map_some, Option.getD_some, ← e]

/-- In a layout without repetition the offset is the only one. -/
theorem mem_slot_iff {offs : List (CtrlNode × Nat)} (hnd : (offs.map (·.1)).Nodup)
    {f : DefRegister} (h : .reg f ∈ offs.map (·.1)) {o : Nat} :
    (.reg f, o) ∈ offs ↔ slotIn offs f = o := by
  have hfound := List.mem_of_find?_eq_some (find_slot h)
  constructor
  · intro ho
    have := List.inj_on_of_nodup_map hnd hfound ho rfl
    exact congrArg Prod.snd this
  · rintro rfl
    exact hfound

theorem mem_firstVecSet {f : DefRegister} : f ∈ firstVecSet mInfo maxStateSize σ ↔
    ∃ g, Kept mInfo maxStateSize σ g ∧ f ∈ g.2 := by
  unfold firstVecSet Dict.values
  rw [List.mem_dedup, List.mem_flatten]
  constructor
  · intro h
    obtain ⟨l, hl, hf⟩ := h
    obtain ⟨g, hg, rfl⟩ := List.mem_map.mp hl
    exact ⟨g, mem_firstVecRegs.mp hg, hf⟩
  · intro h
    obtain ⟨g, hg, hf⟩ := h
    exact ⟨g.2, List.mem_map.mpr ⟨g, mem_firstVecRegs.mpr hg, rfl⟩, hf⟩

/-- **The offsets by name**, when every first element has one. -/
theorem vecNameOffsets_eq {offs : List (CtrlNode × Nat)}
    (h : ∀ f ∈ firstVecSet mInfo maxStateSize σ, .reg f ∈ offs.map (·.1)) :
    vecNameOffsets σ mInfo maxStateSize offs =
      some (Dict.ofList ((elements mInfo maxStateSize σ).map fun e => (e.1, slotIn offs e.2))) := by
  have hgroup : ∀ g ∈ (firstVecRegs mInfo maxStateSize σ).entries,
      (g.2.mapM fun r => (offs.find? fun t => t.1 = .reg r).map fun t =>
        (String.ofList (r.name.toList.drop (g.1.1 ++ "0").length), t.2)) =
      pure (g.2.map fun r => (String.ofList (r.name.toList.drop (g.1.1 ++ "0").length),
        slotIn offs r)) := by
    intro g hg
    refine mapM_eq_pure fun r hr => ?_
    rw [find_slot (h r (mem_firstVecSet.mpr ⟨g, mem_firstVecRegs.mp hg, hr⟩))]
    rfl
  unfold vecNameOffsets
  rw [mapM_eq_pure (g := fun g => (List.range g.1.2).flatMap fun i =>
    g.2.map fun r => (elementName g i r, slotIn offs r)) fun g hg => ?_]
  · unfold elements
    simp only [List.map_flatMap, List.map_map]
    rfl
  · rw [hgroup g hg]
    simp only [pure_bind, List.map_map]
    rfl

/-- A first element without offset makes the lookup throw. -/
theorem vecNameOffsets_firsts {offs : List (CtrlNode × Nat)} {names : Dict String Nat}
    (h : vecNameOffsets σ mInfo maxStateSize offs = some names) :
    ∀ f ∈ firstVecSet mInfo maxStateSize σ, .reg f ∈ offs.map (·.1) := by
  simp only [vecNameOffsets, Option.bind_eq_bind, Option.bind_eq_some_iff, Option.pure_def,
    Option.some.injEq] at h
  obtain ⟨ls, hls, _⟩ := h
  intro f hf
  obtain ⟨g, hg, hf⟩ := mem_firstVecSet.mp hf
  obtain ⟨_, _, he⟩ := Forall₂.mem_left (forall₂_of_mapM hls) (mem_firstVecRegs.mpr hg)
  simp only [Option.bind_eq_some_iff] at he
  obtain ⟨bs, hbs, _⟩ := he
  obtain ⟨_, _, he⟩ := Forall₂.mem_left (forall₂_of_mapM hbs) hf
  rw [Option.map_eq_some_iff] at he
  obtain ⟨t, ht, _⟩ := he
  refine List.mem_map.mpr ⟨t, List.mem_of_find?_eq_some ht, ?_⟩
  simpa using List.find?_some ht

/-- Keys that come from distinct keys are distinct. -/
theorem Forall₂.nodup_map {α β κ κ' : Type} {R : α → β → Prop} {f : α → κ} {g : β → κ'}
    {l : List α} {l' : List β} (h : List.Forall₂ R l l')
    (hinj : ∀ a b a' b', R a b → R a' b' → g b = g b' → f a = f a') (hnd : (l.map f).Nodup) :
    (l'.map g).Nodup := by
  induction h with
  | nil => exact List.nodup_nil
  | @cons a b l l' hab hrest ih =>
      rw [List.map_cons, List.nodup_cons] at hnd ⊢
      refine ⟨fun hmem => hnd.1 ?_, ih hnd.2⟩
      obtain ⟨b', hb', e⟩ := List.mem_map.mp hmem
      obtain ⟨a', ha', hr⟩ := Forall₂.mem_right hrest hb'
      rw [hinj a b a' b' hab hr e.symm]
      exact List.mem_map_of_mem ha'

/-- When the lookup of elements by name succeeds. -/
theorem exists_vectorOffsets_iff {names : Dict String Nat} :
    (∃ vecs, vectorOffsets mInfo maxStateSize names = some vecs) ↔
      ∀ n ∈ names.keys, ∃ r ∈ vectorRegs mInfo maxStateSize, r.name = n := by
  have hfind : ∀ n, (∃ r, (vectorRegs mInfo maxStateSize).find? (fun r => r.name == n) = some r) ↔
      ∃ r ∈ vectorRegs mInfo maxStateSize, r.name = n := by
    intro n
    rw [← Option.isSome_iff_exists, List.find?_isSome]
    simp
  unfold vectorOffsets
  simp only [Option.map_eq_some_iff]
  constructor
  · intro hex n hn
    obtain ⟨vecs, l, hl, _⟩ := hex
    obtain ⟨x, hx, rfl⟩ := List.mem_map.mp hn
    obtain ⟨y, hy⟩ := exists_mapM_iff.mp ⟨l, hl⟩ x hx
    rw [Option.map_eq_some_iff] at hy
    obtain ⟨r, hr, _⟩ := hy
    exact (hfind x.1).mp ⟨r, hr⟩
  · intro h
    have hsome : ∀ x ∈ names.entries, ∃ y, (((vectorRegs mInfo maxStateSize).find?
        fun r => r.name == x.1).map fun r => (CtrlNode.reg r, x.2)) = some y := by
      intro x hx
      obtain ⟨r, hr⟩ := (hfind x.1).mpr (h x.1 (List.mem_map_of_mem hx))
      rw [hr]
      exact ⟨_, rfl⟩
    obtain ⟨l, hl⟩ := exists_mapM_iff.mpr hsome
    exact ⟨_, l, hl, rfl⟩

variable {d : DefModule} (hinfo : ModuleInfo.ofModule σ d = some mInfo)

include hinfo

/-- The offsets of elements, by register. -/
theorem mem_vectorOffsets_iff {es : List (String × Nat)} {vecs : List (CtrlNode × Nat)}
    (h : vectorOffsets mInfo maxStateSize (Dict.ofList es) = some vecs) {t : CtrlNode × Nat} :
    t ∈ vecs ↔ ∃ r ∈ vectorRegs mInfo maxStateSize, t.1 = .reg r ∧
      (Dict.ofList es).get? r.name = some t.2 := by
  unfold vectorOffsets at h
  rw [Option.map_eq_some_iff] at h
  obtain ⟨l, hl, rfl⟩ := h
  have hl := forall₂_of_mapM hl
  -- distinct names find distinct registers
  have hkeys : (l.map (·.1)).Nodup := by
    refine Forall₂.nodup_map hl (fun x y x' y' hx hx' e => ?_) (Dict.ofList_keys es).1
    rw [Option.map_eq_some_iff] at hx hx'
    obtain ⟨r, hr, rfl⟩ := hx
    obtain ⟨r', hr', rfl⟩ := hx'
    have e : r = r' := by simpa using e
    subst e
    have h₁ : r.name = x.1 := by simpa using List.find?_some hr
    have h₂ : r.name = x'.1 := by simpa using List.find?_some hr'
    rw [← h₁, h₂]
  rw [Dict.ofList_entries hkeys]
  constructor
  · intro ht
    obtain ⟨x, hx, e⟩ := Forall₂.mem_right hl ht
    rw [Option.map_eq_some_iff] at e
    obtain ⟨r, hr, rfl⟩ := e
    have hn : r.name = x.1 := by simpa using List.find?_some hr
    refine ⟨r, List.mem_of_find?_eq_some hr, rfl, ?_⟩
    rw [hn]
    exact Dict.mem_entries_iff.mp hx
  · intro hex
    obtain ⟨r, hr, ht, hget⟩ := hex
    obtain ⟨y, hy, e⟩ := Forall₂.mem_left hl (Dict.mem_entries_iff.mpr hget)
    rw [vectorRegs_find hinfo hr] at e
    cases e
    have : t = (CtrlNode.reg r, t.2) := by rw [← ht]
    rwa [this]

end Copied

/-! ## 3. The constructor -/

/-- Random offsets: one free choice for each signal that is not too wide. -/
theorem randomOffsets_eq {rnd : Nat → Nat} {size : Nat} {ns : List CtrlNode}
    (h : ∀ n ∈ ns, n.width ≤ size) (i : Nat) :
    randomOffsets rnd size i (ns.map fun n => (n, n.width)) =
      some ((ns.zipIdx i).map fun x => (x.1, rnd x.2 % (size + 1 - x.1.width))) := by
  induction ns generalizing i with
  | nil => rfl
  | cons n ns ih =>
      have hn : ¬ size + 1 - n.width = 0 := by
        have := h n List.mem_cons_self
        omega
      have ih := ih (fun m hm => h m (List.mem_cons_of_mem _ hm)) (i + 1)
      rw [List.map_cons]
      unfold randomOffsets nextInt
      rw [if_neg hn, ih]
      rfl

theorem getRegState_total {rnd : Nat → Nat} {size : Nat} {regs : List DefRegister}
    {ctrls : List Expr} (h : ∀ n ∈ signals regs ctrls, n.width ≤ size) :
    ∃ x, getRegState rnd size regs ctrls = some x := by
  unfold getRegState
  simp only [zipWidth_eq, randomOffsets_eq h]
  split
  · exact ⟨_, rfl⟩
  · split
    · exact ⟨_, rfl⟩
    · exact ⟨_, rfl⟩

/-- A layout has all signals, or there is nothing to lay out. -/
theorem getRegState_all {rnd : Nat → Nat} {size : Nat} {regs : List DefRegister}
    {ctrls : List Expr} {tot st : Nat} {offs : List (CtrlNode × Nat)}
    (h : getRegState rnd size regs ctrls = some (tot, st, offs)) :
    (tot ≠ 0 → offs.map (·.1) = signals regs ctrls) ∧ (tot = 0 → offs = []) := by
  have hfst : ∀ ns : List CtrlNode, (ns.map fun n => (n, n.width)).map (·.1) = ns := fun ns => by
    rw [List.map_map]
    exact List.map_id ns
  obtain ⟨_, ⟨h0, _, rfl⟩ | ⟨h0, _, _, rfl⟩ | ⟨hlt, _, hoffs⟩⟩ := getRegState_cases h
  · exact ⟨fun hne => absurd h0 hne, fun _ => rfl⟩
  · exact ⟨fun _ => (tileOffsets_nodes _ _).trans (hfst _), fun he => absurd he h0⟩
  · exact ⟨fun _ => (randomOffsets_nodes hoffs).trans (hfst _), fun he => by omega⟩

section Constructor

variable (mInfo : ModuleInfo) (maxStateSize : Nat) (σ : SetOrder)

/-- The signals that are laid out. -/
def tracked : List CtrlNode :=
  signals (optRegs mInfo maxStateSize σ ++ σ.toSeq (firstVecSet mInfo maxStateSize σ))
    (unCoveredCtrlSigs mInfo maxStateSize σ)

variable {mInfo maxStateSize σ} {d : DefModule} (hinfo : ModuleInfo.ofModule σ d = some mInfo)

theorem reg_mem_tracked {r : DefRegister} : .reg r ∈ tracked mInfo maxStateSize σ ↔
    r ∈ optRegs mInfo maxStateSize σ ∨ r ∈ firstVecSet mInfo maxStateSize σ := by
  unfold tracked signals
  simp only [List.mem_append, List.mem_map, CtrlNode.reg.injEq, exists_eq_right, reduceCtorEq,
    and_false, exists_false, or_false, SetOrder.mem_toSeq]

theorem layout_tracked {rnd : Nat → Nat} {tot st : Nat} {offs : List (CtrlNode × Nat)}
    (h : getRegState rnd maxStateSize
      (optRegs mInfo maxStateSize σ ++ σ.toSeq (firstVecSet mInfo maxStateSize σ))
      (unCoveredCtrlSigs mInfo maxStateSize σ) = some (tot, st, offs))
    {t : CtrlNode × Nat} (ht : t ∈ offs) : t.1 ∈ tracked mInfo maxStateSize σ := by
  by_cases h0 : tot = 0
  · rw [(getRegState_all h).2 h0] at ht
    cases ht
  · unfold tracked
    rw [← (getRegState_all h).1 h0]
    exact List.mem_map_of_mem ht

theorem optRegs_scala {r : DefRegister} (h : r ∈ optRegs mInfo maxStateSize σ) :
    r ∈ scalaRegs mInfo maxStateSize := (SetOrder.mem_toSeq σ).mp (List.mem_filter.mp h).1

theorem tracked_small {r : DefRegister} (h : .reg r ∈ tracked mInfo maxStateSize σ) :
    r ∈ smallRegs mInfo maxStateSize := by
  rcases reg_mem_tracked.mp h with h | h
  · exact scalaRegs_small (optRegs_scala h)
  · exact vectorRegs_small (firstVecSet_vectorRegs r h)

theorem tracked_width (hmax : 0 < maxStateSize) :
    ∀ n ∈ tracked mInfo maxStateSize σ, n.width ≤ maxStateSize := by
  intro n hn
  cases n with
  | reg r => exact Nat.le_of_lt (mem_smallRegs.mp (tracked_small hn)).2.2
  | expr e => exact hmax

include hinfo in
theorem tracked_nodup : (tracked mInfo maxStateSize σ).Nodup := by
  have hscala : (scalaRegs mInfo maxStateSize).Nodup :=
    ((ctrlRegs_nodup hinfo).filter _ |>.filter _).filter _
  have hopt : (optRegs mInfo maxStateSize σ).Nodup := (SetOrder.nodup_toSeq σ hscala).filter _
  have hregs : (optRegs mInfo maxStateSize σ ++
      σ.toSeq (firstVecSet mInfo maxStateSize σ)).Nodup := by
    refine List.nodup_append.mpr ⟨hopt, SetOrder.nodup_toSeq σ (List.nodup_dedup _), ?_⟩
    rintro r hr _ hr' rfl
    exact scalaRegs_not_vector (optRegs_scala hr)
      (firstVecSet_vectorRegs r ((SetOrder.mem_toSeq σ).mp hr'))
  have hsigs : (unCoveredCtrlSigs mInfo maxStateSize σ).Nodup :=
    (SetOrder.nodup_toSeq σ (List.nodup_dedup _)).filter _
  unfold tracked signals
  refine List.nodup_append.mpr ⟨hregs.map fun r r' e => by cases e; rfl,
    hsigs.map fun e e' h => by cases h; rfl, ?_⟩
  intro n hn m hm e
  obtain ⟨r, _, rfl⟩ := List.mem_map.mp hn
  obtain ⟨x, _, rfl⟩ := List.mem_map.mp hm
  cases e

/-- A first element keeps its offset when the others are left out. -/
theorem mem_firsts {offs : List (CtrlNode × Nat)} {f : DefRegister}
    (hf : f ∈ firstVecSet mInfo maxStateSize σ) {o : Nat} :
    (.reg f, o) ∈ offs.filter (isFirst mInfo maxStateSize σ) ↔ (.reg f, o) ∈ offs := by
  rw [List.mem_filter]
  simp [isFirst, hf]

theorem map_firsts {offs : List (CtrlNode × Nat)} {f : DefRegister}
    (hf : f ∈ firstVecSet mInfo maxStateSize σ) :
    .reg f ∈ (offs.filter (isFirst mInfo maxStateSize σ)).map (·.1) ↔ .reg f ∈ offs.map (·.1) := by
  simp only [List.mem_map]
  constructor
  · intro h
    obtain ⟨t, ht, e⟩ := h
    exact ⟨t, (List.mem_filter.mp ht).1, e⟩
  · intro h
    obtain ⟨⟨n, o⟩, ht, e⟩ := h
    cases e
    exact ⟨_, (mem_firsts hf).mpr ht, rfl⟩

theorem elements_first {n : String} {f : DefRegister} (h : (n, f) ∈ elements mInfo maxStateSize σ) :
    f ∈ firstVecSet mInfo maxStateSize σ := by
  obtain ⟨g, hg, i, hi, hf, _⟩ := mem_elements.mp h
  exact mem_firstVecSet.mpr ⟨g, hg, hf⟩

include hinfo in
/-- **The offsets of a constructed pass.** -/
theorem mem_allOffsets {rnd : Nat → Nat} {mName : String} {extModules : List String}
    {covSumSize : Nat} {c : InstrCov}
    (hc : InstrCov.new σ mInfo maxStateSize rnd mName extModules covSumSize = some c) :
    ∃ offs, getRegState rnd maxStateSize
        (optRegs mInfo maxStateSize σ ++ σ.toSeq (firstVecSet mInfo maxStateSize σ))
        (unCoveredCtrlSigs mInfo maxStateSize σ) = some (c.totBitWidth, c.regStateSize, offs) ∧
      (∀ f ∈ firstVecSet mInfo maxStateSize σ, .reg f ∈ offs.map (·.1)) ∧
      ∀ t, t ∈ c.allOffsets ↔ (t ∈ offs ∧ isFirst mInfo maxStateSize σ t = false) ∨
        ∃ r ∈ vectorRegs mInfo maxStateSize, t.1 = .reg r ∧
          ∃ f, (r.name, f) ∈ elements mInfo maxStateSize σ ∧ (.reg f, t.2) ∈ offs := by
  obtain ⟨_, offs, names, vecs, hoffs, hnames, hvecs, hall⟩ := new_parts hc
  have hfirsts := vecNameOffsets_firsts hnames
  rw [vecNameOffsets_eq hfirsts, Option.some.injEq] at hnames
  have hnd : (offs.map (·.1)).Nodup := by
    obtain ⟨hne, h0⟩ := getRegState_all hoffs
    by_cases htot : c.totBitWidth = 0
    · rw [h0 htot]
      exact List.nodup_nil
    · rw [hne htot]
      exact tracked_nodup hinfo
  have hnd' : ((offs.filter (isFirst mInfo maxStateSize σ)).map (·.1)).Nodup :=
    List.Sublist.nodup (List.filter_sublist.map _) hnd
  refine ⟨offs, hoffs, fun f hf => (map_firsts hf).mp (hfirsts f hf), fun t => ?_⟩
  rw [hall, List.mem_append, List.mem_filter, SetOrder.mem_toSeq]
  subst hnames
  rw [mem_vectorOffsets_iff hinfo hvecs]
  refine or_congr (and_congr_right fun _ => Iff.of_eq (Bool.not_eq_true' _)) ?_
  refine exists_congr fun r => and_congr_right fun _ => and_congr_right fun _ => ?_
  rw [Dict.get?_ofList_map, Option.map_eq_some_iff]
  refine exists_congr fun f => ?_
  -- the entry of a name is its element
  have hget : (Dict.ofList (elements mInfo maxStateSize σ)).get? r.name = some f ↔
      (r.name, f) ∈ elements mInfo maxStateSize σ := by
    rw [Dict.get?_ofList]
    constructor
    · intro h
      exact List.mem_reverse.mp (Dict.mem_of_lookup h)
    · intro h
      obtain ⟨f', hf'⟩ := Dict.lookup_isSome_of_mem (List.mem_reverse.mpr h)
      rw [hf', elements_functional hinfo h (List.mem_reverse.mp (Dict.mem_of_lookup hf'))]
  rw [hget]
  refine and_congr_right fun hel => ?_
  have hf := elements_first hel
  rw [← mem_slot_iff hnd' (hfirsts f hf), mem_firsts hf]

/-- The bits that are laid out. -/
def trackedBits (mInfo : ModuleInfo) (maxStateSize : Nat) (σ : SetOrder) : Nat :=
  ((tracked mInfo maxStateSize σ).map CtrlNode.width).sum

/-- **When the constructor does not throw**: when first elements have bits to be laid out, and every
    name that gets the offset of a first element finds its register. This does not depend on the
    random offsets. -/
theorem exists_new_iff
    (hall : ((mInfo.dirInRegs ++ ctrlRegs mInfo).all fun r => (regWidth? r).isSome) = true)
    (hmax : 0 < maxStateSize) {rnd : Nat → Nat} {mName : String} {extModules : List String}
    {covSumSize : Nat} :
    (∃ c, InstrCov.new σ mInfo maxStateSize rnd mName extModules covSumSize = some c) ↔
      (∀ f ∈ firstVecSet mInfo maxStateSize σ, trackedBits mInfo maxStateSize σ ≠ 0) ∧
      ∀ n f, (n, f) ∈ elements mInfo maxStateSize σ →
        ∃ r ∈ vectorRegs mInfo maxStateSize, r.name = n := by
  have hkeys : ∀ (offs : List (CtrlNode × Nat)) (n : String),
      n ∈ (Dict.ofList ((elements mInfo maxStateSize σ).map fun e => (e.1, slotIn offs e.2))).keys ↔
        ∃ f, (n, f) ∈ elements mInfo maxStateSize σ := by
    intro offs n
    rw [Dict.mem_keys_ofList, List.map_map, List.mem_map]
    constructor
    · intro hx
      obtain ⟨⟨n', f⟩, he, rfl⟩ := hx
      exact ⟨f, he⟩
    · intro hx
      obtain ⟨f, he⟩ := hx
      exact ⟨(n, f), he, rfl⟩
  constructor
  · intro hx
    obtain ⟨c, hc⟩ := hx
    obtain ⟨_, offs, names, vecs, hoffs, hnames, hvecs, _⟩ := new_parts hc
    have hfirsts := vecNameOffsets_firsts hnames
    refine ⟨fun f hf h0 => ?_, fun n f hel => ?_⟩
    · have hmem := (map_firsts hf).mp (hfirsts f hf)
      rw [(getRegState_all hoffs).2 ((getRegState_cases hoffs).1.trans h0)] at hmem
      cases hmem
    · rw [vecNameOffsets_eq hfirsts, Option.some.injEq] at hnames
      subst hnames
      exact exists_vectorOffsets_iff.mp ⟨vecs, hvecs⟩ n ((hkeys _ n).mpr ⟨f, hel⟩)
  · intro hx
    obtain ⟨hbits, h⟩ := hx
    obtain ⟨⟨tot, st, offs⟩, hoffs⟩ := @getRegState_total rnd _
      (optRegs mInfo maxStateSize σ ++ σ.toSeq (firstVecSet mInfo maxStateSize σ))
      (unCoveredCtrlSigs mInfo maxStateSize σ) (tracked_width hmax)
    have hfirsts : ∀ f ∈ firstVecSet mInfo maxStateSize σ,
        .reg f ∈ (offs.filter (isFirst mInfo maxStateSize σ)).map (·.1) := by
      intro f hf
      have htot : tot ≠ 0 := by
        rw [(getRegState_cases hoffs).1]
        exact hbits f hf
      rw [map_firsts hf, (getRegState_all hoffs).1 htot]
      exact reg_mem_tracked.mpr (.inr hf)
    have hnames := vecNameOffsets_eq hfirsts
    obtain ⟨vecs, hvecs⟩ := exists_vectorOffsets_iff.mpr
      fun n hn => (hkeys (offs.filter (isFirst mInfo maxStateSize σ)) n).mp hn |>.elim (h n)
    rw [new_of_layout mName extModules covSumSize hall hoffs, hnames, Option.bind_some, hvecs]
    exact ⟨_, rfl⟩

/-- A tracked register with bits makes the layout non-empty. -/
theorem trackedBits_ne_zero {r : DefRegister} (h : .reg r ∈ tracked mInfo maxStateSize σ)
    (hr : 0 < regWidth r) : trackedBits mInfo maxStateSize σ ≠ 0 := by
  have hle : CtrlNode.width (.reg r) ≤ trackedBits mInfo maxStateSize σ :=
    List.single_le_sum (fun _ _ => Nat.zero_le _) _ (List.mem_map_of_mem h)
  have hw : CtrlNode.width (.reg r) = regWidth r := rfl
  omega

theorem mem_vecRegNames {x : String} : x ∈ vecRegNames mInfo ↔
    ∃ t ∈ mInfo.vecRegs, ∃ i < t.1, ∃ b ∈ t.2.2, x = t.2.1 ++ (toString i ++ b) := by
  unfold vecRegNames
  simp only [List.mem_dedup, List.mem_flatMap, List.mem_map, List.mem_range]
  constructor
  · intro h
    obtain ⟨t, ht, y, ⟨i, hi, b, hb, rfl⟩, rfl⟩ := h
    exact ⟨t, ht, i, hi, b, hb, rfl⟩
  · intro h
    obtain ⟨t, ht, i, hi, b, hb, rfl⟩ := h
    exact ⟨t, ht, _, ⟨i, hi, b, hb, rfl⟩, rfl⟩

/-- A small register with the name of an element is a vector register. -/
theorem small_element {r : DefRegister} (hr : r ∈ smallRegs mInfo maxStateSize)
    {t : Nat × String × List String} (ht : t ∈ mInfo.vecRegs) {i : Nat} (hi : i < t.1) {b : String}
    (hb : b ∈ t.2.2) (hn : r.name = t.2.1 ++ (toString i ++ b)) :
    r ∈ vectorRegs mInfo maxStateSize :=
  List.mem_filter.mpr ⟨hr, by simpa using mem_vecRegNames.mpr ⟨t, ht, i, hi, b, hb, hn⟩⟩

end Constructor

/-! ## 4. When the constructor throws -/

theorem ofModule_dirInRegs {σ : SetOrder} {d : DefModule} {info : ModuleInfo}
    (h : ModuleInfo.ofModule σ d = some info) : ∀ r ∈ info.dirInRegs, r ∈ info.ctrlRegs := by
  simp only [ModuleInfo.ofModule, Option.bind_eq_bind, Option.bind_eq_some_iff, Option.pure_def,
    Option.some.injEq] at h
  obtain ⟨cs, _, ms, _, vr, _, dr, hdr, rfl⟩ := h
  unfold GraphLedger.findDirInRegs at hdr
  rw [Option.map_eq_some_iff] at hdr
  obtain ⟨pairs, hpairs, rfl⟩ := hdr
  intro r hr
  obtain ⟨x, hx, rfl⟩ := List.mem_map.mp hr
  obtain ⟨r', hr', e⟩ := Forall₂.mem_right (forall₂_of_mapM hpairs) (List.mem_filter.mp hx).1
  rw [Option.map_eq_some_iff] at e
  obtain ⟨srcs, _, rfl⟩ := e
  exact hr'

/-- Every element of a vector is a control register. -/
theorem exists_element {σ : SetOrder} {d : DefModule} {mInfo : ModuleInfo}
    (hinfo : ModuleInfo.ofModule σ d = some mInfo) {t : Nat × String × List String}
    (ht : t ∈ mInfo.vecRegs) {i : Nat} (hi : i < t.1) {b : String} (hb : b ∈ t.2.2) :
    ∃ r ∈ mInfo.ctrlRegs, r.name = t.2.1 ++ (toString i ++ b) := by
  obtain ⟨info, _, hv⟩ := (mem_findVecRegs (ofModule_vecRegs hinfo)).mp ht
  have hvec : IsVec _ t.1 t.2.1 t.2.2 := vecOfNames_isVec hv
  obtain ⟨r, hr, _, hn⟩ := mem_lineNames.mp ((hvec.names _).mpr ⟨i, hi, b, hb, rfl⟩)
  exact ⟨r, hr, hn⟩

section Throws

variable {σ : SetOrder} {mInfo : ModuleInfo} {maxStateSize : Nat}

/-- **When instrumentation aborts**: on a module of integer registers the constructor succeeds iff,
    for every vector that the map keeps, the elements of every small first element are all small:
    narrower than the state word, and no direct inputs. -/
theorem constructed_iff {m : Module} (hm : m.declared.Nodup)
    (hinfo : ModuleInfo.ofModule σ (.module m) = some mInfo)
    (hregs : ∀ r ∈ m.regs, ∃ w, 0 < w ∧ (r.tpe = .uint w ∨ r.tpe = .sint w))
    (hmax : 0 < maxStateSize) {rnd : Nat → Nat} {mName : String} {extModules : List String}
    {covSumSize : Nat} :
    (InstrCov.new σ mInfo maxStateSize rnd mName extModules covSumSize).isSome = true ↔
      ∀ t ∈ mInfo.vecRegs, Kept mInfo maxStateSize σ (groupOf mInfo maxStateSize t) →
        ∀ b ∈ t.2.2, ∀ r₀ ∈ smallRegs mInfo maxStateSize, r₀.name = t.2.1 ++ (toString 0 ++ b) →
          ∀ i < t.1, ∀ r ∈ mInfo.ctrlRegs, r.name = t.2.1 ++ (toString i ++ b) →
            r ∉ Selection.dirInRegs mInfo ∧ regWidth r < maxStateSize := by
  have hwidth : ∀ r ∈ mInfo.ctrlRegs, ∃ w, 0 < w ∧ regWidth? r = some w := by
    intro r hr
    obtain ⟨w, hw, h | h⟩ := hregs r (ctrlRegs_regs hinfo hm hr)
    · exact ⟨w, hw, by unfold regWidth?; rw [h]⟩
    · exact ⟨w, hw, by unfold regWidth?; rw [h]⟩
  have hall : ((mInfo.dirInRegs ++ ctrlRegs mInfo).all fun r => (regWidth? r).isSome) = true := by
    rw [List.all_eq_true]
    intro r hr
    have hr : r ∈ mInfo.ctrlRegs := by
      rcases List.mem_append.mp hr with hr | hr
      · exact ofModule_dirInRegs hinfo r hr
      · exact (List.mem_filter.mp hr).1
    obtain ⟨w, _, hw⟩ := hwidth r hr
    rw [hw]
    rfl
  rw [Option.isSome_iff_exists, exists_new_iff hall hmax]
  constructor
  · intro hx t ht hkept b hb r₀ hr₀ hn₀ i hi r hr hn
    obtain ⟨_, h⟩ := hx
    have h0 : 0 < t.1 := by omega
    obtain ⟨r', hr', hn'⟩ := h r.name r₀ ((mem_elements_iff hinfo).mpr
      ⟨t, ht, hkept, small_element hr₀ ht h0 hb hn₀, b, hb, hn₀, i, hi, hn⟩)
    have hs := mem_smallRegs.mp (vectorRegs_small hr')
    rw [ctrlRegs_inj hinfo hr hs.1 hn'.symm]
    exact hs.2
  · intro h
    refine ⟨fun f hf => ?_, fun n f hel => ?_⟩
    · have hmem : .reg f ∈ tracked mInfo maxStateSize σ := reg_mem_tracked.mpr (.inr hf)
      obtain ⟨w, hw, e⟩ := hwidth f (mem_smallRegs.mp (tracked_small hmem)).1
      refine trackedBits_ne_zero hmem ?_
      unfold regWidth
      rwa [e, Option.getD_some]
    · obtain ⟨t, ht, hkept, hf, b, hb, hn, i, hi, rfl⟩ := (mem_elements_iff hinfo).mp hel
      obtain ⟨r, hr, hrn⟩ := exists_element hinfo ht hi hb
      have hs := h t ht hkept b hb f (vectorRegs_small hf) hn i hi r hr hrn
      exact ⟨r, small_element (mem_smallRegs.mpr ⟨hr, hs⟩) ht hi hb hrn, hrn⟩

end Throws

/-! ## 5. When vectors are represented -/

section Represented

variable {σ : SetOrder} {mInfo : ModuleInfo} {maxStateSize : Nat}

/-- **When every vector register is represented**: every small element of a vector has an offset,
    the one of the first element of its body, iff that first element is small too and the vector is
    the one that the map keeps for its prefix and size. -/
theorem vectors_represented_iff {d : DefModule} (hinfo : ModuleInfo.ofModule σ d = some mInfo)
    {rnd : Nat → Nat} {mName : String} {extModules : List String} {covSumSize : Nat} {c : InstrCov}
    (hc : InstrCov.new σ mInfo maxStateSize rnd mName extModules covSumSize = some c) :
    (∀ r ∈ smallRegs mInfo maxStateSize, ∀ t ∈ mInfo.vecRegs, ∀ i < t.1, ∀ b ∈ t.2.2,
      r.name = t.2.1 ++ (toString i ++ b) →
      ∃ r₀ off, r₀.name = t.2.1 ++ (toString 0 ++ b) ∧ (.reg r₀, off) ∈ c.allOffsets ∧
        (.reg r, off) ∈ c.allOffsets) ↔
    ∀ r ∈ smallRegs mInfo maxStateSize, ∀ t ∈ mInfo.vecRegs, ∀ i < t.1, ∀ b ∈ t.2.2,
      r.name = t.2.1 ++ (toString i ++ b) →
      (∃ r₀ ∈ smallRegs mInfo maxStateSize, r₀.name = t.2.1 ++ (toString 0 ++ b)) ∧
        Kept mInfo maxStateSize σ (groupOf mInfo maxStateSize t) := by
  obtain ⟨offs, hoffs, hfirsts, hall⟩ := mem_allOffsets hinfo hc
  -- a vector register has an offset only as an element
  have hvec : ∀ {r : DefRegister} {off : Nat}, r ∈ vectorRegs mInfo maxStateSize →
      (.reg r, off) ∈ c.allOffsets →
      ∃ f, (r.name, f) ∈ elements mInfo maxStateSize σ ∧ (.reg f, off) ∈ offs := by
    intro r off hr ho
    rcases (hall _).mp ho with ⟨ho, hfirst⟩ | ⟨r', _, e, f, hf⟩
    · rcases reg_mem_tracked.mp (layout_tracked hoffs ho) with h | h
      · exact absurd hr (scalaRegs_not_vector (optRegs_scala h))
      · simp [isFirst, h] at hfirst
    · cases e
      exact ⟨f, hf⟩
  have hsmall : ∀ {r : DefRegister} {off : Nat}, (.reg r, off) ∈ c.allOffsets →
      r ∈ smallRegs mInfo maxStateSize := by
    intro r off ho
    rcases (hall _).mp ho with ⟨ho, _⟩ | ⟨r', hr', e, _⟩
    · exact tracked_small (layout_tracked hoffs ho)
    · cases e
      exact vectorRegs_small hr'
  constructor
  · intro h r hr t ht i hi b hb hn
    obtain ⟨r₀, off, hn₀, ho₀, ho⟩ := h r hr t ht i hi b hb hn
    refine ⟨⟨r₀, hsmall ho₀, hn₀⟩, ?_⟩
    obtain ⟨f, hel, _⟩ := hvec (small_element hr ht hi hb hn) ho
    obtain ⟨t', ht', hkept, _, b', hb', _, i', hi', e⟩ := (mem_elements_iff hinfo).mp hel
    obtain ⟨rfl, _, _⟩ := findVecRegs_unique (fun r hr r' hr' => ctrlRegs_inj hinfo hr hr')
      (ofModule_vecRegs hinfo) ht ht' hi hi' hb hb' (hn.symm.trans e)
    exact hkept
  · intro h r hr t ht i hi b hb hn
    obtain ⟨⟨r₀, hr₀, hn₀⟩, hkept⟩ := h r hr t ht i hi b hb hn
    have h0 : 0 < t.1 := by omega
    have hv₀ := small_element hr₀ ht h0 hb hn₀
    -- both names are copied from the first element
    have hel₀ : (r₀.name, r₀) ∈ elements mInfo maxStateSize σ :=
      (mem_elements_iff hinfo).mpr ⟨t, ht, hkept, hv₀, b, hb, hn₀, 0, h0, hn₀⟩
    have hel : (r.name, r₀) ∈ elements mInfo maxStateSize σ :=
      (mem_elements_iff hinfo).mpr ⟨t, ht, hkept, hv₀, b, hb, hn₀, i, hi, hn⟩
    obtain ⟨⟨n, off⟩, ho, e⟩ := List.mem_map.mp (hfirsts r₀ (elements_first hel₀))
    cases e
    refine ⟨r₀, off, hn₀, (hall _).mpr (.inr ⟨r₀, hv₀, rfl, r₀, hel₀, ho⟩), ?_⟩
    exact (hall _).mpr (.inr ⟨r, small_element hr ht hi hb hn, rfl, r₀, hel, ho⟩)

end Represented

/-! ## 6. When elements fit -/

/-- The offset of a signal among those laid side by side: the bits before it. -/
theorem tileOffsets_start {ns : List CtrlNode} {a o : Nat} {n : CtrlNode} (hnd : ns.Nodup)
    (h : (n, o) ∈ tileOffsets a (ns.map fun n => (n, n.width))) :
    o = a + ((ns.takeWhile (· ≠ n)).map CtrlNode.width).sum := by
  induction ns generalizing a with
  | nil => cases h
  | cons m ns ih =>
      rw [List.nodup_cons] at hnd
      rw [List.map_cons, tileOffsets] at h
      by_cases hmn : m = n
      · subst hmn
        rcases List.mem_cons.mp h with e | h
        · cases e
          simp
        · -- it does not come up again
          have hmem := List.mem_map_of_mem (f := Prod.fst) h
          rw [tileOffsets_nodes, List.map_map] at hmem
          exact absurd (by simpa using hmem) hnd.1
      · rcases List.mem_cons.mp h with e | h
        · cases e
          exact absurd rfl hmn
        · rw [ih hnd.2 h, List.takeWhile_cons_of_pos (by simpa using hmn), List.map_cons,
            List.sum_cons, Nat.add_assoc]

section Fit

variable (mInfo : ModuleInfo) (maxStateSize : Nat) (σ : SetOrder)

/-- The bits that a first element has up to the end of the state word, at least: those of the
    signals from it on when all lie side by side, and its own when offsets are random. -/
def room (f : DefRegister) : Nat :=
  if trackedBits mInfo maxStateSize σ ≤ maxStateSize then
    (((tracked mInfo maxStateSize σ).dropWhile (· ≠ .reg f)).map CtrlNode.width).sum
  else regWidth f

variable {mInfo maxStateSize σ} {d : DefModule} (hinfo : ModuleInfo.ofModule σ d = some mInfo)

/-- Random offsets leave room for the signal. -/
theorem random_fits {rnd : Nat → Nat} {offs : List (CtrlNode × Nat)} (hmax : 0 < maxStateSize)
    (h : randomOffsets rnd maxStateSize 0
      ((tracked mInfo maxStateSize σ).map fun n => (n, n.width)) = some offs) :
    ∀ t ∈ offs, t.2 + t.1.width ≤ maxStateSize := by
  rw [randomOffsets_eq (tracked_width hmax), Option.some.injEq] at h
  subst h
  intro t ht
  obtain ⟨⟨n, k⟩, hx, rfl⟩ := List.mem_map.mp ht
  have hn : n ∈ tracked mInfo maxStateSize σ := (List.mem_zipIdx hx).2.2 ▸ List.getElem_mem _
  have hw := tracked_width hmax n hn
  have hlt := Nat.mod_lt (rnd k) (y := maxStateSize + 1 - n.width) (by omega)
  show rnd k % (maxStateSize + 1 - n.width) + n.width ≤ maxStateSize
  omega

/-- What is laid out fits. -/
theorem layout_fits {rnd : Nat → Nat} {tot st : Nat} {offs : List (CtrlNode × Nat)}
    (hmax : 0 < maxStateSize)
    (h : getRegState rnd maxStateSize
      (optRegs mInfo maxStateSize σ ++ σ.toSeq (firstVecSet mInfo maxStateSize σ))
      (unCoveredCtrlSigs mInfo maxStateSize σ) = some (tot, st, offs)) :
    ∀ t ∈ offs, t.2 + t.1.width ≤ st := by
  obtain ⟨_, ⟨_, _, rfl⟩ | ⟨_, hle, _, _⟩ | ⟨_, rfl, hoffs⟩⟩ := getRegState_cases h
  · simp
  · obtain ⟨hst, htiles⟩ := getRegState_tiles h hle
    rw [hst]
    exact fun t ht => (htiles.slot t ht).2
  · exact random_fits hmax hoffs

/-- The bits before a signal and those from it on. -/
theorem before_add_from (f : DefRegister) :
    (((tracked mInfo maxStateSize σ).takeWhile (· ≠ .reg f)).map CtrlNode.width).sum +
      (((tracked mInfo maxStateSize σ).dropWhile (· ≠ .reg f)).map CtrlNode.width).sum =
      trackedBits mInfo maxStateSize σ := by
  rw [← List.sum_append, ← List.map_append, List.takeWhile_append_dropWhile]
  rfl

include hinfo

/-- **A first element has its room** up to the end of the state word. -/
theorem room_le {rnd : Nat → Nat} {tot st : Nat} {offs : List (CtrlNode × Nat)}
    (hmax : 0 < maxStateSize)
    (h : getRegState rnd maxStateSize
      (optRegs mInfo maxStateSize σ ++ σ.toSeq (firstVecSet mInfo maxStateSize σ))
      (unCoveredCtrlSigs mInfo maxStateSize σ) = some (tot, st, offs))
    {f : DefRegister} {o : Nat} (ho : (.reg f, o) ∈ offs) :
    o + room mInfo maxStateSize σ f ≤ st := by
  obtain ⟨htot, ⟨_, _, rfl⟩ | ⟨_, hle, hst, rfl⟩ | ⟨hlt, hst, hoffs⟩⟩ := getRegState_cases h
  · cases ho
  · have htot : tot = trackedBits mInfo maxStateSize σ := htot
    rw [tileOffsets_start (tracked_nodup hinfo) ho, hst, htot, Nat.zero_add]
    unfold room
    rw [if_pos (by omega)]
    exact Nat.le_of_eq (before_add_from f)
  · have htot : tot = trackedBits mInfo maxStateSize σ := htot
    unfold room
    rw [if_neg (by omega), hst]
    exact random_fits hmax hoffs _ ho

/-- No more can be counted on: some random offsets leave just this room. -/
theorem room_tight (hmax : 0 < maxStateSize) {f : DefRegister}
    (hf : .reg f ∈ tracked mInfo maxStateSize σ) (hbits : trackedBits mInfo maxStateSize σ ≠ 0) :
    ∃ rnd : Nat → Nat, ∀ tot st offs, getRegState rnd maxStateSize
        (optRegs mInfo maxStateSize σ ++ σ.toSeq (firstVecSet mInfo maxStateSize σ))
        (unCoveredCtrlSigs mInfo maxStateSize σ) = some (tot, st, offs) →
      ∃ o, (.reg f, o) ∈ offs ∧ o + room mInfo maxStateSize σ f = st := by
  refine ⟨fun _ => maxStateSize - regWidth f, fun tot st offs h => ?_⟩
  have hmem : ∃ o, (CtrlNode.reg f, o) ∈ offs := by
    have hall := (getRegState_all h).1 (by
      rw [(getRegState_cases h).1]
      exact hbits)
    have hf : .reg f ∈ offs.map (·.1) := by
      rw [hall]
      exact hf
    obtain ⟨⟨n, o⟩, ho, e⟩ := List.mem_map.mp hf
    cases e
    exact ⟨o, ho⟩
  obtain ⟨o, ho⟩ := hmem
  refine ⟨o, ho, ?_⟩
  obtain ⟨htot, ⟨h0, _, _⟩ | ⟨_, hle, hst, rfl⟩ | ⟨hlt, hst, hoffs⟩⟩ := getRegState_cases h
  · exact absurd (htot.symm.trans h0) hbits
  · have htot : tot = trackedBits mInfo maxStateSize σ := htot
    rw [tileOffsets_start (tracked_nodup hinfo) ho, hst, htot, Nat.zero_add]
    unfold room
    rw [if_pos (by omega)]
    exact before_add_from f
  · have htot : tot = trackedBits mInfo maxStateSize σ := htot
    have hoffs : some _ = some offs := (randomOffsets_eq (tracked_width hmax) 0).symm.trans hoffs
    rw [Option.some.injEq] at hoffs
    subst hoffs
    obtain ⟨⟨n, k⟩, _, e⟩ := List.mem_map.mp ho
    have hw := (mem_smallRegs.mp (tracked_small hf)).2.2
    simp only [Prod.mk.injEq] at e
    obtain ⟨rfl, rfl⟩ := e
    unfold room
    rw [if_neg (by omega), hst]
    show (maxStateSize - regWidth f) % (maxStateSize + 1 - regWidth f) + regWidth f = maxStateSize
    rw [Nat.mod_eq_of_lt (by omega)]
    omega

/-- **When every tracked signal fits**: whatever the random offsets, no pad width is negative iff
    no small element of a vector that the map keeps is wider than the room of its first element. -/
theorem slots_fit_iff (hmax : 0 < maxStateSize) {rnd₀ : Nat → Nat} {mName : String}
    {extModules : List String} {covSumSize : Nat} {c₀ : InstrCov}
    (hc₀ : InstrCov.new σ mInfo maxStateSize rnd₀ mName extModules covSumSize = some c₀) :
    (∀ rnd c, InstrCov.new σ mInfo maxStateSize rnd mName extModules covSumSize = some c →
      ∀ t ∈ c.allOffsets, (0 : Int) ≤ t.2 ∧ (0 : Int) ≤ c.regStateSize - t.1.width - t.2) ↔
    ∀ t ∈ mInfo.vecRegs, Kept mInfo maxStateSize σ (groupOf mInfo maxStateSize t) →
      ∀ b ∈ t.2.2, ∀ f ∈ smallRegs mInfo maxStateSize, f.name = t.2.1 ++ (toString 0 ++ b) →
        ∀ i < t.1, ∀ r ∈ smallRegs mInfo maxStateSize, r.name = t.2.1 ++ (toString i ++ b) →
          regWidth r ≤ room mInfo maxStateSize σ f := by
  have hpart := (new_parts hc₀).1
  have hsome : ∀ rnd, ∃ c,
      InstrCov.new σ mInfo maxStateSize rnd mName extModules covSumSize = some c := fun rnd =>
    (exists_new_iff hpart hmax).mpr ((exists_new_iff hpart hmax).mp ⟨c₀, hc₀⟩)
  constructor
  · intro h t ht hkept b hb f hf hnf i hi r hr hnr
    have h0 : 0 < t.1 := by omega
    have hel : (r.name, f) ∈ elements mInfo maxStateSize σ := (mem_elements_iff hinfo).mpr
      ⟨t, ht, hkept, small_element hf ht h0 hb hnf, b, hb, hnf, i, hi, hnr⟩
    have hfirst := elements_first hel
    obtain ⟨rnd, htight⟩ := room_tight hinfo hmax (reg_mem_tracked.mpr (.inr hfirst))
      (((exists_new_iff hpart hmax).mp ⟨c₀, hc₀⟩).1 f hfirst)
    obtain ⟨c, hc⟩ := hsome rnd
    obtain ⟨offs, hoffs, _, hall⟩ := mem_allOffsets hinfo hc
    obtain ⟨o, ho, hroom⟩ := htight _ _ _ hoffs
    have hfit := (h rnd c hc (.reg r, o)
      ((hall _).mpr (.inr ⟨r, small_element hr ht hi hb hnr, rfl, f, hel, ho⟩))).2
    have hw : CtrlNode.width (.reg r) = regWidth r := rfl
    simp only [hw] at hfit
    omega
  · intro h rnd c hc t ht
    refine ⟨Int.natCast_nonneg _, ?_⟩
    obtain ⟨offs, hoffs, _, hall⟩ := mem_allOffsets hinfo hc
    have hfit : t.2 + t.1.width ≤ c.regStateSize := by
      rcases (hall t).mp ht with ⟨ho, _⟩ | ⟨r, hr, e, f, hel, ho⟩
      · exact layout_fits hmax hoffs t ho
      · obtain ⟨v, hv, hkept, hf, b, hb, hnf, i, hi, hnr⟩ := (mem_elements_iff hinfo).mp hel
        have hwide := h v hv hkept b hb f (vectorRegs_small hf) hnf i hi r (vectorRegs_small hr) hnr
        have hroom := room_le hinfo hmax hoffs ho
        rw [e]
        have hw : CtrlNode.width (.reg r) = regWidth r := rfl
        omega
    omega

end Fit

/-! ## 7. Vectors that go wrong -/

/-- A register of `w` bits on a source line. -/
def wideReg (info : Info) (name : String) (w : Nat) : DefRegister :=
  ⟨info, name, .uint w, .ref "clock" .clock, .uintLit 0 1, .ref name (.uint w)⟩

/-- Registers that each read the next one, and each feed a select. -/
def ringDemo (regs : List DefRegister) : Module where
  name := "Ring"
  ports := [⟨"clock", .input, .clock⟩, ⟨"out", .output, .uint 1⟩]
  body := regs.map .defRegister ++ ((regs.zip (regs.drop 1 ++ regs.take 1)).map fun x =>
      .connect (.ref x.1.name x.1.tpe) (.doPrim1 .pad
        (.doPrim1 .orr (.ref x.2.name x.2.tpe) [] (.uint 1)) [x.1.tpe.width] x.1.tpe)) ++
    [.connect (.ref "out" (.uint 1)) (regs.foldr (fun r e =>
      .mux (.doPrim1 .orr (.ref r.name r.tpe) [] (.uint 1)) (.uintLit 1 1) e (.uint 1))
        (.uintLit 0 1))]

/-- Two elements of one line. -/
def pairRegs (w₀ w₁ : Nat) : List DefRegister :=
  [wideReg (.fileInfo "a") "r_0" w₀, wideReg (.fileInfo "a") "r_1" w₁]

/-- Two vectors of one prefix and size, on two lines. -/
def twoVectors : List DefRegister :=
  [wideReg (.fileInfo "a") "r_0_a" 2, wideReg (.fileInfo "a") "r_1_a" 2,
   wideReg (.fileInfo "b") "r_0_b" 2, wideReg (.fileInfo "b") "r_1_b" 2]

/-- Elements of one width: every pad width is at least 0, whatever the offsets. -/
theorem pair_fits : ∃ info, ModuleInfo.ofModule .insertion (.module (ringDemo (pairRegs 2 2))) =
      some info ∧ info.vecRegs = [(2, "r_", [""])] ∧
    ∀ rnd c, InstrCov.new .insertion info 20 rnd "Ring" [] 30 = some c →
      ∀ t ∈ c.allOffsets, (0 : Int) ≤ t.2 ∧ (0 : Int) ≤ c.regStateSize - t.1.width - t.2 := by
  have hs : ∃ info, ModuleInfo.ofModule .insertion (.module (ringDemo (pairRegs 2 2))) =
      some info ∧ info.vecRegs = [(2, "r_", [""])] ∧
      smallRegs info 20 = pairRegs 2 2 ∧
      (∀ r ∈ pairRegs 2 2, ∀ f ∈ pairRegs 2 2, f.name = "r_0" →
        regWidth r ≤ room info 20 .insertion f) ∧
      (InstrCov.new .insertion info 20 (fun _ => 0) "Ring" [] 30).isSome = true :=
    ⟨_, rfl, by decide, by decide, by decide, by decide⟩
  obtain ⟨info, hi, hvec, hsmall, hroom, hc⟩ := hs
  obtain ⟨c, hc⟩ := Option.isSome_iff_exists.mp hc
  refine ⟨info, hi, hvec, (slots_fit_iff hi (by decide) hc).mpr ?_⟩
  rw [hvec, hsmall]
  intro t ht _ b hb f hf hn i hi r hr _
  rw [List.mem_singleton] at ht
  subst ht
  rw [List.mem_singleton] at hb
  subst hb
  exact hroom r hr f hf hn

/-- A second element that is wider than the first: its pad width is negative. -/
theorem pair_overflows : ∃ info c,
    ModuleInfo.ofModule .insertion (.module (ringDemo (pairRegs 1 4))) = some info ∧
    InstrCov.new .insertion info 20 (fun _ => 0) "Ring" [] 30 = some c ∧
    ∃ t ∈ c.allOffsets, (c.regStateSize : Int) - t.1.width - t.2 = -3 := by
  have hs : ∃ info, ModuleInfo.ofModule .insertion (.module (ringDemo (pairRegs 1 4))) = some info ∧
      (InstrCov.new .insertion info 20 (fun _ => 0) "Ring" [] 30).map
        (fun c => (c.regStateSize, c.allOffsets)) =
        some (1, [(.reg (wideReg (.fileInfo "a") "r_0" 1), 0),
          (.reg (wideReg (.fileInfo "a") "r_1" 4), 0)]) := ⟨_, rfl, by decide⟩
  obtain ⟨info, hi, hc⟩ := hs
  rw [Option.map_eq_some_iff] at hc
  obtain ⟨c, hc, e⟩ := hc
  simp only [Prod.mk.injEq] at e
  refine ⟨info, c, hi, hc, (.reg (wideReg (.fileInfo "a") "r_1" 4), 0), ?_, ?_⟩
  · rw [e.2]
    simp
  · rw [e.1]
    rfl

/-- Elements of one width are all represented. -/
theorem pair_represented : ∃ info c,
    ModuleInfo.ofModule .insertion (.module (ringDemo (pairRegs 2 2))) = some info ∧
    InstrCov.new .insertion info 20 (fun _ => 0) "Ring" [] 30 = some c ∧
    smallRegs info 20 = pairRegs 2 2 ∧
    ∀ r ∈ smallRegs info 20, ∀ t ∈ info.vecRegs, ∀ i < t.1, ∀ b ∈ t.2.2,
      r.name = t.2.1 ++ (toString i ++ b) →
      ∃ r₀ off, r₀.name = t.2.1 ++ (toString 0 ++ b) ∧ (.reg r₀, off) ∈ c.allOffsets ∧
        (.reg r, off) ∈ c.allOffsets := by
  have hs : ∃ info, ModuleInfo.ofModule .insertion (.module (ringDemo (pairRegs 2 2))) =
      some info ∧ info.vecRegs = [(2, "r_", [""])] ∧ smallRegs info 20 = pairRegs 2 2 ∧
      vecGroups info 20 = [groupOf info 20 (2, "r_", [""])] ∧
      (InstrCov.new .insertion info 20 (fun _ => 0) "Ring" [] 30).isSome = true :=
    ⟨_, rfl, by decide, by decide, by decide, by decide⟩
  obtain ⟨info, hi, hvec, hsmall, hgroups, hc⟩ := hs
  obtain ⟨c, hc⟩ := Option.isSome_iff_exists.mp hc
  refine ⟨info, c, hi, hc, hsmall, (vectors_represented_iff hi hc).mpr ?_⟩
  intro r hr t ht i hi b hb _
  rw [hvec, List.mem_singleton] at ht
  subst ht
  rw [List.mem_singleton] at hb
  subst hb
  refine ⟨⟨wideReg (.fileInfo "a") "r_0" 2, by rw [hsmall]; decide, by decide⟩, [], [], ?_, by simp⟩
  exact hgroups

/-- Two vectors of one prefix and size: the map keeps the later one, and the registers of the
    other have no offset. -/
theorem twoVectors_lost : ∃ info c,
    ModuleInfo.ofModule .insertion (.module (ringDemo twoVectors)) = some info ∧
    InstrCov.new .insertion info 20 (fun _ => 0) "Ring" [] 30 = some c ∧
    (2, "r_", ["_a"]) ∈ info.vecRegs ∧
    wideReg (.fileInfo "a") "r_1_a" 2 ∈ smallRegs info 20 ∧
    ∀ off, (.reg (wideReg (.fileInfo "a") "r_1_a" 2), off) ∉ c.allOffsets := by
  have hs : ∃ info, ModuleInfo.ofModule .insertion (.module (ringDemo twoVectors)) = some info ∧
      (2, "r_", ["_a"]) ∈ info.vecRegs ∧ wideReg (.fileInfo "a") "r_1_a" 2 ∈ smallRegs info 20 ∧
      (InstrCov.new .insertion info 20 (fun _ => 0) "Ring" [] 30).map (fun c => c.allOffsets) =
        some [(.reg (wideReg (.fileInfo "b") "r_0_b" 2), 0),
          (.reg (wideReg (.fileInfo "b") "r_1_b" 2), 0)] := ⟨_, rfl, by decide, by decide, by decide⟩
  obtain ⟨info, hi, hvec, hsmall, hc⟩ := hs
  rw [Option.map_eq_some_iff] at hc
  obtain ⟨c, hc, e⟩ := hc
  refine ⟨info, c, hi, hc, hvec, hsmall, fun off h => ?_⟩
  rw [e] at h
  simp [wideReg] at h

/-- Elements of one width: the constructor succeeds. -/
theorem pair_constructed : ∃ info,
    ModuleInfo.ofModule .insertion (.module (ringDemo (pairRegs 2 2))) = some info ∧
    (InstrCov.new .insertion info 20 (fun _ => 0) "Ring" [] 30).isSome = true := by
  have hs : ∃ info, ModuleInfo.ofModule .insertion (.module (ringDemo (pairRegs 2 2))) =
      some info ∧ info.ctrlRegs = pairRegs 2 2 ∧ Selection.dirInRegs info = [] :=
    ⟨_, rfl, by decide, by decide⟩
  obtain ⟨info, hi, hregs, hdir⟩ := hs
  have hint : ∀ r ∈ (ringDemo (pairRegs 2 2)).regs, r.tpe = .uint 2 := by decide
  refine ⟨info, hi, (constructed_iff (by decide) hi (fun r hr => ⟨2, by decide, .inl (hint r hr)⟩)
    (by decide)).mpr ?_⟩
  intro t _ _ b _ r₀ _ _ i _ r hr _
  have hw : ∀ r ∈ pairRegs 2 2, regWidth r < 20 := by decide
  rw [hregs] at hr
  exact ⟨by rw [hdir]; simp, hw r hr⟩

/-- A second element that is as wide as the state word: the constructor throws. -/
theorem pair_throws : ∃ info,
    ModuleInfo.ofModule .insertion (.module (ringDemo (pairRegs 1 30))) = some info ∧
    (∀ r ∈ (ringDemo (pairRegs 1 30)).regs, ∃ w, 0 < w ∧ (r.tpe = .uint w ∨ r.tpe = .sint w)) ∧
    InstrCov.new .insertion info 20 (fun _ => 0) "Ring" [] 30 = none := by
  have hs : ∃ info, ModuleInfo.ofModule .insertion (.module (ringDemo (pairRegs 1 30))) =
      some info ∧ InstrCov.new .insertion info 20 (fun _ => 0) "Ring" [] 30 = none :=
    ⟨_, rfl, by decide⟩
  obtain ⟨info, hi, hc⟩ := hs
  refine ⟨info, hi, fun r hr => ?_, hc⟩
  have hregs : (ringDemo (pairRegs 1 30)).regs = pairRegs 1 30 := by decide
  rw [hregs] at hr
  rcases List.mem_pair.mp hr with rfl | rfl
  · exact ⟨1, by decide, .inl rfl⟩
  · exact ⟨30, by decide, .inl rfl⟩

end Difuzz.Coverage
