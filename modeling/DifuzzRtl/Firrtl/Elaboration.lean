/-
  File:      DifuzzRtl/Firrtl/Elaboration.lean
  Subject:   The elaborated instance tree below any module of a circuit.

  * `Circuit.withTop`, `inst_cons_iff` -- paths from another top module, read from the top down.
  * `Circuit.Elaborates` -- a list of all vertices of the tree, each once.
  * `Circuit.tree`, `elaborates_tree` -- the list, unfolded from the top; in a circuit without
    circular instantiation enough fuel gives all of it.
  * `places`, `places_tree`, `places_tree_top` -- how often a module stands in the tree.
  * `sum_map_eq_sum_places` -- a sum over the tree is a sum over the modules, each as often as it
    stands there.
-/
import DifuzzRtl.Firrtl.Hierarchy
import Mathlib.Algebra.BigOperators.Group.Finset.Basic
import Mathlib.Algebra.Order.BigOperators.Group.List

namespace Difuzz.Firrtl

/-- The instances of a module; an external module has none. -/
def DefModule.insts : DefModule → List WDefInstance
  | .ext _ => []
  | .module m => m.insts

namespace Circuit

variable {C : Circuit}

/-! ## 1. Paths from another top module -/

/-- The circuit with another top module. -/
def withTop (C : Circuit) (top : String) : Circuit := { C with main := top }

/-- The first step of a path. -/
theorem inst_cons_iff {top n : String} {p : Path} {d : DefModule} :
    (C.withTop top).Inst (n :: p) d ↔ ∃ d₀ i, C.find top = some d₀ ∧ i ∈ d₀.insts ∧
      i.name = n ∧ (C.withTop i.module).Inst p d := by
  constructor
  · intro h
    generalize hq : n :: p = q at h
    induction h generalizing p with
    | top => cases hq
    | @sub p' m i d h hi hf ih =>
        cases p' with
        | nil =>
            rw [List.nil_append, List.cons.injEq] at hq
            obtain ⟨rfl, rfl⟩ := hq
            exact ⟨.module m, i, h.nil_inv, hi, rfl, .top hf⟩
        | cons n' p' =>
            rw [List.cons_append, List.cons.injEq] at hq
            obtain ⟨rfl, rfl⟩ := hq
            obtain ⟨d₀, i₀, hf₀, hi₀, hn₀, h₀⟩ := ih rfl
            exact ⟨d₀, i₀, hf₀, hi₀, hn₀, .sub h₀ hi hf⟩
  · intro hx
    obtain ⟨d₀, i, hf, hi, rfl, h⟩ := hx
    cases d₀ with
    | ext e => cases hi
    | module m =>
        induction h with
        | top hd => exact .sub (p := []) (.top hf) hi hd
        | @sub p m' j d _ hj hd ih => exact .sub (p := i.name :: p) ih hj hd

theorem inst_nil_iff {top : String} {d : DefModule} :
    (C.withTop top).Inst [] d ↔ C.find top = some d :=
  ⟨fun h => h.nil_inv, fun h => .top h⟩

/-! ## 2. The tree -/

/-- `L` lists the vertices of the tree below `top`, each once. -/
structure Elaborates (C : Circuit) (top : String) (L : List (Path × DefModule)) : Prop where
  nodup : L.Nodup
  mem : ∀ p d, (p, d) ∈ L ↔ (C.withTop top).Inst p d

/-- The part of the tree below an instance. -/
def below (n : String) (L : List (Path × DefModule)) : List (Path × DefModule) :=
  L.map fun x => (n :: x.1, x.2)

/-- The tree, unfolded from the top. -/
def tree (C : Circuit) : Nat → String → List (Path × DefModule)
  | 0, _ => []
  | fuel + 1, top =>
      match C.find top with
      | none => []
      | some d => ([], d) :: d.insts.flatMap fun i => below i.name (C.tree fuel i.module)

theorem tree_succ {fuel : Nat} {top : String} {d : DefModule} (h : C.find top = some d) :
    C.tree (fuel + 1) top =
      ([], d) :: d.insts.flatMap fun i => below i.name (C.tree fuel i.module) := by
  rw [tree, h]

theorem mem_below {n : String} {L : List (Path × DefModule)} {p : Path} {d : DefModule} :
    (p, d) ∈ below n L ↔ ∃ q, p = n :: q ∧ (q, d) ∈ L := by
  unfold below
  rw [List.mem_map]
  constructor
  · intro hx
    obtain ⟨⟨q, d'⟩, h, e⟩ := hx
    cases e
    exact ⟨q, rfl, h⟩
  · intro hx
    obtain ⟨q, rfl, h⟩ := hx
    exact ⟨(q, d), h, rfl⟩

/-- The instances of a module have distinct names. -/
theorem DistinctInsts.nodup (hd : C.DistinctInsts) {d : DefModule} (h : d ∈ C.modules) :
    (d.insts.map (·.name)).Nodup := by
  cases d with
  | ext e => exact List.nodup_nil
  | module m => exact hd m h

/-- The tree of a module: itself, and the trees of its instances. -/
theorem Elaborates.cons (hd : C.DistinctInsts) {top : String} {d₀ : DefModule}
    (hf : C.find top = some d₀) {sub : String → List (Path × DefModule)}
    (hsub : ∀ i ∈ d₀.insts, C.Elaborates i.module (sub i.module)) :
    C.Elaborates top (([], d₀) :: d₀.insts.flatMap fun i => below i.name (sub i.module)) := by
  refine ⟨List.nodup_cons.mpr ⟨fun h => ?_, List.nodup_flatMap.mpr ⟨fun i hi => ?_, ?_⟩⟩,
    fun p d => ?_⟩
  · obtain ⟨i, _, hx⟩ := List.mem_flatMap.mp h
    obtain ⟨q, e, _⟩ := mem_below.mp hx
    cases e
  · refine List.Nodup.map (fun x y e => ?_) (hsub i hi).nodup
    simp only [Prod.mk.injEq, List.cons.injEq, true_and] at e
    exact Prod.ext e.1 e.2
  · -- the paths below different instances start with different names
    refine (List.pairwise_map.mp (hd.nodup (find_mem hf))).imp fun {i j} hne => ?_
    intro hex h₁ h₂
    obtain ⟨p, d⟩ := hex
    obtain ⟨q₁, e₁, _⟩ := mem_below.mp h₁
    obtain ⟨q₂, e₂, _⟩ := mem_below.mp h₂
    rw [e₁, List.cons.injEq] at e₂
    exact hne e₂.1
  · rw [List.mem_cons, List.mem_flatMap]
    cases p with
    | nil =>
        rw [inst_nil_iff, hf]
        constructor
        · intro hex
          rcases hex with h | ⟨i, _, hx⟩
          · cases h
            rfl
          · obtain ⟨q, e, _⟩ := mem_below.mp hx
            cases e
        · intro h
          cases h
          exact .inl rfl
    | cons n p =>
        rw [inst_cons_iff]
        constructor
        · intro hex
          rcases hex with h | ⟨i, hi, hx⟩
          · cases h
          · obtain ⟨q, e, hq⟩ := mem_below.mp hx
            cases e
            exact ⟨d₀, i, hf, hi, rfl, ((hsub i hi).mem p d).mp hq⟩
        · intro hex
          obtain ⟨d₁, i, hf', hi, rfl, h⟩ := hex
          rw [hf] at hf'
          cases hf'
          exact .inr ⟨i, hi, mem_below.mpr ⟨p, rfl, ((hsub i hi).mem p d).mpr h⟩⟩

/-- Two lists of the tree are the same up to order. -/
theorem Elaborates.perm {top : String} {L L' : List (Path × DefModule)} (h : C.Elaborates top L)
    (h' : C.Elaborates top L') : L.Perm L' :=
  (List.perm_ext_iff_of_nodup h.nodup h'.nodup).mpr fun x =>
    (h.mem x.1 x.2).trans (h'.mem x.1 x.2).symm

section Acyclic

variable {rank : String → Nat}
  (hr : ∀ m, .module m ∈ C.modules → ∀ i ∈ m.insts, rank i.module < rank m.name)

include hr

theorem rank_lt {top : String} {d : DefModule} (hf : C.find top = some d) {i : WDefInstance}
    (hi : i ∈ d.insts) : rank i.module < rank top := by
  cases d with
  | ext e => cases hi
  | module m =>
      have hname : m.name = top := find_name hf
      rw [← hname]
      exact hr m (find_mem hf) i hi

/-- **Enough fuel unfolds the whole tree.** -/
theorem elaborates_tree (hd : C.DistinctInsts) {fuel : Nat} {top : String} (h : rank top < fuel) :
    C.Elaborates top (C.tree fuel top) := by
  induction fuel generalizing top with
  | zero => cases h
  | succ fuel ih =>
      cases hf : C.find top with
      | none =>
          rw [tree, hf]
          refine ⟨List.nodup_nil, fun p d => ⟨fun hx => (List.not_mem_nil hx).elim, fun hx => ?_⟩⟩
          cases p with
          | nil => simp [inst_nil_iff, hf] at hx
          | cons n p => simp [inst_cons_iff, hf] at hx
      | some d =>
          rw [tree_succ hf]
          refine Elaborates.cons hd hf fun i hi => ih ?_
          have := rank_lt hr hf hi
          omega

/-- Below a module there are modules of lower rank only. -/
theorem rank_of_mem_tree {fuel : Nat} {top : String} {p : Path} {d : DefModule}
    (h : (p, d) ∈ C.tree fuel top) : rank d.name ≤ rank top := by
  induction fuel generalizing top p with
  | zero => cases h
  | succ fuel ih =>
      cases hf : C.find top with
      | none =>
          rw [tree, hf] at h
          cases h
      | some d₀ =>
          rw [tree_succ hf] at h
          rcases List.mem_cons.mp h with h | h
          · cases h
            rw [find_name hf]
          · obtain ⟨i, hi, hx⟩ := List.mem_flatMap.mp h
            obtain ⟨q, _, hq⟩ := mem_below.mp hx
            exact Nat.le_of_lt (Nat.lt_of_le_of_lt (ih hq) (rank_lt hr hf hi))

end Acyclic

/-! ## 3. How often a module stands in the tree -/

/-- How often the module stands in the list. -/
def places (L : List (Path × DefModule)) (n : String) : Nat := L.countP fun x => x.2.name = n

theorem places_below {n : String} {L : List (Path × DefModule)} (k : String) :
    places (below n L) k = places L k := by
  unfold places below
  rw [List.countP_map]
  rfl

/-- The places below a module are those of its instances together. -/
theorem places_tree {fuel : Nat} {top : String} {d : DefModule} (hf : C.find top = some d)
    (n : String) : places (C.tree (fuel + 1) top) n =
      (if top = n then 1 else 0) + (d.insts.map fun i => places (C.tree fuel i.module) n).sum := by
  have hbelow : places (d.insts.flatMap fun i => below i.name (C.tree fuel i.module)) n =
      (d.insts.map fun i => places (C.tree fuel i.module) n).sum := by
    unfold places
    rw [List.countP_flatMap]
    exact congrArg List.sum (List.map_congr_left fun i _ => places_below n)
  rw [tree_succ hf, ← hbelow]
  unfold places
  rw [List.countP_cons, Nat.add_comm]
  simp [find_name hf]

/-- The top module stands in its tree once. -/
theorem places_tree_top {rank : String → Nat}
    (hr : ∀ m, .module m ∈ C.modules → ∀ i ∈ m.insts, rank i.module < rank m.name) {fuel : Nat}
    {top : String} {d : DefModule} (hf : C.find top = some d) :
    places (C.tree (fuel + 1) top) top = 1 := by
  have hnone : (d.insts.map fun i => places (C.tree fuel i.module) top).sum = 0 := by
    refine List.sum_eq_zero fun x hx => ?_
    obtain ⟨i, hi, rfl⟩ := List.mem_map.mp hx
    refine List.countP_eq_zero.mpr fun x hx e => ?_
    have hle := rank_of_mem_tree hr (p := x.1) (d := x.2) hx
    rw [of_decide_eq_true e] at hle
    exact Nat.not_lt.mpr hle (rank_lt hr hf hi)
  rw [places_tree hf, if_pos rfl, hnone]

/-- **A sum over the tree is a sum over the modules**, each as often as it stands there. -/
theorem sum_map_eq_sum_places {ns : List String} (hn : ns.Nodup) {L : List (Path × DefModule)}
    (hL : ∀ x ∈ L, x.2.name ∈ ns) (f : String → Int) :
    (L.map fun x => f x.2.name).sum = (ns.map fun n => f n * places L n).sum := by
  induction L with
  | nil => simp [places]
  | cons x L ih =>
      have hx : x.2.name ∈ ns := hL x List.mem_cons_self
      have hone : (ns.map fun n => f n * (if x.2.name = n then 1 else 0)).sum = f x.2.name := by
        rw [← List.sum_toFinset _ hn, Finset.sum_eq_single x.2.name]
        · simp
        · intro n _ hne
          simp [Ne.symm hne]
        · exact fun h => absurd (List.mem_toFinset.mpr hx) h
      rw [List.map_cons, List.sum_cons, ih fun y hy => hL y (List.mem_cons_of_mem _ hy), ← hone,
        ← List.sum_map_add]
      refine congrArg List.sum (List.map_congr_left fun n _ => ?_)
      unfold places
      rw [List.countP_cons]
      simp only [decide_eq_true_eq]
      push_cast
      rw [mul_add, add_comm]

end Circuit

end Difuzz.Firrtl
