/-
  File:      DifuzzRtl/Firrtl/Hierarchy.lean
  Subject:   The instance hierarchy of a circuit.

  A path names at most one instance when the instances of every module have distinct names. In a
  circuit whose modules do not instantiate each other in a circle, the instances below a path
  are a finite tree, and a quantity that every module adds up from its own share and those of
  its instances is the sum over the tree.

  * `Circuit.DistinctInsts`, `Inst.unique` -- a path leads to one module.
  * `Inst.of_prefix` -- the instances on the way.
  * `Circuit.Acyclic` -- a rank that falls from a module to what it instantiates.
  * `Circuit.IsSubtree`, `exists_subtree` -- the list of all instances at or below a path.
  * `subtree_sum` -- adding up along the hierarchy, modulo `n`.
-/
import DifuzzRtl.Firrtl.Semantics
import Mathlib.Data.Int.ModEq
import Mathlib.Algebra.BigOperators.Group.List.Basic
import Mathlib.Data.List.Induction

namespace Difuzz.Firrtl

namespace Circuit

variable {C : Circuit}

/-- The instances of a module have distinct names. -/
def DistinctInsts (C : Circuit) : Prop :=
  ∀ m, .module m ∈ C.modules → (m.insts.map (·.name)).Nodup

/-- Modules instantiate modules of lower rank only. -/
def Acyclic (C : Circuit) : Prop :=
  ∃ rank : String → Nat, ∀ m, .module m ∈ C.modules → ∀ i ∈ m.insts, rank i.module < rank m.name

theorem Inst.mem {p : Path} {d : DefModule} (h : C.Inst p d) : d ∈ C.modules := by
  cases h with
  | top h => exact find_mem h
  | sub _ _ hf => exact find_mem hf

theorem DistinctInsts.inst_inj (hd : C.DistinctInsts) {m : Module} (hm : .module m ∈ C.modules)
    {i j : WDefInstance} (hi : i ∈ m.insts) (hj : j ∈ m.insts) (hn : i.name = j.name) : i = j :=
  List.inj_on_of_nodup_map (hd m hm) hi hj hn

/-- A path leads to one module. -/
theorem Inst.unique (hd : C.DistinctInsts) {p : Path} {d d' : DefModule} (h : C.Inst p d)
    (h' : C.Inst p d') : d = d' := by
  induction h generalizing d' with
  | top hf =>
      have hf' := h'.nil_inv
      rw [hf] at hf'
      exact Option.some.inj hf'
  | @sub p m i d hp hi hf ih =>
      obtain ⟨m₁, j, hp₁, hj, hn, hf'⟩ := h'.snoc_inv
      have hm : m = m₁ := by
        cases ih hp₁
        rfl
      subst hm
      have hij : j = i := hd.inst_inj hp.mem hj hi hn
      rw [hij, hf] at hf'
      exact Option.some.inj hf'

/-- Above an instance there are instances of modules. -/
theorem Inst.of_prefix {p s : Path} {n : String} {d : DefModule} (h : C.Inst (p ++ n :: s) d) :
    ∃ m i d', C.Inst p (.module m) ∧ i ∈ m.insts ∧ i.name = n ∧ C.find i.module = some d' ∧
      C.Inst (p ++ [n]) d' := by
  induction s using List.reverseRecOn generalizing d with
  | nil =>
      obtain ⟨m, i, hp, hi, hn, hf⟩ := h.snoc_inv
      exact ⟨m, i, d, hp, hi, hn, hf, h⟩
  | append_singleton s x ih =>
      have heq : p ++ n :: (s ++ [x]) = (p ++ n :: s) ++ [x] := by simp
      rw [heq] at h
      obtain ⟨m', _, h', _⟩ := h.snoc_inv
      exact ih h'

/-- Above an instance of a module, the instance on the way is one of a module too. -/
theorem Inst.step_module (hd : C.DistinctInsts) {p s : Path} {n : String} {m m' : Module}
    (hp : C.Inst p (.module m)) (h : C.Inst (p ++ n :: s) (.module m')) :
    ∃ i m₁, i ∈ m.insts ∧ i.name = n ∧ C.find i.module = some (.module m₁) := by
  obtain ⟨m₀, i, d, hp₀, hi, hn, hf, hs⟩ := h.of_prefix
  cases hp₀.unique hd hp
  cases s with
  | nil =>
      cases hs.unique hd h
      exact ⟨i, m', hi, hn, hf⟩
  | cons n' s =>
      -- it has an instance below
      have heq : p ++ n :: n' :: s = (p ++ [n]) ++ n' :: s := by simp
      rw [heq] at h
      obtain ⟨m₁, _, _, hs₁, _⟩ := h.of_prefix
      cases hs.unique hd hs₁
      exact ⟨i, m₁, hi, hn, hf⟩

/-- The instances of a module that are modules themselves. -/
def children (C : Circuit) (m : Module) : List (WDefInstance × Module) :=
  m.insts.filterMap fun i =>
    match C.find i.module with
    | some (.module m') => some (i, m')
    | _ => none

theorem mem_children {m m' : Module} {i : WDefInstance} :
    (i, m') ∈ C.children m ↔ i ∈ m.insts ∧ C.find i.module = some (.module m') := by
  unfold children
  rw [List.mem_filterMap]
  constructor
  · intro h
    obtain ⟨j, hj, he⟩ := h
    split at he
    · rename_i m₁ hf
      cases he
      exact ⟨hj, hf⟩
    · cases he
  · intro h
    obtain ⟨hi, hf⟩ := h
    exact ⟨i, hi, by rw [hf]⟩

/-- `L` lists the instances at or below `p` that are modules, each once. -/
structure IsSubtree (C : Circuit) (p : Path) (L : List (Path × Module)) : Prop where
  nodup : L.Nodup
  mem : ∀ q m, (q, m) ∈ L ↔ p <+: q ∧ C.Inst q (.module m)

/-- The subtree of an instance: itself, and the subtrees of its instances. -/
theorem IsSubtree.cons (hd : C.DistinctInsts) {p : Path} {m : Module} (hp : C.Inst p (.module m))
    {sub : WDefInstance × Module → List (Path × Module)}
    (hsub : ∀ x ∈ C.children m, C.IsSubtree (p ++ [x.1.name]) (sub x)) :
    C.IsSubtree p ((p, m) :: (C.children m).flatMap sub) := by
  have hbelow : ∀ x ∈ C.children m, ∀ y ∈ sub x, p ++ [x.1.name] <+: y.1 :=
    fun x hx y hy => ((hsub x hx).mem y.1 y.2).mp hy |>.1
  refine ⟨List.nodup_cons.mpr ⟨fun hm => ?_, ?_⟩, fun q m' => ?_⟩
  · obtain ⟨x, hx, hy⟩ := List.mem_flatMap.mp hm
    have hl := (hbelow x hx _ hy).length_le
    rw [List.length_append, List.length_singleton] at hl
    exact absurd hl (Nat.not_succ_le_self _)
  · rw [List.nodup_flatMap]
    refine ⟨fun x hx => (hsub x hx).nodup, ?_⟩
    have hchildren : (C.children m).Pairwise fun x y => x.1.name ≠ y.1.name := by
      unfold children
      rw [List.pairwise_filterMap]
      refine (List.pairwise_map.mp (hd m hp.mem)).imp fun {i j} hne x hx y hy => ?_
      have hfst : ∀ {i : WDefInstance} {x : WDefInstance × Module},
          (match C.find i.module with
            | some (.module m') => some (i, m')
            | _ => none) = some x → x.1 = i := by
        intro i x hx
        split at hx
        · cases hx
          rfl
        · cases hx
      rw [hfst hx, hfst hy]
      exact hne
    -- instances of different names have disjoint subtrees
    refine hchildren.imp_of_mem fun {x y} hx hy hne => ?_
    intro z hzx hzy
    have h₁ := hbelow x hx z hzx
    have h₂ := hbelow y hy z hzy
    have heq : p ++ [x.1.name] = p ++ [y.1.name] :=
      (List.prefix_of_prefix_length_le h₁ h₂ (by simp)).eq_of_length (by simp)
    exact hne (by simpa using heq)
  · rw [List.mem_cons, List.mem_flatMap]
    constructor
    · intro hex
      rcases hex with h | ⟨x, hx, hy⟩
      · cases h
        exact ⟨List.prefix_refl p, hp⟩
      · obtain ⟨hpre, hq⟩ := ((hsub x hx).mem q m').mp hy
        exact ⟨(List.prefix_append p _).trans hpre, hq⟩
    · intro hex
      obtain ⟨⟨s, rfl⟩, hq⟩ := hex
      cases s with
      | nil =>
          left
          rw [List.append_nil] at hq ⊢
          cases hq.unique hd hp
          rfl
      | cons n s =>
          right
          obtain ⟨i, m₂, hi, hn, hf⟩ := hp.step_module hd hq
          refine ⟨(i, m₂), mem_children.mpr ⟨hi, hf⟩, ?_⟩
          refine ((hsub _ (mem_children.mpr ⟨hi, hf⟩)).mem _ _).mpr ⟨?_, hq⟩
          rw [hn]
          exact ⟨s, by simp⟩

/-- **Adding up along the hierarchy.** Below every instance there is a finite list of instances,
    and a quantity that is, modulo `n`, each module's share plus what its instances have is the
    sum of the shares over the list. -/
theorem exists_subtree (hd : C.DistinctInsts) (ha : C.Acyclic) {p : Path} {m : Module}
    (hp : C.Inst p (.module m)) :
    ∃ L, C.IsSubtree p L ∧ ∀ (n : Int) (f g : Path → Module → Int),
      (∀ q m', C.Inst q (.module m') →
        g q m' ≡ f q m' + ((C.children m').map fun x => g (q ++ [x.1.name]) x.2).sum [ZMOD n]) →
      g p m ≡ (L.map fun x => f x.1 x.2).sum [ZMOD n] := by
  obtain ⟨rank, hrank⟩ := ha
  induction hk : rank m.name using Nat.strong_induction_on generalizing p m with
  | _ k ih =>
    have hchild : ∀ x : WDefInstance × Module, ∃ L, x ∈ C.children m →
        C.IsSubtree (p ++ [x.1.name]) L ∧ ∀ (n : Int) (f g : Path → Module → Int),
          (∀ q m', C.Inst q (.module m') →
            g q m' ≡ f q m' + ((C.children m').map fun x => g (q ++ [x.1.name]) x.2).sum [ZMOD n]) →
          g (p ++ [x.1.name]) x.2 ≡ (L.map fun x => f x.1 x.2).sum [ZMOD n] := by
      intro x
      by_cases hx : x ∈ C.children m
      · obtain ⟨hi, hf⟩ := mem_children.mp hx
        have hname : x.2.name = x.1.module := find_name hf
        have hlt : rank x.2.name < k := by
          rw [hname, ← hk]
          exact hrank m hp.mem _ hi
        obtain ⟨L, hL⟩ := ih _ hlt (.sub hp hi hf) rfl
        exact ⟨L, fun _ => hL⟩
      · exact ⟨[], fun h => absurd h hx⟩
    choose sub hsub using hchild
    refine ⟨_, .cons hd hp fun x hx => (hsub x hx).1, fun n f g hg => ?_⟩
    rw [List.map_cons, List.sum_cons, List.map_flatMap]
    refine (hg p m hp).trans (Int.ModEq.add_left _ ?_)
    -- the instances one by one
    have hall : ∀ l : List (WDefInstance × Module), (∀ x ∈ l, x ∈ C.children m) →
        (l.map fun x => g (p ++ [x.1.name]) x.2).sum ≡
          (l.flatMap fun x => (sub x).map fun y => f y.1 y.2).sum [ZMOD n] := by
      intro l
      induction l with
      | nil => intro _; exact Int.ModEq.refl _
      | cons x l ihl =>
          intro hl
          rw [List.map_cons, List.sum_cons, List.flatMap_cons, List.sum_append]
          exact Int.ModEq.add ((hsub x (hl x List.mem_cons_self)).2 n f g hg)
            (ihl fun y hy => hl y (List.mem_cons_of_mem _ hy))
    exact hall _ fun x hx => hx

end Circuit

end Difuzz.Firrtl
