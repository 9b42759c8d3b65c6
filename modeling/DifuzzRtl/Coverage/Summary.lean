/-
  File:      DifuzzRtl/Coverage/Summary.lean
  Subject:   The instrumentation summary (`printSummary`, `findModules` of
             coverage/registerCov.scala) against the elaborated design.

  `findModules` counts how often a module stands below the top module, and the totals weigh the
  figures of each module with that count. The numbers are Scala `Int`s. One total is not weighted.

  * `findModules`, `findModules_eq` -- in a circuit without circular instantiation it answers, with
    the number of places modulo `2^32`.
  * `Total`, `printSummary` -- the printed lines.
  * `weighted_eq` -- a weighted total is the sum over the instance tree modulo `2^32`.
  * `printSummary_iff` -- when all numbers are those of the elaborated design.
-/
import DifuzzRtl.Coverage.HierarchyFile
import DifuzzRtl.Firrtl.Elaboration
import DifuzzRtl.Lib.Effects

namespace Difuzz.Coverage

open Firrtl Circuit

/-! ## 1. Scala integers -/

/-- The numbers of 32 bits. -/
def IsInt (x : Int) : Prop := -2 ^ 31 ≤ x ∧ x < 2 ^ 31

theorem scalaInt_add_left (x y : Int) : scalaInt (scalaInt x + y) = scalaInt (x + y) :=
  Int.bmod_add_bmod

theorem scalaInt_add_right (x y : Int) : scalaInt (x + scalaInt y) = scalaInt (x + y) :=
  Int.add_bmod_bmod

theorem scalaInt_mul_right (x y : Int) : scalaInt (x * scalaInt y) = scalaInt (x * y) :=
  Int.mul_bmod_bmod

theorem scalaInt_self (x : Int) : scalaInt (scalaInt x) = scalaInt x :=
  Int.bmod_bmod

/-- A number of 32 bits is the value of what it is congruent to. -/
theorem scalaInt_eq_iff {x y : Int} : scalaInt x = y ↔ IsInt y ∧ 2 ^ 32 ∣ y - x := by
  unfold scalaInt IsInt
  rw [Int.bmod_def]
  constructor
  · rintro rfl
    split <;> omega
  · intro hx
    obtain ⟨⟨h₁, h₂⟩, h⟩ := hx
    split <;> omega

/-- Adding up 32-bit numbers one by one. -/
theorem foldl_scalaInt {α : Type} (f : α → Int) (l : List α) (a : Int) :
    l.foldl (fun tot x => scalaInt (tot + f x)) (scalaInt a) = scalaInt (a + (l.map f).sum) := by
  induction l generalizing a with
  | nil => simp
  | cons x l ih =>
      rw [List.foldl_cons, scalaInt_add_left, ih, List.map_cons, List.sum_cons, Int.add_assoc]

/-- Rounding the terms of a sum does not change its value. -/
theorem scalaInt_sum_congr {α : Type} {f g : α → Int} {l : List α}
    (h : ∀ x ∈ l, scalaInt (f x) = scalaInt (g x)) :
    scalaInt (l.map f).sum = scalaInt (l.map g).sum := by
  induction l with
  | nil => rfl
  | cons x l ih =>
      rw [List.map_cons, List.map_cons, List.sum_cons, List.sum_cons, ← scalaInt_add_right,
        ih fun y hy => h y (List.mem_cons_of_mem _ hy), scalaInt_add_right, ← scalaInt_add_left,
        h x List.mem_cons_self, scalaInt_add_left]

/-- Adding up numbers that are known one by one. -/
theorem foldlM_scalaInt {α : Type} {f : α → Option Int} {g : α → Int} {l : List α}
    (h : ∀ x ∈ l, f x = some (scalaInt (g x))) (a : Int) :
    l.foldlM (fun tot x => (f x).map fun k => scalaInt (tot + k)) (scalaInt a) =
      some (scalaInt (a + (l.map g).sum)) := by
  induction l generalizing a with
  | nil => simp
  | cons x l ih =>
      rw [List.foldlM_cons, h x List.mem_cons_self]
      show l.foldlM _ (scalaInt (scalaInt a + scalaInt (g x))) = _
      rw [scalaInt_add_left, scalaInt_add_right, ih fun y hy => h y (List.mem_cons_of_mem _ hy),
        List.map_cons, List.sum_cons, Int.add_assoc]

/-! ## 2. Counting modules -/

/-- `findModules`. A module without record throws. -/
def findModules (infos : Dict String ModuleRecord) : Nat → String → String → Option Int
  | 0, _, _ => none
  | fuel + 1, topName, moduleName =>
      if topName = moduleName then some 1
      else (infos.get? topName).bind fun r =>
        r.insts.foldlM (fun num inst =>
          (findModules infos fuel inst.module moduleName).map fun k => scalaInt (num + k)) 0

section Count

variable {cfg : Config} {C : Circuit} (hL : LowForm C) {rs : List ModuleRecord}
  (hrs : records cfg C = some rs)

include hL hrs

/-- The record of a module lists its instances. -/
theorem get?_moduleInfos {top : String} {d : DefModule} (hf : C.find top = some d) :
    ∃ r ∈ rs, (moduleInfos rs).get? top = some r ∧ r.mName = top ∧ r.insts.Perm d.insts := by
  obtain ⟨r, hr, hro⟩ := Forall₂.mem_left (records_forall₂ hrs) (find_mem hf)
  have hname : r.mName = top := hro.name.trans (find_name hf)
  obtain ⟨info, _, hinfo, _, _, hinsts, _⟩ := hro.cases
  refine ⟨r, hr, ?_, hname, ?_⟩
  · unfold Dict.get?
    rw [moduleInfos_entries hL hrs]
    refine Dict.lookup_of_mem ?_ (List.mem_map.mpr ⟨r, hr, by rw [hname]⟩)
    rw [List.map_map]
    exact (records_names hrs).symm ▸ hL.names
  · rw [hinsts]
    cases d with
    | ext x =>
        rw [ofModule_ext] at hinfo
        cases hinfo
        exact List.Perm.nil
    | module m =>
        rw [(ofModule_eq_some hinfo).1]
        refine (SetOrder.perm _ _).trans ?_
        refine (List.perm_ext_iff_of_nodup (List.nodup_dedup _) ?_).mpr fun i => mem_getInstances
        exact List.Nodup.of_map WDefInstance.name
          (Module.insts_names_nodup (hL.modules m (find_mem hf)).nodup)

/-- **Counting answers**, with the number of places modulo `2^32`. -/
theorem findModules_eq {rank : String → Nat}
    (hr : ∀ m, .module m ∈ C.modules → ∀ i ∈ m.insts, rank i.module < rank m.name) {fuel : Nat}
    {top : String} {d : DefModule} (hf : C.find top = some d) (h : rank top < fuel) (n : String) :
    findModules (moduleInfos rs) fuel top n = some (scalaInt (places (C.tree fuel top) n)) := by
  induction fuel generalizing top d with
  | zero => cases h
  | succ fuel ih =>
      unfold findModules
      by_cases hn : top = n
      · subst hn
        rw [if_pos rfl, places_tree_top hr hf]
        rfl
      · obtain ⟨r, _, hget, _, hperm⟩ := get?_moduleInfos hL hrs hf
        rw [if_neg hn, hget, Option.bind_some, places_tree hf, if_neg hn, Nat.zero_add]
        have hall : ∀ i ∈ r.insts, findModules (moduleInfos rs) fuel i.module n =
            some (scalaInt (places (C.tree fuel i.module) n)) := by
          intro i hi
          have hi' := hperm.mem_iff.mp hi
          have hlt := rank_lt hr hf hi'
          obtain ⟨d', hd'⟩ : ∃ d', C.find i.module = some d' := by
            cases d with
            | ext x => cases hi'
            | module m => exact (hL.modules m (find_mem hf)).instances i hi'
          exact ih hd' (by omega)
        have hsum := foldlM_scalaInt hall 0
        rw [Int.zero_add, (hperm.map _).sum_eq] at hsum
        rw [show scalaInt 0 = 0 from rfl] at hsum
        rw [hsum]
        rw [Nat.cast_list_sum, List.map_map]
        rfl

end Count

/-! ## 3. The totals -/

/-- The printed totals. -/
inductive Total where
  | regNum | ctrlRegNum | muxNum | optRegNum
  | regBitWidth | ctrlRegBitWidth | ctrlBitWidth | muxBitWidth | muxCtrlBitWidth
  deriving DecidableEq

namespace Total

/-- The totals in the order of the lines. -/
def all : List Total :=
  [.regNum, .ctrlRegNum, .muxNum, .optRegNum, .regBitWidth, .ctrlRegBitWidth, .ctrlBitWidth,
   .muxBitWidth, .muxCtrlBitWidth]

theorem mem_all (t : Total) : t ∈ all := by
  cases t <;> decide

/-- The text of the line. -/
def label : Total → String
  | .regNum => "Total number of registers"
  | .ctrlRegNum => "Total number of control registers"
  | .muxNum => "Total number of muxes"
  | .optRegNum => "Total number of optimized registers"
  | .regBitWidth => "Total bit width of registers"
  | .ctrlRegBitWidth => "Total bit width of control registers"
  | .ctrlBitWidth => "Optimized total bit width of control registers"
  | .muxBitWidth => "Total bit width of muxes"
  | .muxCtrlBitWidth => "Total bit width of muxes"

/-- The figure of a module that is added up. Every mux has a select of one bit. -/
def figure : Total → ModuleRecord → Int
  | .regNum, r => r.res.regNum
  | .ctrlRegNum, r => r.res.ctrlRegNum
  | .muxNum, r => r.res.muxNum
  | .optRegNum, r => r.numOptRegs
  | .regBitWidth, r => r.res.regBitWidth
  | .ctrlRegBitWidth, r => r.res.ctrlRegBitWidth
  | .ctrlBitWidth, r => r.res.ctrlBitWidth
  | .muxBitWidth, r => r.res.muxNum
  | .muxCtrlBitWidth, r => r.res.muxCtrlNum

/-- A total: the figures weighted with the numbers of modules. The optimized registers are added
    up while the modules are instrumented, each module once. -/
def value (rs : List ModuleRecord) (moduleNums : List (ModuleRecord × Int)) : Total → Int
  | .optRegNum => rs.foldl (fun tot r => scalaInt (tot + figure .optRegNum r)) 0
  | t => moduleNums.foldl (fun tot x => scalaInt (tot + scalaInt (figure t x.1 * x.2))) 0

end Total

/-- `printSummary`: the lines, text and number. -/
def printSummary (σ : SetOrder) (rs : List ModuleRecord) (fuel : Nat) (topName : String) :
    Option (List (String × Int)) :=
  if rs = [] then none
  else ((σ.toSeq (moduleInfos rs).entries).mapM fun x =>
      (findModules (moduleInfos rs) fuel topName x.1).map fun k => (x.2, k)).map fun moduleNums =>
    Total.all.map fun t => (t.label, t.value rs moduleNums)

/-- The sum of a figure over the vertices of an instance tree. -/
def treeSum (rs : List ModuleRecord) (L : List (Path × DefModule)) (t : Total) : Int :=
  (L.map fun x => (((moduleInfos rs).get? x.2.name).map t.figure).getD 0).sum

section Totals

variable {cfg : Config} {C : Circuit} (hL : LowForm C) {rs : List ModuleRecord}
  (hrs : records cfg C = some rs)

include hL hrs

/-- The sum over a tree by modules. -/
theorem treeSum_eq {L : List (Path × DefModule)} (hmem : ∀ x ∈ L, x.2 ∈ C.modules) (t : Total) :
    treeSum rs L t = (rs.map fun r => t.figure r * places L r.mName).sum := by
  have hkeys : (((rs.map fun r => (r.mName, r))).map (·.1)).Nodup := by
    rw [List.map_map]
    exact (records_names hrs).symm ▸ hL.names
  have hget : ∀ r ∈ rs, (moduleInfos rs).get? r.mName = some r := by
    intro r hr
    unfold Dict.get?
    rw [moduleInfos_entries hL hrs]
    exact Dict.lookup_of_mem hkeys (List.mem_map.mpr ⟨r, hr, rfl⟩)
  have hnodup : (rs.map (·.mName)).Nodup := (records_names hrs).symm ▸ hL.names
  have hnames : ∀ x ∈ L, x.2.name ∈ rs.map (·.mName) := by
    intro x hx
    rw [records_names hrs]
    exact List.mem_map_of_mem (hmem x hx)
  unfold treeSum
  rw [sum_map_eq_sum_places hnodup hnames
    (fun n => (((moduleInfos rs).get? n).map t.figure).getD 0), List.map_map]
  refine congrArg List.sum (List.map_congr_left fun r hr => ?_)
  show (((moduleInfos rs).get? r.mName).map t.figure).getD 0 * _ = _
  rw [hget r hr]
  rfl

/-- **A weighted total is the sum over the instance tree**, modulo `2^32`. -/
theorem weighted_eq {L : List (Path × DefModule)} (hmem : ∀ x ∈ L, x.2 ∈ C.modules) (t : Total)
    {nums : List (ModuleRecord × Int)}
    (hnums : nums.Perm (rs.map fun r => (r, scalaInt (places L r.mName)))) :
    nums.foldl (fun tot x => scalaInt (tot + scalaInt (t.figure x.1 * x.2))) 0 =
      scalaInt (treeSum rs L t) := by
  have hfold := foldl_scalaInt (fun x : ModuleRecord × Int => scalaInt (t.figure x.1 * x.2)) nums 0
  rw [show scalaInt 0 = 0 from rfl, Int.zero_add] at hfold
  rw [hfold, (hnums.map _).sum_eq, List.map_map, treeSum_eq hL hrs hmem]
  refine scalaInt_sum_congr fun r _ => ?_
  rw [Function.comp_apply, scalaInt_mul_right]
  exact scalaInt_self _

/-- **The printed lines**: the weighted totals are sums over the instance tree, the optimized
    registers are those of every module once. -/
theorem printSummary_eq {rank : String → Nat}
    (hr : ∀ m, .module m ∈ C.modules → ∀ i ∈ m.insts, rank i.module < rank m.name) {fuel : Nat}
    {top : String} {d : DefModule} (hf : C.find top = some d) (h : rank top < fuel) :
    printSummary cfg.order rs fuel top = some (Total.all.map fun t => (t.label,
      scalaInt (if t = .optRegNum then (rs.map t.figure).sum
        else treeSum rs (C.tree fuel top) t))) := by
  have hne : rs ≠ [] := by
    obtain ⟨r, hr, _⟩ := get?_moduleInfos hL hrs hf
    exact List.ne_nil_of_mem hr
  have hmem : ∀ x ∈ C.tree fuel top, x.2 ∈ C.modules := fun x hx =>
    (((elaborates_tree hr hL.distinctInsts h).mem x.1 x.2).mp hx).mem
  have hnums : ((cfg.order.toSeq (moduleInfos rs).entries).mapM fun x =>
      (findModules (moduleInfos rs) fuel top x.1).map fun k => (x.2, k)) =
      some ((cfg.order.toSeq (moduleInfos rs).entries).map fun x =>
        (x.2, scalaInt (places (C.tree fuel top) x.1))) :=
    mapM_eq_pure fun x _ => by
      rw [findModules_eq hL hrs hr hf h]
      rfl
  have hperm : ((cfg.order.toSeq (moduleInfos rs).entries).map fun x =>
      (x.2, scalaInt (places (C.tree fuel top) x.1))).Perm
        (rs.map fun r => (r, scalaInt (places (C.tree fuel top) r.mName))) := by
    refine ((cfg.order.perm _).map _).trans ?_
    rw [moduleInfos_entries hL hrs, List.map_map]
    exact .refl _
  unfold printSummary
  rw [if_neg hne, hnums, Option.map_some]
  refine congrArg some (List.map_congr_left fun t _ => ?_)
  have hopt : rs.foldl (fun tot r => scalaInt (tot + Total.figure .optRegNum r)) 0 =
      scalaInt (rs.map (Total.figure .optRegNum)).sum := by
    have hfold := foldl_scalaInt (Total.figure .optRegNum) rs 0
    rwa [show scalaInt 0 = 0 from rfl, Int.zero_add] at hfold
  have hw := weighted_eq hL hrs hmem t hperm
  cases t with
  | optRegNum => exact congrArg _ hopt
  | _ => exact congrArg _ hw

end Totals

/-- The optimized registers of every module, for each place in the tree beyond the first; a module
    that is not in the tree counts negative. -/
def extraOptRegs (rs : List ModuleRecord) (L : List (Path × DefModule)) : Int :=
  (rs.map fun r => (r.numOptRegs : Int) * (places L r.mName - 1)).sum

/-- **When the summary counts the elaborated design.** For every LowForm circuit without circular
    instantiation and every module `top` of it there is a finite list of the vertices of the
    instance tree below `top`, where `top` stands once. With enough fuel `findModules` answers
    with the number of places of each module modulo `2^32`; and it gives these numbers themselves,
    and `printSummary` the sums over the tree, iff they all fit into 32 bits and the optimized
    registers at further places cancel. -/
theorem printSummary_iff {cfg : Config} {C : Circuit} (hL : LowForm C) (ha : C.Acyclic)
    {rs : List ModuleRecord} (hrs : records cfg C = some rs) {top : String} {d : DefModule}
    (hf : C.find top = some d) :
    ∃ L, C.Elaborates top L ∧ places L top = 1 ∧ ∃ n, ∀ fuel ≥ n,
      (∀ k, findModules (moduleInfos rs) fuel top k = some (scalaInt (places L k))) ∧
      ((∀ k, findModules (moduleInfos rs) fuel top k = some (places L k)) ∧
          printSummary cfg.order rs fuel top =
            some (Total.all.map fun t => (t.label, treeSum rs L t)) ↔
        (∀ k, places L k < 2 ^ 31) ∧ (∀ t, IsInt (treeSum rs L t)) ∧
          2 ^ 32 ∣ extraOptRegs rs L) := by
  obtain ⟨rank, hr⟩ := ha
  have hel : ∀ {fuel}, rank top < fuel → C.Elaborates top (C.tree fuel top) :=
    fun h => elaborates_tree hr hL.distinctInsts h
  have hL₀ := hel (Nat.lt_succ_self (rank top))
  refine ⟨_, hL₀, places_tree_top hr hf, rank top + 1, fun fuel hfuel => ?_⟩
  generalize C.tree (rank top).succ top = L at hL₀ ⊢
  -- more fuel gives the same tree
  have hperm : (C.tree fuel top).Perm L := (hel hfuel).perm hL₀
  have hplaces : ∀ k, places (C.tree fuel top) k = places L k := fun k => hperm.countP_eq _
  have hsum : ∀ t, treeSum rs (C.tree fuel top) t = treeSum rs L t := fun t =>
    (hperm.map _).sum_eq
  have hfind : ∀ k, findModules (moduleInfos rs) fuel top k = some (scalaInt (places L k)) := by
    intro k
    rw [findModules_eq hL hrs hr hf hfuel, hplaces]
  have hmem : ∀ x ∈ L, x.2 ∈ C.modules := fun x hx => ((hL₀.mem x.1 x.2).mp hx).mem
  have hextra : extraOptRegs rs L =
      treeSum rs L .optRegNum - (rs.map (Total.figure .optRegNum)).sum := by
    have hadd : treeSum rs L .optRegNum =
        extraOptRegs rs L + (rs.map (Total.figure .optRegNum)).sum := by
      rw [treeSum_eq hL hrs hmem, extraOptRegs, ← List.sum_map_add]
      refine congrArg List.sum (List.map_congr_left fun r _ => ?_)
      show (r.numOptRegs : Int) * places L r.mName =
        r.numOptRegs * (places L r.mName - 1) + r.numOptRegs
      rw [Int.mul_sub, Int.mul_one, Int.sub_add_cancel]
    rw [hadd, Int.add_sub_cancel]
  have hfits : ∀ k, findModules (moduleInfos rs) fuel top k = some (places L k : Int) ↔
      places L k < 2 ^ 31 := by
    intro k
    rw [hfind, Option.some.injEq, scalaInt_eq_iff]
    unfold IsInt
    omega
  have hlines : printSummary cfg.order rs fuel top =
      some (Total.all.map fun t => (t.label, treeSum rs L t)) ↔
        ∀ t, scalaInt (if t = .optRegNum then (rs.map t.figure).sum else treeSum rs L t) =
          treeSum rs L t := by
    rw [printSummary_eq hL hrs hr hf hfuel, Option.some.injEq, List.map_inj_left]
    simp only [Prod.mk.injEq, true_and, hsum]
    exact ⟨fun h t => h t t.mem_all, fun h t _ => h t⟩
  refine ⟨hfind, and_congr (forall_congr' hfits) (hlines.trans ?_)⟩
  constructor
  · intro h
    refine ⟨fun t => (scalaInt_eq_iff.mp (h t)).1, ?_⟩
    rw [hextra]
    exact (scalaInt_eq_iff.mp (h .optRegNum)).2
  · intro h' t
    obtain ⟨hint, hdvd⟩ := h'
    refine scalaInt_eq_iff.mpr ⟨hint t, ?_⟩
    by_cases ht : t = .optRegNum
    · subst ht
      rw [if_pos rfl, ← hextra]
      exact hdvd
    · rw [if_neg ht, Int.sub_self]
      exact Int.dvd_zero _

/-! ## 4. Copies of one module -/

namespace Copies

/-- The register of the demo in a module of its own. -/
def sub : Module where
  name := "Sub"
  ports := [⟨"clock", .input, .clock⟩]
  body := [.defRegister Demo.reg, .connect (Demo.bit "r") Demo.hold]

def top (names : List String) : Module where
  name := "Top"
  ports := [⟨"clock", .input, .clock⟩]
  body := names.map fun n => .defInstance ⟨n, "Sub"⟩

def circuit (names : List String) : Circuit := ⟨[.module (top names), .module sub], "Top"⟩

theorem lowForm_sub (names : List String) : LowModule (circuit names) sub := by
  refine ⟨by decide, by unfold LegalName; decide, ?_, by decide, ?_, ?_⟩
  · have hclock : IsSig (circuit names) sub ["clock"] :=
      .port (q := ⟨"clock", .input, .clock⟩) (by decide)
    have hr : IsSig (circuit names) sub ["r"] := .reg (r := Demo.reg) (by decide)
    intro s hs e he x hx
    simp [Module.leaves, Stmt.leavesList, Stmt.leaves, sub] at hs
    rcases hs with rfl | rfl <;>
      simp [Stmt.exprs, Demo.reg, Demo.bit, Demo.hold] at he <;>
      rcases he with rfl | rfl | rfl <;> simp [Expr.refs] at hx <;> subst hx <;> assumption
  · intro loc e hs
    simp [Module.leaves, Stmt.leavesList, Stmt.leaves, sub] at hs
    rw [hs.1]
    rfl
  · intro i hi
    cases hi

/-- One or two copies. -/
theorem lowForm (names : List String) (h : names = ["a"] ∨ names = ["a", "b"]) :
    LowForm (circuit names) where
  names := by
    show ["Top", "Sub"].Nodup
    decide
  legal d hd := by
    have hd : d.name = "Top" ∨ d.name = "Sub" := by
      rcases List.mem_pair.mp hd with rfl | rfl
      · exact .inl rfl
      · exact .inr rfl
    unfold LegalName
    rcases hd with hd | hd <;> rw [hd] <;> decide
  modules m hm := by
    rcases List.mem_pair.mp hm with hm | hm
    · cases hm
      have hinst : ∀ s ∈ (top names).leaves, s.exprs = [] ∧ ∀ loc e, s ≠ .connect loc e := by
        rcases h with rfl | rfl <;> intro s hs <;>
          simp [Module.leaves, Stmt.leavesList, Stmt.leaves, top] at hs
        · subst hs
          exact ⟨rfl, fun _ _ e => by cases e⟩
        · rcases hs with rfl | rfl <;> exact ⟨rfl, fun _ _ e => by cases e⟩
      refine ⟨?_, ?_, fun s hs e he => ?_, fun s hs e he => ?_, fun loc e hs => ?_, fun i hi => ?_⟩
      · rcases h with rfl | rfl <;> decide
      · unfold LegalName
        rcases h with rfl | rfl <;> decide
      · rw [(hinst s hs).1] at he
        cases he
      · rw [(hinst s hs).1] at he
        cases he
      · exact absurd rfl ((hinst _ hs).2 loc e)
      · have hi : i.module = "Sub" := by
          rcases h with rfl | rfl
          · cases List.mem_singleton.mp (show i ∈ [⟨"a", "Sub"⟩] from hi)
            rfl
          · rcases List.mem_pair.mp (show i ∈ [⟨"a", "Sub"⟩, ⟨"b", "Sub"⟩] from hi) with rfl | rfl
            · rfl
            · rfl
        exact ⟨.module sub, by rw [hi]; rfl⟩
    · cases hm
      exact lowForm_sub names

/-- The top module is above the other one. -/
def rank (n : String) : Nat := if n = "Top" then 1 else 0

theorem rank_lt (names : List String) (h : names = ["a"] ∨ names = ["a", "b"]) :
    ∀ m, .module m ∈ (circuit names).modules → ∀ i ∈ m.insts, rank i.module < rank m.name := by
  intro m hm i hi
  rcases List.mem_pair.mp hm with hm | hm
  · cases hm
    rcases h with rfl | rfl <;> revert i <;> decide
  · cases hm
    cases hi

/-- What is recorded: nothing for the top module, one register of one bit for the other. -/
def recs (names : List String) : List ModuleRecord :=
  [⟨"Top", names.map fun n => ⟨n, "Sub"⟩, ⟨0, 0, 0, 0, 0, 0, 0, 0⟩, 0⟩,
   ⟨"Sub", [], ⟨2, 1, 1, 1, 1, 1, 1, 1⟩, 1⟩]

theorem records_eq (names : List String) (h : names = ["a"] ∨ names = ["a", "b"]) :
    records Demo.config (circuit names) = some (recs names) := by
  rcases h with rfl | rfl <;> decide

end Copies

/-- With one copy every number is that of the elaborated design. -/
theorem printSummary_one_copy :
    records Demo.config (Copies.circuit ["a"]) = some (Copies.recs ["a"]) ∧
    ∃ L, (Copies.circuit ["a"]).Elaborates "Top" L ∧ ∃ n, ∀ fuel ≥ n,
      (∀ k, findModules (moduleInfos (Copies.recs ["a"])) fuel "Top" k = some (places L k)) ∧
      printSummary .insertion (Copies.recs ["a"]) fuel "Top" =
        some (Total.all.map fun t => (t.label, treeSum (Copies.recs ["a"]) L t)) := by
  have hrs := Copies.records_eq ["a"] (.inl rfl)
  have hL := Copies.lowForm ["a"] (.inl rfl)
  obtain ⟨L, hel, _, n, hall⟩ :=
    printSummary_iff hL ⟨Copies.rank, Copies.rank_lt _ (.inl rfl)⟩ hrs
      (show (Copies.circuit ["a"]).find "Top" = some _ from rfl)
  refine ⟨hrs, L, hel, n, fun fuel hfuel => (hall fuel hfuel).2.mpr ?_⟩
  -- the tree has two vertices
  have hperm : L.Perm ((Copies.circuit ["a"]).tree 2 "Top") :=
    hel.perm (elaborates_tree (Copies.rank_lt _ (.inl rfl)) hL.distinctInsts (by decide))
  refine ⟨fun k => ?_, fun t => ?_, ?_⟩
  · have hle : places L k ≤ L.length := List.countP_le_length
    rw [hperm.length_eq, show ((Copies.circuit ["a"]).tree 2 "Top").length = 2 from rfl] at hle
    omega
  · have hsum : treeSum (Copies.recs ["a"]) L t =
        treeSum (Copies.recs ["a"]) ((Copies.circuit ["a"]).tree 2 "Top") t := (hperm.map _).sum_eq
    rw [hsum]
    unfold IsInt
    cases t <;> decide
  · have hp : ∀ k, places L k = places ((Copies.circuit ["a"]).tree 2 "Top") k :=
      fun k => hperm.countP_eq _
    have hzero : extraOptRegs (Copies.recs ["a"]) L = 0 := by
      simp only [extraOptRegs, hp]
      decide
    rw [hzero]
    exact Int.dvd_zero _

/-- **Two copies, counted once**: the design has two optimized registers, and the summary prints
    one. -/
theorem printSummary_two_copies :
    LowForm (Copies.circuit ["a", "b"]) ∧ (Copies.circuit ["a", "b"]).Acyclic ∧
    records Demo.config (Copies.circuit ["a", "b"]) = some (Copies.recs ["a", "b"]) ∧
    ∃ L, (Copies.circuit ["a", "b"]).Elaborates "Top" L ∧
      treeSum (Copies.recs ["a", "b"]) L .optRegNum = 2 ∧
      ∀ fuel ≥ 2, ∃ lines, printSummary .insertion (Copies.recs ["a", "b"]) fuel "Top" =
          some lines ∧ ("Total number of optimized registers", 1) ∈ lines ∧
        lines ≠ Total.all.map fun t => (t.label, treeSum (Copies.recs ["a", "b"]) L t) := by
  have hrs := Copies.records_eq ["a", "b"] (.inr rfl)
  have hL := Copies.lowForm ["a", "b"] (.inr rfl)
  have hr := Copies.rank_lt ["a", "b"] (.inr rfl)
  refine ⟨hL, ⟨Copies.rank, hr⟩, hrs, (Copies.circuit ["a", "b"]).tree 2 "Top",
    elaborates_tree hr hL.distinctInsts (by decide), by decide, fun fuel hfuel => ?_⟩
  have hone : scalaInt ((Copies.recs ["a", "b"]).map (Total.figure .optRegNum)).sum = 1 := by decide
  have htwo : treeSum (Copies.recs ["a", "b"]) ((Copies.circuit ["a", "b"]).tree 2 "Top")
      .optRegNum = 2 := by decide
  refine ⟨_, printSummary_eq hL hrs hr rfl (Nat.lt_of_lt_of_le (by decide) hfuel), ?_, fun e => ?_⟩
  · refine List.mem_map.mpr ⟨.optRegNum, by decide, ?_⟩
    rw [if_pos rfl, hone]
    rfl
  · have he := List.map_inj_left.mp e .optRegNum (by decide)
    rw [if_pos rfl, hone, htwo] at he
    cases he

end Difuzz.Coverage
