/-
  File:      DifuzzRtl/Coverage/Influence.lean
  Subject:   The control analysis finds exactly the registers that can influence a mux select.

  `isUsed` and `findNames` leave the selects of muxes out, so an edge of the ledger's graph only
  follows VALUES. Influence follows every operand. The two agree on which registers reach some
  select: a path that crosses a select has already reached one.

  * `Feeds` -- one step of influence, through any operand, into a node or a wire.
  * `ValueFeeds` -- the same through values; these are the steps of the ledger's graph (`through_iff`).
  * `feeds_shorten` -- an influence path is a value path, or meets a select along a value path.
  * `findMuxSrcs_iff_influence` -- the result.
-/
import DifuzzRtl.Coverage.Reachability

namespace Difuzz.Coverage

open Firrtl

/-! ## 1. Influence -/

/-- No `validif` is left. -/
def NoValidIf (m : Module) : Prop := ∀ s ∈ m.leaves, ∀ e ∈ s.exprs, e.noValidIf = true

/-- What the analysis relies on in a LowForm module: distinct names, every mentioned name
    declared, identifiers that are non-empty and have no comma, no connect to a node. -/
structure Analysable (m : Module) : Prop where
  nodup : m.declared.Nodup
  resolved : ∀ s ∈ m.leaves, ∀ e ∈ s.exprs, ∀ n ∈ allNames e, n ∈ m.declared
  commaFree : ∀ n ∈ m.declared, n ≠ "" ∧ ',' ∉ n.toList
  nodes : ∀ loc e, .connect loc e ∈ m.leaves → ∀ n e', .defNode n e' ∈ m.leaves →
    findName loc ≠ some n

/-- The steps into nodes and wires, for a choice of operands. -/
inductive FeedsBy (names : Expr → List String) (m : Module) : String → String → Prop where
  | node {x y : String} {e : Expr} (h : .defNode y e ∈ m.leaves) (hx : x ∈ names e) :
      FeedsBy names m x y
  | wire {x y : String} {t : GType} {loc e : Expr} (hw : .defWire y t ∈ m.leaves)
      (h : .connect loc e ∈ m.leaves) (hl : findName loc = some y) (hx : x ∈ names e) :
      FeedsBy names m x y

/-- `x` influences `y` in one step: it is mentioned in the value of the node `y`, or in what is
    connected to the wire `y`. -/
abbrev Feeds (m : Module) : String → String → Prop := FeedsBy allNames m

/-- `y` takes its value from `x` in one step: `Feeds` without mux selects. -/
abbrev ValueFeeds (m : Module) : String → String → Prop := FeedsBy findNames m

/-- `x` reaches a mux select. -/
def ReachesSelect (names : Expr → List String) (m : Module) (x : String) : Prop :=
  ∃ μ ∈ Module.muxes m, ∃ n ∈ names μ.cond, Relation.ReflTransGen (FeedsBy names m) x n

/-- A mentioned name is a value name, or a value name of the select of some mux inside. -/
theorem allNames_cases {e : Expr} (hv : e.noValidIf = true) :
    ∀ n ∈ allNames e, n ∈ findNames e ∨ ∃ μ ∈ Expr.muxes e, n ∈ findNames μ.cond := by
  induction e with
  | ref => exact fun n h => .inl h
  | subField e f t ih => exact ih hv
  | uintLit => exact fun n h => .inl h
  | sintLit => exact fun n h => .inl h
  | mux c a b t ihc iha ihb =>
      simp only [Expr.noValidIf, Bool.and_eq_true] at hv
      intro n h
      simp only [allNames, List.mem_append] at h
      simp only [findNames, List.mem_append, Expr.muxes, List.mem_cons]
      rcases h with (h | h) | h
      · rcases ihc hv.1.1 n h with h | ⟨μ, hμ, hn⟩
        · exact .inr ⟨⟨c, a, b, t⟩, .inl rfl, h⟩
        · exact .inr ⟨μ, .inr (.inl (.inl hμ)), hn⟩
      · rcases iha hv.1.2 n h with h | ⟨μ, hμ, hn⟩
        · exact .inl (.inl h)
        · exact .inr ⟨μ, .inr (.inl (.inr hμ)), hn⟩
      · rcases ihb hv.2 n h with h | ⟨μ, hμ, hn⟩
        · exact .inl (.inr h)
        · exact .inr ⟨μ, .inr (.inr hμ), hn⟩
  | validIf => cases hv
  | doPrim1 op a cs t ih => exact ih hv
  | doPrim2 op a b cs t iha ihb =>
      simp only [Expr.noValidIf, Bool.and_eq_true] at hv
      intro n h
      simp only [allNames, List.mem_append] at h
      simp only [findNames, List.mem_append, Expr.muxes]
      rcases h with h | h
      · rcases iha hv.1 n h with h | ⟨μ, hμ, hn⟩
        · exact .inl (.inl h)
        · exact .inr ⟨μ, .inl hμ, hn⟩
      · rcases ihb hv.2 n h with h | ⟨μ, hμ, hn⟩
        · exact .inl (.inr h)
        · exact .inr ⟨μ, .inr hμ, hn⟩

/-- The select of a mux in an expression is itself searched for muxes. -/
theorem muxes_cond {e : Expr} {μ μ' : Mux} (h : μ ∈ Expr.muxes e) (h' : μ' ∈ Expr.muxes μ.cond) :
    μ' ∈ Expr.muxes e := by
  induction e with
  | ref => cases h
  | subField e f t ih => exact ih h
  | uintLit => cases h
  | sintLit => cases h
  | mux c a b t ihc iha ihb =>
      simp only [Expr.muxes, List.mem_cons, List.mem_append] at h ⊢
      rcases h with rfl | (h | h) | h
      · exact .inr (.inl (.inl h'))
      · exact .inr (.inl (.inl (ihc h)))
      · exact .inr (.inl (.inr (iha h)))
      · exact .inr (.inr (ihb h))
  | validIf c e t ihc ihe =>
      simp only [Expr.muxes, List.mem_append] at h ⊢
      exact h.imp ihc ihe
  | doPrim1 op a cs t ih => exact ih h
  | doPrim2 op a b cs t iha ihb =>
      simp only [Expr.muxes, List.mem_append] at h ⊢
      exact h.imp iha ihb

theorem noValidIf_cond {e : Expr} (hv : e.noValidIf = true) {μ : Mux} (h : μ ∈ Expr.muxes e) :
    μ.cond.noValidIf = true := by
  induction e with
  | ref => cases h
  | subField e f t ih => exact ih hv h
  | uintLit => cases h
  | sintLit => cases h
  | mux c a b t ihc iha ihb =>
      simp only [Expr.noValidIf, Bool.and_eq_true] at hv
      simp only [Expr.muxes, List.mem_cons, List.mem_append] at h
      rcases h with rfl | (h | h) | h
      · exact hv.1.1
      · exact ihc hv.1.1 h
      · exact iha hv.1.2 h
      · exact ihb hv.2 h
  | validIf => cases hv
  | doPrim1 op a cs t ih => exact ih hv h
  | doPrim2 op a b cs t iha ihb =>
      simp only [Expr.noValidIf, Bool.and_eq_true] at hv
      simp only [Expr.muxes, List.mem_append] at h
      exact h.elim (iha hv.1) (ihb hv.2)

theorem mem_muxes {m : Module} {s : Stmt} (hs : s ∈ m.leaves) {e : Expr} (he : e ∈ s.exprs) {μ : Mux}
    (hμ : μ ∈ Expr.muxes e) : μ ∈ Module.muxes m :=
  List.mem_flatMap.mpr ⟨s, hs, List.mem_flatMap.mpr ⟨e, he, hμ⟩⟩

/-- **An influence path is a value path, or meets a select along a value path.** -/
theorem feeds_shorten {m : Module} (hv : NoValidIf m) {x y : String}
    (h : Relation.ReflTransGen (Feeds m) x y) :
    Relation.ReflTransGen (ValueFeeds m) x y ∨ ReachesSelect findNames m x := by
  induction h with
  | refl => exact .inl .refl
  | @tail y z _ hs ih =>
      rcases ih with ih | ih
      · -- the step goes through a value, or through the select of a mux of this expression
        cases hs with
        | @node e hn hx =>
            rcases allNames_cases (hv _ hn e (by simp [Stmt.exprs])) y hx with h | ⟨μ, hμ, hy⟩
            · exact .inl (ih.tail (.node hn h))
            · exact .inr ⟨μ, mem_muxes hn (by simp [Stmt.exprs]) hμ, y, hy, ih⟩
        | @wire t loc e hw hc hl hx =>
            rcases allNames_cases (hv _ hc e (by simp [Stmt.exprs])) y hx with h | ⟨μ, hμ, hy⟩
            · exact .inl (ih.tail (.wire hw hc hl h))
            · exact .inr ⟨μ, mem_muxes hc (by simp [Stmt.exprs]) hμ, y, hy, ih⟩
      · exact .inr ih

theorem reachesSelect_iff {m : Module} (hv : NoValidIf m) (x : String) :
    ReachesSelect allNames m x ↔ ReachesSelect findNames m x := by
  constructor
  · intro hex
    obtain ⟨μ, hμ, n, hn, hp⟩ := hex
    rcases feeds_shorten hv hp with hp | h
    · obtain ⟨s, hs, hμ⟩ := List.mem_flatMap.mp hμ
      obtain ⟨e, he, hμ⟩ := List.mem_flatMap.mp hμ
      rcases allNames_cases (noValidIf_cond (hv s hs e he) hμ) n hn with h | ⟨μ', hμ', hn'⟩
      · exact ⟨μ, mem_muxes hs he hμ, n, h, hp⟩
      · exact ⟨μ', mem_muxes hs he (muxes_cond hμ hμ'), n, hn', hp⟩
    · exact h
  · intro hex
    obtain ⟨μ, hμ, n, hn, hp⟩ := hex
    refine ⟨μ, hμ, n, findNames_subset n hn, Relation.ReflTransGen.mono (fun a b hab => ?_) _ _ hp⟩
    cases hab with
    | node h hx => exact .node h (findNames_subset _ hx)
    | wire hw h hl hx => exact .wire hw h hl (findNames_subset _ hx)

/-! ## 2. The search -/

theorem Analysable.referenced {m : Module} (hm : Analysable m) : Referenced m :=
  ⟨hm.nodup, hm.resolved, hm.commaFree⟩

/-- **The steps of the ledger's graph are the value steps.** -/
theorem through_iff {m : Module} (hm : Analysable m) {x y : String} : Through m x y ↔ ValueFeeds m x y := by
  constructor
  · intro hex
    obtain ⟨⟨s, hs, he⟩, hp⟩ := hex
    cases s <;> simp only [findEdge, List.not_mem_nil] at he
    · -- a register has a vertex of its own, which does not pass
      rename_i r
      split at he
      · rw [List.mem_singleton] at he
        subst he
        obtain ⟨v, hv, hname, hpass⟩ := passing_node hp
        rw [node_unique hm.referenced hv (mem_nodesOf_stmt hs rfl) hname] at hpass
        cases hpass
      · cases he
    · split at he
      · rename_i hu
        rw [List.mem_singleton] at he
        subst he
        exact .node hs (isUsed_iff.mp hu)
      · cases he
    · split at he
      · rename_i hu
        rw [Option.mem_toList] at he
        rcases hp with ⟨e', hn⟩ | ⟨t, hw⟩
        · exact absurd he (hm.nodes _ _ hs _ _ hn)
        · exact .wire hw hs he (isUsed_iff.mp hu)
      · cases he
  · intro h
    cases h with
    | @node e hn hx => exact ⟨⟨_, hn, by simp [findEdge, isUsed_iff.mpr hx]⟩, .inl ⟨_, hn⟩⟩
    | @wire t loc e hw hc hl hx =>
        exact ⟨⟨_, hc, by simp [findEdge, isUsed_iff.mpr hx, hl]⟩, .inr ⟨_, hw⟩⟩

theorem through_eq {m : Module} (hm : Analysable m) : Through m = ValueFeeds m :=
  funext fun _ => funext fun _ => propext (through_iff hm)

/-- **The control registers are the registers that can influence a mux select.** For every
    LowForm module and whatever the iteration orders, the analysis answers, and a register is
    among its control registers iff a path through nodes and wires, through any operand of any
    expression, leads from it to a select. -/
theorem findMuxSrcs_iff_influence {m : Module} (hm : Analysable m) (hv : NoValidIf m)
    (σ : SetOrder) :
    ∃ cs, (GraphLedger.parseModule (.module m)).findMuxSrcs σ = some cs ∧
      ∀ r, r ∈ cs.defRegister ↔ r ∈ m.regs ∧ ReachesSelect allNames m r.name := by
  obtain ⟨d, hd, hok, hall⟩ := muxSrcs_spec hm.referenced σ
  refine ⟨_, by unfold GraphLedger.findMuxSrcs; rw [hd]; rfl, fun r => ?_⟩
  rw [reachesSelect_iff hv]
  -- a register vertex is a source, and the ledger finds it under its name
  have hnode : r ∈ m.regs → (GraphLedger.parseModule (.module m)).graphMap.get? r.name =
      some (.defRegister r) := fun hr =>
    parseModule_get? hm.nodup (mem_nodesOf_reg.mpr hr)
  refine Iff.trans (b := ∃ x ∈ d.values.flatten,
    (GraphLedger.parseModule (.module m)).graphMap.get? x = some (.defRegister r)) ?_ ?_
  · unfold GraphLedger.ctrlNodes
    rw [List.mem_filterMap]
    constructor
    · intro hex
      obtain ⟨v, hv, e⟩ := hex
      cases v <;> simp at e
      subst e
      obtain ⟨x, hx, hg⟩ := List.mem_filterMap.mp hv
      exact ⟨x, List.mem_dedup.mp hx, hg⟩
    · intro hex
      obtain ⟨x, hx, hg⟩ := hex
      exact ⟨_, List.mem_filterMap.mpr ⟨x, List.mem_dedup.mpr hx, hg⟩, rfl⟩
  constructor
  · intro hex
    obtain ⟨x, hx, hg⟩ := hex
    obtain ⟨hn, rfl⟩ := parseModule_get?_inv hm.nodup hg
    have hr : r ∈ m.regs := mem_nodesOf_reg.mp hn
    refine ⟨hr, ?_⟩
    obtain ⟨srcs, hs, hx⟩ := List.mem_flatten.mp hx
    obtain ⟨⟨μ, srcs⟩, he, rfl⟩ := List.mem_map.mp hs
    obtain ⟨hμ, hc⟩ := hok _ he
    obtain ⟨l, hl, hx'⟩ := mem_ctrlsSrcs hm.referenced σ (cond_declared hm.referenced hμ)
    rw [through_eq hm] at hx'
    rw [hl] at hc
    cases hc
    obtain ⟨⟨n, hn, hp⟩, _⟩ := (hx' _).mp hx
    exact ⟨μ, hμ, n, hn, hp⟩
  · intro h'
    obtain ⟨hr, μ, hμ, n, hn, hp⟩ := h'
    obtain ⟨srcs, he⟩ := hall μ hμ
    obtain ⟨_, hc⟩ := hok _ he
    obtain ⟨l, hl, hx'⟩ := mem_ctrlsSrcs hm.referenced σ (cond_declared hm.referenced hμ)
    rw [through_eq hm] at hx'
    rw [hl] at hc
    cases hc
    refine ⟨r.name, List.mem_flatten.mpr ⟨srcs, List.mem_map.mpr ⟨_, he, rfl⟩, (hx' _).mpr ⟨⟨n, hn, hp⟩, ?_⟩⟩,
      hnode hr⟩
    unfold GraphLedger.source
    rw [hnode hr]
    simp [Node.passes]

/-- A register that reaches a select as a value, and one that does through a select only. -/
def selectDemo : Module where
  name := "SelectDemo"
  ports := [⟨"clock", .input, .clock⟩, ⟨"out", .output, .uint 1⟩]
  body :=
    [.defRegister (addedReg "a"), .defRegister (addedReg "b"),
     .defNode "n" (.mux (bit "a") (bit "b") (.uintLit 0 1) (.uint 1)),
     .defWire "w" (.uint 1), .connect (bit "w") (.doPrim1 .not (bit "n") [] (.uint 1)),
     .connect (bit "out") (.mux (bit "w") (.uintLit 1 1) (.uintLit 0 1) (.uint 1))]
where
  bit (n : String) : Expr := .ref n (.uint 1)
  addedReg (n : String) : DefRegister :=
    ⟨.noInfo, n, .uint 1, .ref "clock" .clock, .uintLit 0 1, bit n⟩

theorem selectDemo_analysable : Analysable selectDemo where
  nodup := by decide
  resolved := by decide
  commaFree := by decide
  nodes := by
    intro loc e h n e' h'
    simp [Module.leaves, Stmt.leavesList, Stmt.leaves, selectDemo, selectDemo.bit] at h h'
    rcases h with ⟨rfl, _⟩ | ⟨rfl, _⟩ <;> rw [h'.1] <;> decide

theorem findMuxSrcs_selectDemo :
    ∃ cs, (GraphLedger.parseModule (.module selectDemo)).findMuxSrcs .insertion = some cs ∧
      selectDemo.addedReg "a" ∈ cs.defRegister ∧ selectDemo.addedReg "b" ∈ cs.defRegister := by
  obtain ⟨cs, hcs, h⟩ := findMuxSrcs_iff_influence selectDemo_analysable
    (by unfold NoValidIf; decide) .insertion
  have hdef : .defWire "w" (.uint 1) ∈ selectDemo.leaves := by
    simp [Module.leaves, Stmt.leavesList, Stmt.leaves, selectDemo]
  have hcon : .connect (selectDemo.bit "w") (.doPrim1 .not (selectDemo.bit "n") [] (.uint 1)) ∈
      selectDemo.leaves := by
    simp [Module.leaves, Stmt.leavesList, Stmt.leaves, selectDemo]
  have hw : Relation.ReflTransGen (Feeds selectDemo) "n" "w" :=
    .single (.wire hdef hcon rfl (by decide))
  have hn : ∀ x ∈ ["a", "b"], Feeds selectDemo x "n" := fun x hx =>
    .node (e := .mux (selectDemo.bit "a") (selectDemo.bit "b") (.uintLit 0 1) (.uint 1))
      (by simp [Module.leaves, Stmt.leavesList, Stmt.leaves, selectDemo])
      (by simpa [allNames, selectDemo.bit] using hx)
  have hsel : ∀ x ∈ ["a", "b"], ReachesSelect allNames selectDemo x := fun x hx =>
    ⟨⟨selectDemo.bit "w", .uintLit 1 1, .uintLit 0 1, .uint 1⟩, by decide, "w", by decide,
      .head (hn x hx) hw⟩
  exact ⟨cs, hcs, (h _).mpr ⟨by decide, hsel "a" (by decide)⟩,
    (h _).mpr ⟨by decide, hsel "b" (by decide)⟩⟩

end Difuzz.Coverage
