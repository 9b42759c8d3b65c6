/-
  File:      DifuzzRtl/Coverage/MetaReset.lean
  Subject:   `metaReset` clears the design in one cycle and leaves the coverage alone.

  The reset enters every connect of a register the module had, and of the sticky register, as the
  select of a mux; it reaches the instances through OR gates. The coverage logic has no such mux,
  and what it reads are registers and selects of the module, which do not depend on the reset.

  * `new_nodes_cases`, `select_sig` -- the state word is built from control registers and from
    mux selects of the module.
  * `reduceTree_agree`, `Parts.state_agree` -- so two valuations that agree on the signals of the
    module give the state register the same next value.
  * `CovAgree` -- equal coverage registers and maps.
  * `metaReset_one` -- a high reset at the top is high everywhere.
  * `metaReset_clears` -- the result, for one clock edge from any state.
-/
import DifuzzRtl.Coverage.Transparent
import DifuzzRtl.Coverage.Selection

namespace Difuzz.Coverage

open Firrtl

/-! ## 1. What the state word is built from -/

theorem muxes_of_serialize {e : Expr} (h : e.serialize.isSome) : Expr.muxes e = [] := by
  induction e with
  | ref => rfl
  | subField e f t ih =>
      refine ih ?_
      simpa [Expr.serialize] using h
  | _ => cases h

/-- The signals a select reads, its expression reads. -/
theorem muxes_refs {e : Expr} (hl : e.lowFields = true) {μ : Mux} (h : μ ∈ Expr.muxes e) :
    ∀ x ∈ μ.cond.refs, x ∈ e.refs := by
  intro x hx
  induction e with
  | ref => cases h
  | subField e f t _ =>
      have hno : Expr.muxes e = [] := muxes_of_serialize hl
      simp only [Expr.muxes, hno] at h
      cases h
  | uintLit => cases h
  | sintLit => cases h
  | mux c a b t ihc iha ihb =>
      simp only [Expr.lowFields, Bool.and_eq_true] at hl
      simp only [Expr.muxes, List.mem_cons, List.mem_append] at h
      simp only [Expr.refs, List.mem_append]
      rcases h with rfl | (h | h) | h
      · exact .inl (.inl hx)
      · exact .inl (.inl (ihc hl.1.1 h))
      · exact .inl (.inr (iha hl.1.2 h))
      · exact .inr (ihb hl.2 h)
  | validIf c e t ihc ihe =>
      simp only [Expr.lowFields, Bool.and_eq_true] at hl
      simp only [Expr.muxes, List.mem_append] at h
      simp only [Expr.refs, List.mem_append]
      exact h.imp (ihc hl.1) (ihe hl.2)
  | doPrim1 op a cs t ih => exact ih hl h
  | doPrim2 op a b cs t iha ihb =>
      simp only [Expr.lowFields, Bool.and_eq_true] at hl
      simp only [Expr.muxes, List.mem_append] at h
      simp only [Expr.refs, List.mem_append]
      exact h.imp (iha hl.1) (ihb hl.2)

/-- The search answers muxes of the module only. -/
theorem muxSrcs_keys {g : GraphLedger} {σ : SetOrder} {d : Dict Mux (List String)}
    (h : g.muxSrcs σ = some d) : ∀ x ∈ d.entries, x.1 ∈ g.muxes := by
  have inner : ∀ (ms : List Mux) (srcs : List String) (d : Dict Mux (List String)),
      (∀ μ ∈ ms, μ ∈ g.muxes) → (∀ x ∈ d.entries, x.1 ∈ g.muxes) →
      ∀ x ∈ (ms.foldl (fun d μ => d.set μ srcs) d).entries, x.1 ∈ g.muxes := by
    intro ms srcs
    induction ms with
    | nil => exact fun d _ hd => hd
    | cons μ ms ih =>
        intro d hms hd
        refine ih _ (fun μ' h' => hms μ' (List.mem_cons_of_mem _ h')) fun x hx => ?_
        rcases Dict.mem_setEntries hx with rfl | hx
        · exact hms _ List.mem_cons_self
        · exact hd x hx
  have outer : ∀ (cs : List (List String)) (d d' : Dict Mux (List String)),
      cs.foldlM (fun d ctrls => (g.ctrlsSrcs σ ctrls).map fun srcs =>
        (g.muxes.filter fun m => GraphLedger.listBufferToString (findNames m.cond) =
          GraphLedger.listBufferToString ctrls).foldl (fun d m => d.set m srcs) d) d = some d' →
      (∀ x ∈ d.entries, x.1 ∈ g.muxes) → ∀ x ∈ d'.entries, x.1 ∈ g.muxes := by
    intro cs
    induction cs with
    | nil =>
        intro d d' hd' hd
        cases hd'
        exact hd
    | cons c cs ih =>
        intro d d' hd' hd
        rw [List.foldlM_cons, Option.bind_eq_bind, Option.bind_eq_some_iff] at hd'
        obtain ⟨d₁, h₁, hd'⟩ := hd'
        rw [Option.map_eq_some_iff] at h₁
        obtain ⟨srcs, _, rfl⟩ := h₁
        exact ih _ d' hd' (inner _ srcs d (fun μ hμ => (List.mem_filter.mp hμ).1) hd)
  exact outer _ .empty d h fun x hx => absurd hx List.not_mem_nil

section Nodes

open Selection

variable {σ : SetOrder} {mInfo : ModuleInfo} {maxStateSize : Nat}

/-- **The state word tracks control registers and selects.** -/
theorem new_nodes_cases {rnd : Nat → Nat} {mName : String} {extModules : List String}
    {covSumSize : Nat} {c : InstrCov}
    (hc : InstrCov.new σ mInfo maxStateSize rnd mName extModules covSumSize = some c)
    {n : CtrlNode} (hn : n ∈ c.nodes) :
    (∃ r ∈ mInfo.ctrlRegs, n = .reg r) ∨ ∃ x ∈ mInfo.muxSrcs.entries, n = .expr x.1.cond := by
  have hvec : ∀ r ∈ vectorRegs mInfo maxStateSize, r ∈ mInfo.ctrlRegs :=
    fun r hr => (mem_smallRegs.mp (vectorRegs_small hr)).1
  unfold InstrCov.new at hc
  split at hc
  · simp only [Option.bind_eq_bind, Option.bind_eq_some_iff, Option.pure_def,
      Option.some.injEq] at hc
    obtain ⟨⟨tot, st, offs⟩, hoffs, names, _, vecs, hvecs, rfl⟩ := hc
    obtain ⟨t, ht, rfl⟩ := List.mem_map.mp hn
    rcases List.mem_append.mp ht with ht | ht
    · have hmem := List.mem_map_of_mem (f := Prod.fst) (List.mem_filter.mp ht).1
      rw [(getRegState_spec hoffs).2] at hmem
      split at hmem
      · cases hmem
      rcases List.mem_append.mp hmem with hmem | hmem
      · obtain ⟨r, hr, e⟩ := List.mem_map.mp hmem
        refine .inl ⟨r, ?_, e.symm⟩
        rcases List.mem_append.mp hr with hr | hr
        · have hr := (SetOrder.mem_toSeq σ).mp (List.mem_filter.mp hr).1
          exact (mem_smallRegs.mp (scalaRegs_small hr)).1
        · exact hvec r (firstVecSet_vectorRegs r ((SetOrder.mem_toSeq σ).mp hr))
      · obtain ⟨e, he, heq⟩ := List.mem_map.mp hmem
        have he := List.mem_dedup.mp ((SetOrder.mem_toSeq σ).mp (List.mem_filter.mp he).1)
        obtain ⟨r, _, he⟩ := List.mem_flatMap.mp he
        obtain ⟨x, hx, rfl⟩ := List.mem_map.mp he
        exact .inr ⟨x, (List.mem_filter.mp hx).1, heq.symm⟩
    · have hmem := List.mem_map_of_mem (f := Prod.fst) ((SetOrder.mem_toSeq σ).mp ht)
      obtain ⟨r, e, _, _, hr⟩ := (mem_vectorOffsets hvecs).mp hmem
      exact .inl ⟨r, hvec r (List.mem_of_find?_eq_some hr), e⟩
  · cases hc

end Nodes

/-! ## 2. The coverage logic does not see the reset -/

/-- Two valuations that obey the wiring agree on its result when they agree on its operands. -/
theorem reduceTree_agree {op : PrimOp} {width : Nat} {wire : Nat → String} {fuel : Nat}
    {refs : List Expr} {id : Nat} {r : Expr} {ss : List Stmt}
    (h : reduceTree op width wire fuel refs id = some (r, ss)) {v w : Sig → Int}
    (hv : ∀ loc e, .connect loc e ∈ ss → v loc.sig = loc.tpe.clip (eval v e))
    (hw : ∀ loc e, .connect loc e ∈ ss → w loc.sig = loc.tpe.clip (eval w e))
    (hr : ∀ e ∈ refs, eval v e = eval w e) : eval v r = eval w r := by
  revert hv hw hr
  refine reduceTree_ind (P := fun refs _ r ss =>
    (∀ loc e, .connect loc e ∈ ss → v loc.sig = loc.tpe.clip (eval v e)) →
    (∀ loc e, .connect loc e ∈ ss → w loc.sig = loc.tpe.clip (eval w e)) →
    (∀ e ∈ refs, eval v e = eval w e) → eval v r = eval w r) ?_ ?_ ?_ h
  · intro r id _ _ hr
    exact hr r (List.mem_singleton_self r)
  · intro a b id hv hw hr
    have hv' : v [wire id] = _ := hv _ _ (List.mem_cons_of_mem _ List.mem_cons_self)
    have hw' : w [wire id] = _ := hw _ _ (List.mem_cons_of_mem _ List.mem_cons_self)
    simp only [eval] at hv' hw'
    simp only [eval, hv', hw', hr a (by simp), hr b (by simp)]
  · intro refs id r₁ s₁ r₂ s₂ _ ih₁ ih₂ hv hw hr
    have h₁ := ih₁ (fun loc e hs => hv loc e (by simp [hs])) (fun loc e hs => hw loc e (by simp [hs]))
      fun e he => hr e (List.mem_of_mem_take he)
    have h₂ := ih₂ (fun loc e hs => hv loc e (by simp [hs])) (fun loc e hs => hw loc e (by simp [hs]))
      fun e he => hr e (List.mem_of_mem_drop he)
    have hv' : v [wire id] = _ := hv (.ref (wire id) (.uint width))
      (.doPrim2 op r₁ r₂ [] (.uint width)) (by simp)
    have hw' : w [wire id] = _ := hw (.ref (wire id) (.uint width))
      (.doPrim2 op r₁ r₂ [] (.uint width)) (by simp)
    simp only [eval] at hv' hw'
    simp only [eval, hv', hw', h₁, h₂]

/-- The coverage registers and the coverage map of an instance are the same in two states. -/
structure CovEq (c : InstrCov) (p : Path) (st st' : State) : Prop where
  state : st.reg p c.regStateName = st'.reg p c.regStateName
  sum : st.reg p c.covSumName = st'.reg p c.covSumName
  map : st.mem p c.covMapName = st'.mem p c.covMapName

/-- The selects that get a wire have an offset. -/
theorem InstrCov.expr_mem_nodes (c : InstrCov) {e : Expr} (h : e ∈ c.allOffsets.filterMap fun t =>
    match t.1 with | .expr e => some e | .reg _ => none) : .expr e ∈ c.nodes := by
  obtain ⟨t, ht, hte⟩ := List.mem_filterMap.mp h
  refine List.mem_map.mpr ⟨t, ht, ?_⟩
  cases hn : t.1 with
  | reg r =>
      rw [hn] at hte
      cases hte
  | expr e' =>
      rw [hn] at hte
      cases hte
      rfl

/-- The clock that the coverage logic uses is a port. -/
theorem InstrCov.clockName_port {m : Module} {clk : String} (h : InstrCov.clockName m = some clk) :
    ∃ q ∈ m.ports, q.name = clk := by
  unfold InstrCov.clockName at h
  have key : ∀ (ps : List Port) (acc : Option String), ps.foldl (fun acc p =>
      if p.name = "clock" ∨ p.name = "gated_clock" then some p.name else acc) acc = some clk →
      acc = some clk ∨ ∃ q ∈ ps, q.name = clk := by
    intro ps
    induction ps with
    | nil => exact fun acc h => .inl h
    | cons q ps ih =>
        intro acc h
        rcases ih _ h with h | ⟨q', hq', hn⟩
        · simp only at h
          split at h
          · exact .inr ⟨q, List.mem_cons_self, Option.some.inj h⟩
          · exact .inl h
        · exact .inr ⟨q', List.mem_cons_of_mem _ hq', hn⟩
  rcases key _ _ h with h | h
  · cases h
  · exact h

namespace Parts

variable {cfg : Config} {C C' : Circuit} {m mm : Module} (P : Parts cfg C m mm)

/-- A tracked select reads signals of the module. -/
theorem select_sig (hm : LowModule C m) {e : Expr} (he : .expr e ∈ P.c.nodes) :
    ∀ x ∈ e.refs, IsSig C m x := by
  rcases new_nodes_cases P.hc he with ⟨_, _, h⟩ | ⟨y, hy, h⟩
  · cases h
  · cases h
    have hμ := muxSrcs_keys (ofModule_eq_some P.hinfo).2.2.1 y hy
    obtain ⟨s, hs, hμ⟩ := List.mem_flatMap.mp hμ
    obtain ⟨e, he, hμ⟩ := List.mem_flatMap.mp hμ
    exact fun x hx => hm.resolved s hs e he x (muxes_refs (hm.fields s hs e he) hμ x hx)

/-- A tracked register is one of the module. -/
theorem tracked_reg (hm : LowModule C m) {r : DefRegister} (hr : .reg r ∈ P.c.nodes) :
    r ∈ m.regs := by
  rcases new_nodes_cases P.hc hr with ⟨r', hr', h⟩ | ⟨_, _, h⟩
  · cases h
    exact ctrlRegs_regs P.hinfo hm.nodup hr'
  · cases h

section Agree

variable (hL : LowForm C) (hm : .module m ∈ C.modules) (hf : mm.declared.Nodup) {p : Path}
  (hp : C'.Inst p (.module mm)) {st₁ st₂ : State} {V W : Valuation} (hV : C'.Settled st₁ V)
  (hW : C'.Settled st₂ W) (hVW : ∀ s, IsSig C m s → V p s = W p s)

include hL hm hf hp hV hW

/-- A wire of the coverage logic. -/
theorem wire_agree {n : String} {t : GType} {e : Expr} (hw : .defWire n t ∈ P.cov)
    (hc : .connect (.ref n t) e ∈ P.cov) (he : eval (V p) e = eval (W p) e) :
    V p [n] = W p [n] := by
  have hreg : ∀ r ∈ mm.regs, [n] ≠ [r.name] :=
    Module.reg_ne_of_decl hf (P.mem_leaves_of_cov hL hm hf hw) rfl fun _ h => nomatch h
  have h₁ : V p [n] = t.clip (eval (V p) e) := P.cov_connect hL hm hf hp hV hc hreg
  have h₂ : W p [n] = t.clip (eval (W p) e) := P.cov_connect hL hm hf hp hW hc hreg
  rw [h₁, h₂, he]

/-- A port of the map is driven alike where its expression is. -/
theorem covField_agree {q f : String} {t : GType} {e : Expr}
    (hs : .connect (P.c.covField q f t) e ∈ P.cov) (he : eval (V p) e = eval (W p) e) :
    V p [P.c.covMapName, q, f] = W p [P.c.covMapName, q, f] := by
  have hr : ∀ r ∈ mm.regs, (P.c.covField q f t).sig ≠ [r.name] := fun r _ h => by
    simp [InstrCov.covField, Expr.sig] at h
  have h₁ : V p [P.c.covMapName, q, f] = t.clip (eval (V p) e) :=
    P.cov_connect hL hm hf hp hV hs hr
  have h₂ : W p [P.c.covMapName, q, f] = t.clip (eval (W p) e) :=
    P.cov_connect hL hm hf hp hW hs hr
  rw [h₁, h₂, he]

theorem regState_agree {clk : String} (hclk : InstrCov.clockName m = some clk)
    (hsz : P.c.regStateSize ≠ 0) (heq : CovEq P.c p st₁ st₂) :
    V p [P.c.regStateName] = W p [P.c.regStateName] := by
  obtain ⟨stc, hstc, hcov⟩ := P.cov_eq hclk hsz
  have hstate : .defRegister (P.c.regState clk) ∈ mm.leaves :=
    P.mem_leaves_of_cov hL hm hf (by simp [hcov])
  exact ((hV p mm hp _ hstate).trans (addedRegister_current ..)).trans (heq.state.trans
    ((hW p mm hp _ hstate).trans (addedRegister_current ..)).symm)

include hVW

/-- **The state register is given the same value.** -/
theorem state_agree {stc : List Stmt} (hst : P.c.stateConnect = some stc)
    (hsub : ∀ s ∈ stc, s ∈ P.cov) :
    ∃ top, .connect (.ref P.c.regStateName (.uint P.c.regStateSize)) top ∈ P.cov ∧
      eval (V p) top = eval (W p) top := by
  have hlow := hL.modules m hm
  simp only [InstrCov.stateConnect, InstrCov.makeOffset, Option.bind_eq_bind,
    Option.bind_eq_some_iff, Option.map_eq_some_iff, Option.pure_def, Option.some.injEq] at hst
  obtain ⟨_, ⟨l, hl, rfl⟩, ⟨top, xors⟩, hx, rfl⟩ := hst
  have hl := forall₂_of_mapM hl
  have hwire : ∀ {n : String} {t : GType} {e : Expr}, .defWire n t ∈ P.cov →
      .connect (.ref n t) e ∈ P.cov → eval (V p) e = eval (W p) e → V p [n] = W p [n] :=
    fun hw hc he => P.wire_agree hL hm hf hp hV hW hw hc he
  have htmp : ∀ s ∈ P.c.tmpStmts, s ∈ P.cov := fun s hs => hsub s (by simp [hs])
  -- the wires of the tracked selects
  have hcond : ∀ {e : Expr} {n : String}, P.c.tmpWires.get? e = some n → V p [n] = W p [n] := by
    intro e n hn
    unfold InstrCov.tmpWires at hn
    rw [Dict.get?_ofList] at hn
    have hn := List.mem_reverse.mp (Dict.mem_of_lookup hn)
    obtain ⟨x, hx, hxe⟩ := List.mem_map.mp hn
    cases hxe
    have hnode := P.c.expr_mem_nodes (List.mem_of_getElem? (List.mem_zipIdx_iff_getElem?.mp hx))
    have hs : ∀ s ∈ [Stmt.defWire ("mux_cond_" ++ toString x.2) (.uint 1),
        .connect (.ref ("mux_cond_" ++ toString x.2) (.uint 1)) x.1], s ∈ P.cov :=
      fun s hs => htmp s (List.mem_flatMap.mpr ⟨x, hx, hs⟩)
    exact hwire (hs _ List.mem_cons_self) (hs _ (List.mem_cons_of_mem _ List.mem_cons_self))
      (eval_congr fun y hy => hVW y (P.select_sig hlow hnode y hy))
  -- the tracked signals, shifted and padded
  have hpad : ∀ y ∈ l, eval (V p) y.1 = eval (W p) y.1 := by
    intro y hy
    obtain ⟨t, ht, he⟩ := Forall₂.mem_right hl hy
    rw [Option.map_eq_some_iff] at he
    obtain ⟨x, hx, rfl⟩ := he
    have hnode : t.1 ∈ P.c.nodes := List.mem_map_of_mem ht
    have hname : V p [x.1] = W p [x.1] := by
      cases hn : t.1 with
      | reg r =>
          rw [hn] at hx hnode
          simp only [InstrCov.ctrlOf, Option.map_eq_some_iff] at hx
          obtain ⟨w, _, rfl⟩ := hx
          exact hVW _ (.reg (P.tracked_reg hlow hnode))
      | expr e =>
          rw [hn] at hx
          simp only [InstrCov.ctrlOf, Option.map_eq_some_iff] at hx
          obtain ⟨n, hn, rfl⟩ := hx
          exact hcond hn
    have hs : ∀ s ∈ P.c.offsetStmts x.1 x.2.1 x.2.2 t.2, s ∈ P.cov := fun s hs => hsub s (by
      simp only [List.mem_append, List.mem_flatMap]
      exact .inl (.inl (.inr ⟨_, hy, hs⟩)))
    have hshl : V p [x.1 ++ "_shl"] = W p [x.1 ++ "_shl"] :=
      hwire (hs _ List.mem_cons_self) (hs _ (List.mem_cons_of_mem _ List.mem_cons_self))
        (by simp only [eval, hname])
    have hpad : V p [x.1 ++ "_pad"] = W p [x.1 ++ "_pad"] := by
      refine hwire (hs _ (List.mem_cons_of_mem _ (List.mem_cons_of_mem _ List.mem_cons_self)))
        (hs _ (List.mem_cons_of_mem _ (List.mem_cons_of_mem _
          (List.mem_cons_of_mem _ List.mem_cons_self)))) ?_
      split
      · simp only [eval, hshl]
      · simp only [eval, hshl]
    simp only [eval, hpad]
  -- the tree of xors over them
  have hxor : ∀ s ∈ xors, s ∈ P.cov := fun s hs => hsub s (by simp [hs])
  have hlinks : ∀ loc e, .connect loc e ∈ xors → ∀ r ∈ mm.regs, loc.sig ≠ [r.name] := by
    intro loc e hs
    obtain ⟨n, t, rfl, hw⟩ := reduceTree_targets hx loc e hs
    exact Module.reg_ne_of_decl hf (P.mem_leaves_of_cov hL hm hf (hxor _ hw)) rfl
      fun _ h => by cases h
  refine ⟨top, hsub _ (by simp), reduceTree_agree hx
    (fun loc e hs => P.cov_connect hL hm hf hp hV (hxor _ hs) (hlinks loc e hs))
    (fun loc e hs => P.cov_connect hL hm hf hp hW (hxor _ hs) (hlinks loc e hs)) fun e he => ?_⟩
  obtain ⟨y, hy, rfl⟩ := List.mem_map.mp he
  exact hpad y hy

omit hL hm hf hp hV hW in
theorem clock_agree {clk : String} (hclk : InstrCov.clockName m = some clk) :
    V p [clk] = W p [clk] := by
  obtain ⟨q, hq, rfl⟩ := InstrCov.clockName_port hclk
  exact hVW _ (.port hq)

/-- **The ports of the map** are driven alike. -/
theorem covMap_inputs_agree {clk : String} (hclk : InstrCov.clockName m = some clk)
    (hsz : P.c.regStateSize ≠ 0) (heq : CovEq P.c p st₁ st₂) :
    P.c.covMap.inputs (V p) = P.c.covMap.inputs (W p) := by
  obtain ⟨stc, hstc, hcov⟩ := P.cov_eq hclk hsz
  have hst := P.regState_agree hL hm hf hp hV hW hclk hsz heq
  have field : ∀ {q f : String} {t : GType} {e : Expr},
      .connect (P.c.covField q f t) e ∈ P.cov → eval (V p) e = eval (W p) e →
      V p [P.c.covMapName, q, f] = W p [P.c.covMapName, q, f] :=
    fun hs he => P.covField_agree hL hm hf hp hV hW hs he
  have hx : eval (V p) (.ref P.c.regStateName (.uint P.c.regStateSize)) =
      eval (W p) (.ref P.c.regStateName (.uint P.c.regStateSize)) := by
    simp only [eval, hst]
  have hck : eval (V p) (.ref clk .clock) = eval (W p) (.ref clk .clock) := by
    simp only [eval, clock_agree hVW hclk]
  have hraddr := field (q := "read") (f := "addr") (t := .uint P.c.regStateSize)
    (by simp [hcov, InstrCov.readConnect]) hx
  have hren := field (q := "read") (f := "en") (t := .uint 1) (e := .uintLit 1 1)
    (by simp [hcov, InstrCov.readConnect]) rfl
  have hrclk := field (q := "read") (f := "clk") (t := .clock)
    (by simp [hcov, InstrCov.readConnect]) hck
  have hwaddr := field (q := "write") (f := "addr") (t := .uint P.c.regStateSize)
    (by simp [hcov, InstrCov.writeConnect]) hx
  have hwmask := field (q := "write") (f := "mask") (t := .uint 1) (e := .uintLit 1 1)
    (by simp [hcov, InstrCov.writeConnect]) rfl
  have hwen := field (q := "write") (f := "en") (t := .uint 1) (e := .uintLit 1 1)
    (by simp [hcov, InstrCov.writeConnect]) rfl
  have hwclk := field (q := "write") (f := "clk") (t := .clock)
    (by simp [hcov, InstrCov.writeConnect]) hck
  have hwdata := field (q := "write") (f := "data") (t := .uint 1) (e := .uintLit 1 1)
    (by simp [hcov, InstrCov.writeConnect]) rfl
  simp only [DefMemory.inputs, InstrCov.covMap, List.map_cons, List.map_nil, hraddr, hren, hrclk,
    hwaddr, hwen, hwclk, hwmask, hwdata]

/-- **The coverage of one instance** takes the same step. -/
theorem covEq_next {clk : String} (hclk : InstrCov.clockName m = some clk)
    (hsz : P.c.regStateSize ≠ 0) {st₁' st₂' : State} (hnV : C'.Next st₁ V st₁')
    (hnW : C'.Next st₂ W st₂') (htick : eval (V p) (.ref clk .clock) ≠ 0)
    (heq : CovEq P.c p st₁ st₂) : CovEq P.c p st₁' st₂' := by
  obtain ⟨stc, hstc, hcov⟩ := P.cov_eq hclk hsz
  have hmem : ∀ s, s ∈ P.cov → s ∈ mm.leaves := fun s hs => P.mem_leaves_of_cov hL hm hf hs
  have hstate : .defRegister (P.c.regState clk) ∈ mm.leaves := hmem _ (by simp [hcov])
  have hsum : .defRegister (P.c.covSum clk) ∈ mm.leaves := hmem _ (by simp [hcov])
  have hmap : .defMemory P.c.covMap ∈ mm.leaves := hmem _ (by simp [hcov])
  -- both valuations tick
  have htickW : eval (W p) (.ref clk .clock) ≠ 0 := by
    simpa only [eval, clock_agree hVW hclk] using htick
  have hsm : V p [P.c.covSumName] = W p [P.c.covSumName] :=
    ((hV p mm hp _ hsum).trans (addedRegister_current ..)).trans (heq.sum.trans
      ((hW p mm hp _ hsum).trans (addedRegister_current ..)).symm)
  have hins := P.covMap_inputs_agree hL hm hf hp hV hW hVW hclk hsz heq
  refine ⟨?_, ?_, ?_⟩
  · obtain ⟨top, htop, he⟩ := P.state_agree hL hm hf hp hV hW hVW hstc fun s hs => by
      simp [hcov, hs]
    have h₁ := addedRegister_next (hnV.reg p mm hp _ (Module.mem_regs.mpr hstate)) htick
      (hmem _ htop) rfl
    have h₂ := addedRegister_next (hnW.reg p mm hp _ (Module.mem_regs.mpr hstate)) htickW
      (hmem _ htop) rfl
    exact h₁.trans ((congrArg (· % 2 ^ P.c.regStateSize) he).trans h₂.symm)
  · have hdata : V p [P.c.covMapName, "read", "data"] = W p [P.c.covMapName, "read", "data"] := by
      have h₁ : V p [P.c.covMapName, "read", "data"] = P.c.covMap.readData
          (st₁.mem p P.c.covMapName) (P.c.covMap.inputs (V p)) "read" :=
        (hV p mm hp _ hmap).1 "read" (List.mem_singleton_self _)
      have h₂ : W p [P.c.covMapName, "read", "data"] = P.c.covMap.readData
          (st₂.mem p P.c.covMapName) (P.c.covMap.inputs (W p)) "read" :=
        (hW p mm hp _ hmap).1 "read" (List.mem_singleton_self _)
      rw [h₁, h₂, hins, heq.map]
    have hcon : .connect P.c.covSumRef (.mux (P.c.covField "read" "data" (.uint 1)) P.c.covSumRef
        (.doPrim2 .add P.c.covSumRef (.uintLit 1 1) [] (.uint P.c.covSumSize)) .unknown) ∈
        mm.leaves := hmem _ (by simp [hcov, InstrCov.readConnect])
    have h₁ := addedRegister_next (hnV.reg p mm hp _ (Module.mem_regs.mpr hsum)) htick hcon rfl
    have h₂ := addedRegister_next (hnW.reg p mm hp _ (Module.mem_regs.mpr hsum)) htickW hcon rfl
    refine h₁.trans (Eq.trans ?_ h₂.symm)
    have hread : eval (V p) (P.c.covField "read" "data" (.uint 1)) =
        eval (W p) (P.c.covField "read" "data" (.uint 1)) := congrArg _ hdata
    have hown : eval (V p) P.c.covSumRef = eval (W p) P.c.covSumRef := congrArg _ hsm
    simp only [eval, hread, hown]
  · have h₁ : st₁'.mem p P.c.covMapName = P.c.covMap.next (st₁.mem p P.c.covMapName)
        (P.c.covMap.inputs (V p)) := hnV.mem p mm hp _ hmap
    have h₂ : st₂'.mem p P.c.covMapName = P.c.covMap.next (st₂.mem p P.c.covMapName)
        (P.c.covMap.inputs (W p)) := hnW.mem p mm hp _ hmap
    rw [h₁, h₂, hins, heq.map]

end Agree

end Parts

/-! ## 3. One clock edge under the reset -/

/-- What the compiler leaves of a register: synchronous resets are muxes by now (`RemoveReset`), so
    only an asynchronous one still stands at the register; and something is connected to it. -/
def Clearable (C : Circuit) : Prop :=
  ∀ m, .module m ∈ C.modules → ∀ r ∈ m.regs,
    (r.reset.tpe = .asyncReset ∨ r.reset = .uintLit 0 1) ∧
    ∃ loc e, .connect loc e ∈ m.leaves ∧ loc.sig = [r.name]

/-- A cycle with the reset high at the top: every register's clock ticks, no asynchronous reset
    is asserted. -/
structure ResetCycle (C C' : Circuit) (st : State) (V : Valuation) (st' : State) : Prop where
  settled : C'.Settled st V
  next : C'.Next st V st'
  reset : V [] ["metaReset"] = 1
  ticks : ∀ p mm, C'.Inst p (.module mm) → ∀ r ∈ mm.regs, eval (V p) r.clock ≠ 0
  async : ∀ p m, C.Inst p (.module m) → ∀ r ∈ m.regs, r.reset.tpe = .asyncReset →
    eval (V p) r.reset = 0

/-- The coverage registers and maps of all instances are the same in two states. -/
def CovAgree (cfg : Config) (C : Circuit) (st st' : State) : Prop :=
  ∀ p m c, C.Inst p (.module m) → covOf cfg C m = some c → c.hasMap m = true → CovEq c p st st'

namespace Parts

variable {cfg : Config} {C : Circuit} {m mm : Module} (P : Parts cfg C m mm)

/-- The registers of the coverage pass. -/
theorem cov_reg {r : DefRegister} (hr : .defRegister r ∈ P.cov) :
    r.name = m.name ++ "_state" ∨ r.name = m.name ++ "_covSum" := by
  have hsum : .defRegister r ∉ P.c.makeSum P.c.insts P.c.covSumRef := fun h => by
    cases P.c.makeSum_wiring _ _ _ h
  rcases InstrCov.addedStmts_cases P.hcov with ⟨clk, stc, _, _, hst, e⟩ | ⟨_, e⟩
  · have hstc : .defRegister r ∉ stc := fun h => by cases P.c.stateConnect_wiring hst _ h
    rw [e] at hr
    simp only [List.mem_append, List.mem_cons, List.not_mem_nil, or_false, hsum, hstc,
      InstrCov.readConnect, InstrCov.writeConnect, reduceCtorEq, Stmt.defRegister.injEq,
      false_or] at hr
    rw [← P.c_mName]
    rcases hr with rfl | rfl
    · exact .inl rfl
    · exact .inr rfl
  · rw [e] at hr
    simp [InstrCov.addedStmts.noCoverage, hsum] at hr

end Parts

/-- A register with a reset mux in front is cleared. -/
theorem next_of_muxed {leaves : List Stmt} {v : Sig → Int} {r : DefRegister} {x : Int}
    (h : r.Next leaves v x) (hclk : eval v r.clock ≠ 0) (hrst : eval v r.reset = 0) {loc e : Expr}
    {w : Nat} (hc : .connect loc (.mux InstrReset.metaReset (.uintLit 0 w) e .unknown) ∈ leaves)
    (hs : loc.sig = [r.name]) (hv : v ["metaReset"] = 1) : x = 0 := by
  unfold DefRegister.Next at h
  rw [if_neg hclk, hrst, if_neg (by decide)] at h
  rw [h.1 loc _ hc hs]
  have h1 : eval v InstrReset.metaReset = 1 := by
    simp [InstrReset.metaReset, eval, hv, GType.clip]
  simp [eval, h1]

section Edge

variable {cfg : Config} {C C' : Circuit} (hL : LowForm C) (hex : execute cfg C = some C')
  (hf : Fresh C')

include hex

/-- **A high reset at the top is high everywhere**, whatever the halts are. -/
theorem metaReset_one {st : State} {V : Valuation} (h : C'.Settled st V)
    (htop : V [] ["metaReset"] = 1) {p : Path} {m : Module} (hp : C.Inst p (.module m)) :
    V p ["metaReset"] = 1 := by
  generalize hd : DefModule.module m = d at hp
  induction hp generalizing m with
  | top => exact htop
  | @sub p m₀ i d₀ hp hi hfi ih =>
      subst hd
      rw [metaReset_child hex h hp hi hfi]
      have h1 : eval (V p) InstrReset.metaReset = 1 := by
        simp [InstrReset.metaReset, eval, ih rfl, GType.clip]
      exact if_pos (.inl h1)

include hL hf

/-- The registers that are cleared: the old ones, and the sticky register. -/
theorem cleared {st st' : State} {V : Valuation} (hcl : Clearable C)
    (hr : ResetCycle C C' st V st') {p : Path} {m mm : Module} (hp : C.Inst p (.module m))
    (hp' : C'.Inst p (.module mm)) (P : Parts cfg C m mm) {r : DefRegister} (hrm : r ∈ mm.regs)
    (hold : r ∈ m.regs ∨ r.name = m.name ++ "_metaAssert") : st'.reg p r.name = 0 := by
  have hfm := hf mm hp'.mem
  have hone := metaReset_one hex hr.settled hr.reset hp
  have hn := hr.next.reg p mm hp' r hrm
  have hclk := hr.ticks p mm hp' r hrm
  -- it is enough that the reset pass knows the register and something is connected to it
  have known : r ∈ P.regs → eval (V p) r.reset = 0 →
      (∃ loc e, .connect loc e ∈ P.old ∧ loc.serialize = some r.name ∧ loc.sig = [r.name]) →
      st'.reg p r.name = 0 := by
    intro hreg hrst ⟨loc, e, hs, hser, hsig⟩
    obtain ⟨w, hw⟩ := P.mem_leaves_of_reg hs hreg hser
    exact next_of_muxed hn hclk hrst hw hsig hone
  have user : r ∈ m.regs → st'.reg p r.name = 0 := by
    intro hu
    obtain ⟨hrst, loc, e, hs, hsig⟩ := hcl m hp.mem r hu
    refine known (List.mem_append_left _ ((P.mem_info_regs (hL.inst hp).nodup).mpr hu)) ?_ ?_
    · rcases hrst with ha | h0
      · exact hr.async p m hp r hu ha
      · rw [h0]
        rfl
    · obtain ⟨t, rfl⟩ := ref_of_sig ((hL.inst hp).locations loc e hs) hsig
      exact ⟨_, e, P.mem_old.mpr (.inl hs), rfl, rfl⟩
  rcases hold with hu | hname
  · exact user hu
  · have hs := (P.mem_leaves_iff (by intro _ _ h; cases h)).mp (Module.mem_regs.mp hrm)
    rcases P.mem_old.mp hs with hs | hs | hs
    · exact user (Module.mem_regs.mpr hs)
    · -- the registers of the coverage pass have other names
      rcases P.cov_reg hs with h | h
      · rw [h, String.append_right_inj] at hname
        exact absurd hname (by decide)
      · rw [h, String.append_right_inj] at hname
        exact absurd hname (by decide)
    · rcases P.asserts_cases with ⟨_, _, hno⟩ | ⟨_, _, _, _, hno⟩ | ⟨_, _, _, hreg, _, hcon, _, hr'⟩
      · exact absurd hs (hno r)
      · exact absurd hs (hno r)
      · cases hr' r hs
        exact known hreg rfl ⟨_, _, P.mem_old.mpr (.inr (.inr hcon)), rfl, rfl⟩

/-- **`metaReset` clears the whole design in one cycle.** At the clock edge of a cycle with
    `metaReset` high at the top, in every instance every register the circuit had and every
    sticky assertion register becomes 0; and the state registers, sum registers and coverage maps
    take the values they take in any other cycle, with `metaReset` low in particular, that starts
    from the same registers and memories of the circuit and the same coverage, on the same
    inputs. -/
theorem metaReset_clears (hdet : C.Combinational) (hcl : Clearable C) {st st' : State}
    {V : Valuation} (hr : ResetCycle C C' st V st') :
    (∀ p m mm, C.Inst p (.module m) → C'.Inst p (.module mm) → ∀ r ∈ mm.regs,
      r ∈ m.regs ∨ r.name = m.name ++ "_metaAssert" → st'.reg p r.name = 0) ∧
    ∀ st₀ W st₀', C'.Settled st₀ W → C'.Next st₀ W st₀' → State.Agree C st st₀ →
      CovAgree cfg C st st₀ → (∀ p s, C.TopInput p s → V p s = W p s) →
      CovAgree cfg C st' st₀' := by
  refine ⟨fun p m mm hp hp' r hrm hold => ?_, fun st₀ W st₀' hW hnW hst hcov hin p m c hp hc hmap => ?_⟩
  · obtain ⟨m', hp₁, ⟨P⟩⟩ := parts_of_inst' hex hp'
    cases hp₁.unique hL.distinctInsts hp
    exact cleared hL hex hf hcl hr hp hp' P hrm hold
  · obtain ⟨mm, hp', ⟨P⟩⟩ := parts_of_inst hex hp
    have heq := hcov p m c hp hc hmap
    rw [P.covOf_eq] at hc
    cases hc
    -- the signals of the circuit are the same, since they do not depend on the reset
    have hVW : ∀ s, IsSig C m s → V p s = W p s := fun s hs =>
      (hdet p m s hp hs).eq (settled_of_instrumented hL hex hf hr.settled)
        (settled_of_instrumented hL hex hf hW) hst hin
    obtain ⟨hclk, hsz⟩ := Bool.and_eq_true_iff.mp hmap
    obtain ⟨clk, hclk⟩ := Option.isSome_iff_exists.mp hclk
    have hsz : P.c.regStateSize ≠ 0 := by simpa using hsz
    obtain ⟨stc, _, he⟩ := P.cov_eq hclk hsz
    have hreg : P.c.regState clk ∈ mm.regs := Module.mem_regs.mpr
      (P.mem_leaves_of_cov hL hp.mem (hf mm hp'.mem) (by simp [he]))
    exact P.covEq_next hL hp.mem (hf mm hp'.mem) hp' hr.settled hW hVW hclk hsz hr.next hnW
      (hr.ticks p mm hp' _ hreg) heq

end Edge

namespace Demo

theorem clearable : Clearable circuit := by
  intro m hm r hr
  rcases List.mem_pair.mp hm with h | h <;> cases h
  · cases List.mem_singleton.mp (show r ∈ [reg] from hr)
    refine ⟨.inr rfl, bit "r", hold, ?_, rfl⟩
    show _ ∈ leaf.body
    simp [leaf]
  · cases hr

theorem resetCycle (t : Nat) : ResetCycle circuit result (state 1 t) (val 1 t) (state 1 (t + 1)) where
  settled := settled (.inr rfl) t
  next := next (.inr rfl) t
  reset := rfl
  ticks p mm hp r hr := by
    have hclk : r.clock = .ref "clock" .clock := by
      rcases inst_result hp with ⟨rfl, rfl⟩ | ⟨_, rfl⟩
      · cases List.mem_singleton.mp (show r ∈ [InstrAssert.assertReg top] from hr)
        rfl
      · rw [regs_leaf] at hr
        simp only [List.mem_cons, List.not_mem_nil, or_false] at hr
        rcases hr with rfl | rfl | rfl | rfl <;> rfl
    have h1 : eval (val 1 t p) (.ref "clock" .clock) = 1 := by
      rcases inst_result hp with ⟨rfl, rfl⟩ | ⟨rfl | rfl, rfl⟩ <;> rfl
    rw [hclk, h1]
    decide
  async p m hp r hr h := by
    rcases inst_circuit hp with ⟨rfl, rfl⟩ | ⟨_, rfl⟩
    · cases hr
    · cases List.mem_singleton.mp (show r ∈ [reg] from hr)
      cases h

theorem inst_low_result : result.Inst ["low"] (.module instrumentedLeaf) :=
  .sub (i := low) (.top rfl) (by decide) rfl

theorem inst_high_result : result.Inst ["high"] (.module instrumentedLeaf) :=
  .sub (i := high) (.top rfl) (by decide) rfl

end Demo

/-- The reset clears the register of `high`, and the assertion of `low` that failed in the first
    cycle; the coverage of both goes on as without it. -/
theorem metaReset_clears_demo :
    Demo.val 1 0 ["low"] ["stopEn0"] = 1 ∧ (Demo.state 0 1).reg ["low"] "Leaf_metaAssert" = 1 ∧
    (Demo.state 1 1).reg ["low"] "Leaf_metaAssert" = 0 ∧
    (Demo.state 0 1).reg ["high"] "r" = 1 ∧ (Demo.state 1 1).reg ["high"] "r" = 0 ∧
    CovAgree Demo.config Demo.circuit (Demo.state 1 1) (Demo.state 0 1) := by
  have h := metaReset_clears Demo.lowForm Demo.execute_eq Demo.fresh Demo.combinational
    Demo.clearable (Demo.resetCycle 0)
  refine ⟨rfl, rfl, ?_, rfl, ?_, ?_⟩
  · refine h.1 ["low"] Demo.leaf Demo.instrumentedLeaf Demo.inst_low Demo.inst_low_result
      (InstrAssert.assertReg Demo.leaf) ?_ (.inr rfl)
    simp [Demo.regs_leaf]
  · refine h.1 ["high"] Demo.leaf Demo.instrumentedLeaf Demo.inst_high Demo.inst_high_result
      Demo.reg ?_ (.inl (List.mem_singleton_self _))
    simp [Demo.regs_leaf]
  · refine h.2 (Demo.state 0 0) (Demo.val 0 0) _ (Demo.settled (.inl rfl) 0) (Demo.next (.inl rfl) 0)
      ⟨fun p m hp r hr => ?_, fun p m hp d hd => ?_⟩ (fun p m c hp hc hmap => ?_) fun p s hs => ?_
    · rcases Demo.inst_circuit hp with ⟨rfl, rfl⟩ | ⟨hpath, rfl⟩
      · cases hr
      · cases List.mem_singleton.mp (show r ∈ [Demo.reg] from hr)
        rcases hpath with rfl | rfl <;> rfl
    · exact absurd hd (Demo.no_mem hp d)
    · rcases Demo.inst_circuit hp with ⟨rfl, rfl⟩ | ⟨hpath, rfl⟩
      · have hcov : covOf Demo.config Demo.circuit Demo.top = some Demo.topPass := by decide
        rw [hcov] at hc
        cases hc
        cases hmap
      · have hcov : covOf Demo.config Demo.circuit Demo.leaf = some Demo.pass := by decide
        rw [hcov] at hc
        cases hc
        rcases hpath with rfl | rfl <;> exact ⟨rfl, rfl, rfl⟩
    · obtain ⟨rfl, m, q, hm, hq, _, rfl⟩ := hs
      cases Option.some.inj hm
      rcases List.mem_pair.mp (show q ∈ Demo.ports from hq) with rfl | rfl <;> rfl

end Difuzz.Coverage
