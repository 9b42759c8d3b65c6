/-
  File:      DifuzzRtl/Coverage/Names.lean
  Subject:   The names the passes declare, and when they are new.

  The passes make names by appending texts and numbers to the names of the module, its registers
  and its instances, without asking whether the module has the name already.

  * `generatedNames` -- all names that are declared for a module, by family, from the module and
    its analysis record.
  * `Parts.declared_perm` -- the instrumented module declares the names of the module and these.
  * `generatedNames_nodup` -- among themselves the generated names differ, unless the module is
    called `io`, or the module declares one of them.
  * `fresh_iff` -- so the declarations stay unique exactly when no module is called `io` and no
    module declares a name that is generated for it.
-/
import DifuzzRtl.Coverage.MetaAssert
import DifuzzRtl.Coverage.Ports
import DifuzzRtl.Lib.Names

namespace Difuzz.Coverage

open Firrtl

/-! ## 1. The generated names -/

namespace Selection

variable (mInfo : ModuleInfo) (maxStateSize : Nat) (σ : SetOrder)

/-- The vector registers that get an offset: the elements of the groups that the map keeps. -/
def trackedVecRegs : List DefRegister :=
  (vectorRegs mInfo maxStateSize).filter fun r =>
    (firstVecRegs mInfo maxStateSize σ).entries.any fun g =>
      (List.range g.1.2).any fun i => g.2.any fun r₀ => r.name = elementName g i r₀

/-- The bits that would be tracked in a state word of any width. -/
def stateBits : Nat :=
  ((optRegs mInfo maxStateSize σ ++ σ.toSeq (firstVecSet mInfo maxStateSize σ)).map regWidth).sum +
  (unCoveredCtrlSigs mInfo maxStateSize σ).length

/-- The wires of the tracked selects. -/
def condNames : List String :=
  (List.range (unCoveredCtrlSigs mInfo maxStateSize σ).length).map fun k =>
    "mux_cond_" ++ toString k

/-- The tracked signals, by name. -/
def signalNames : List String :=
  (optRegs mInfo maxStateSize σ ++ trackedVecRegs mInfo maxStateSize σ).map (·.name) ++
  condNames mInfo maxStateSize σ

end Selection

section Generated

open Selection

variable (cfg : Config) (C : Circuit) (m : Module) (info : ModuleInfo)

/-- The module gets a state word: it has a clock, and there is something to track. -/
def hasState : Bool :=
  (InstrCov.clockName m).isSome &&
    decide (min (stateBits info cfg.maxStateSize cfg.order) cfg.maxStateSize ≠ 0)

/-- The families that every module gets. -/
def commonFamilies : List (List String) :=
  let operands := m.stops.length + m.insts.length
  [["io_covSum", m.name ++ "_covSum"],
   "metaAssert" :: (if Clocked m ∧ operands ≠ 0 then [m.name ++ "_metaAssert"] else []),
   ["metaReset"],
   m.insts.map InstrReset.haltName,
   m.insts.map InstrAssert.wireName,
   (m.insts.filter fun i => i.module ∉ extModules C).map fun i => i.name ++ "_sum",
   (List.range m.stops.length).map InstrAssert.stopEnName,
   (treeIds operands operands 0).map fun k => m.name ++ "_or" ++ toString k]

/-- The families of the state word. -/
def stateFamilies : List (List String) :=
  let names := signalNames info cfg.maxStateSize cfg.order
  [[m.name ++ "_state"], [m.name ++ "_cov"],
   condNames info cfg.maxStateSize cfg.order,
   names.map fun n => n ++ "_shl",
   names.map fun n => n ++ "_pad",
   (treeIds names.length names.length 0).map fun k => m.name ++ "_xor" ++ toString k]

/-- **All names that the passes declare** for a module with this analysis record. -/
def generatedNames : List String :=
  (commonFamilies C m ++ if hasState cfg m info then stateFamilies cfg m info else []).flatten

end Generated

/-! ## 2. The tracked signals -/

section Tracked

open Selection

variable {σ : SetOrder} {mInfo : ModuleInfo} {maxStateSize : Nat}

theorem mem_trackedVecRegs {r : DefRegister} : r ∈ trackedVecRegs mInfo maxStateSize σ ↔
    r ∈ vectorRegs mInfo maxStateSize ∧ ∃ g, Kept mInfo maxStateSize σ g ∧
      ∃ i < g.1.2, ∃ r₀ ∈ g.2, r.name = elementName g i r₀ := by
  unfold trackedVecRegs
  simp only [List.mem_filter, List.any_eq_true, List.mem_range, decide_eq_true_eq, mem_firstVecRegs]

/-- **What the constructor tracks**: the width of the state word, and, when there is one, the
    signals with an offset. -/
theorem new_state {d : DefModule} (hinfo : ModuleInfo.ofModule σ d = some mInfo) {rnd : Nat → Nat}
    {mName : String} {extModules : List String} {covSumSize : Nat} {c : InstrCov}
    (hc : InstrCov.new σ mInfo maxStateSize rnd mName extModules covSumSize = some c) :
    c.regStateSize = min (stateBits mInfo maxStateSize σ) maxStateSize ∧
    (c.regStateSize ≠ 0 → ∃ vecs : List CtrlNode,
      c.nodes = (optRegs mInfo maxStateSize σ).map .reg ++
        (unCoveredCtrlSigs mInfo maxStateSize σ).map .expr ++ vecs ∧
      vecs.Nodup ∧ ∀ n, n ∈ vecs ↔ ∃ r ∈ trackedVecRegs mInfo maxStateSize σ, n = .reg r) := by
  unfold InstrCov.new at hc
  split at hc
  · simp only [Option.bind_eq_bind, Option.bind_eq_some_iff, Option.pure_def,
      Option.some.injEq] at hc
    obtain ⟨⟨tot, st, offs⟩, hoffs, names, hnames, vecs, hvecs, rfl⟩ := hc
    obtain ⟨hst, hoffs⟩ := getRegState_spec hoffs
    refine ⟨hst, fun hne => ⟨(σ.toSeq vecs).map (·.1), ?_, ?_, fun n => ?_⟩⟩
    · have hbits : stateBits mInfo maxStateSize σ ≠ 0 := by
        intro h0
        have : st = min (stateBits mInfo maxStateSize σ) maxStateSize := hst
        rw [h0, Nat.zero_min] at this
        exact hne this
      unfold stateBits at hbits
      rw [if_neg hbits] at hoffs
      -- first elements are dropped from the list of `getRegState`, nothing else is
      let isFirst : CtrlNode → Bool := firstNode (firstVecSet mInfo maxStateSize σ)
      have hfilter : (offs.filter fun t => !isFirst t.1).map (·.1) =
          (offs.map (·.1)).filter fun n => !isFirst n := by
        rw [List.filter_map]
        rfl
      have hopt : ((optRegs mInfo maxStateSize σ).map CtrlNode.reg).filter (fun n => !isFirst n) =
          (optRegs mInfo maxStateSize σ).map CtrlNode.reg := by
        refine List.filter_eq_self.mpr fun n hn => ?_
        obtain ⟨r, hr, rfl⟩ := List.mem_map.mp hn
        have hr := (SetOrder.mem_toSeq σ).mp (List.mem_filter.mp hr).1
        have hno : r ∉ firstVecSet mInfo maxStateSize σ := fun h =>
          scalaRegs_not_vector hr (firstVecSet_vectorRegs r h)
        simp [isFirst, firstNode, hno]
      have hvec : ((σ.toSeq (firstVecSet mInfo maxStateSize σ)).map CtrlNode.reg).filter
          (fun n => !isFirst n) = [] := by
        refine List.filter_eq_nil_iff.mpr fun n hn => ?_
        obtain ⟨r, hr, rfl⟩ := List.mem_map.mp hn
        simp [isFirst, firstNode, (SetOrder.mem_toSeq σ).mp hr]
      have hexpr : ((unCoveredCtrlSigs mInfo maxStateSize σ).map CtrlNode.expr).filter
          (fun n => !isFirst n) = (unCoveredCtrlSigs mInfo maxStateSize σ).map CtrlNode.expr := by
        refine List.filter_eq_self.mpr fun n hn => ?_
        obtain ⟨e, _, rfl⟩ := List.mem_map.mp hn
        rfl
      show ((offs.filter fun t => !isFirst t.1) ++ σ.toSeq vecs).map (·.1) = _
      rw [List.map_append, hfilter, hoffs, List.map_append, List.filter_append, List.filter_append,
        hopt, hvec, hexpr, List.append_nil]
    · have hperm : ((σ.toSeq vecs).map (·.1)).Perm (vecs.map (·.1)) := (σ.perm vecs).map _
      refine hperm.nodup_iff.mpr ?_
      unfold vectorOffsets at hvecs
      rw [Option.map_eq_some_iff] at hvecs
      obtain ⟨l, _, rfl⟩ := hvecs
      exact (Dict.ofList_keys l).1
    · have hmem : n ∈ (σ.toSeq vecs).map (·.1) ↔ n ∈ vecs.map (·.1) :=
        ((σ.perm vecs).map _).mem_iff
      rw [hmem, mem_vectorOffsets hvecs]
      refine ⟨fun h => ?_, fun h => ?_⟩
      · obtain ⟨r, rfl, x, hx, hr⟩ := h
        have hn : r.name = x := by simpa using List.find?_some hr
        refine ⟨r, mem_trackedVecRegs.mpr ⟨List.mem_of_find?_eq_some hr, ?_⟩, rfl⟩
        rw [hn]
        exact (mem_vecNameOffsets hnames).mp hx
      · obtain ⟨r, hr, rfl⟩ := h
        obtain ⟨hv, hx⟩ := mem_trackedVecRegs.mp hr
        refine ⟨r, rfl, r.name, (mem_vecNameOffsets hnames).mpr hx, ?_⟩
        -- the register found under the name is the register
        cases hfind : (vectorRegs mInfo maxStateSize).find? (fun r' => r'.name == r.name) with
        | none =>
            have := List.find?_eq_none.mp hfind r hv
            simp at this
        | some r' =>
            have hn : r'.name = r.name := by simpa using List.find?_some hfind
            have hc₁ := (mem_smallRegs.mp (vectorRegs_small (List.mem_of_find?_eq_some hfind))).1
            have hc₂ := (mem_smallRegs.mp (vectorRegs_small hv)).1
            rw [ctrlRegs_inj hinfo hc₁ hc₂ hn]
  · cases hc

end Tracked

/-! ## 3. What each part declares -/

/-- The wiring declares one wire for each inner vertex of its tree. -/
theorem reduceTree_decls {op : PrimOp} {width : Nat} {wire : Nat → String} {fuel : Nat}
    {refs : List Expr} {id : Nat} {r : Expr} {ss : List Stmt}
    (h : reduceTree op width wire fuel refs id = some (r, ss)) {k : Nat} (hk : refs.length ≤ k) :
    ss.filterMap Stmt.declName = (treeIds k refs.length id).map wire := by
  revert k
  refine reduceTree_ind (P := fun refs id _ ss => ∀ {k : Nat}, refs.length ≤ k →
    ss.filterMap Stmt.declName = (treeIds k refs.length id).map wire) ?_ ?_ ?_ h
  · intro r id k hk
    cases k with
    | zero => cases hk
    | succ k => rfl
  · intro a b id k hk
    cases k with
    | zero => cases hk
    | succ k => rfl
  · intro refs id r₁ s₁ r₂ s₂ hlen ih₁ ih₂ k hk
    cases k with
    | zero => omega
    | succ k =>
        have hl₁ : (refs.take (refs.length / 2)).length = refs.length / 2 := by
          rw [List.length_take]
          omega
        have hl₂ : (refs.drop (refs.length / 2)).length = refs.length - refs.length / 2 :=
          List.length_drop ..
        have h₁ := ih₁ (k := k) (by omega)
        have h₂ := ih₂ (k := k) (by omega)
        rw [hl₁] at h₁
        rw [hl₂] at h₂
        have hone : ¬ refs.length ≤ 1 := by omega
        have htwo : ¬ refs.length = 2 := by omega
        unfold treeIds
        rw [if_neg hone, if_neg htwo, List.filterMap_append, List.filterMap_append, h₁, h₂,
          List.map_append, List.map_append]
        rfl

namespace InstrCov

variable (c : InstrCov)

theorem makeSum_decls (insts : List WDefInstance) (e : Expr) :
    (c.makeSum insts e).filterMap Stmt.declName = insts.map fun i => i.name ++ "_sum" := by
  induction insts generalizing e with
  | nil => rfl
  | cons i insts ih =>
      show (i.name ++ "_sum") :: (c.makeSum insts _).filterMap Stmt.declName = _
      rw [ih]
      rfl

/-- The name that a tracked signal goes by. -/
def nodeName : CtrlNode → String
  | .reg r => r.name
  | .expr e => (c.tmpWires.get? e).getD ""

/-- The offset logic declares two wires for each tracked signal. -/
theorem offset_decls {offs : List (CtrlNode × Nat)} {l : List (Expr × List Stmt)}
    (h : offs.mapM (fun t => (c.ctrlOf t.1).map fun x =>
      (Expr.ref (x.1 ++ "_pad") (.uint c.regStateSize), c.offsetStmts x.1 x.2.1 x.2.2 t.2)) =
        some l) :
    l.length = offs.length ∧ (l.flatMap (·.2)).filterMap Stmt.declName =
      (offs.map fun t => c.nodeName t.1).flatMap fun n => [n ++ "_shl", n ++ "_pad"] := by
  have hl := forall₂_of_mapM h
  clear h
  induction hl with
  | nil => exact ⟨rfl, rfl⟩
  | @cons t y offs l ht _ ih =>
      rw [Option.map_eq_some_iff] at ht
      obtain ⟨x, hx, rfl⟩ := ht
      have hname : x.1 = c.nodeName t.1 := by
        cases hn : t.1 with
        | reg r =>
            rw [hn] at hx
            simp only [ctrlOf, Option.map_eq_some_iff] at hx
            obtain ⟨w, _, rfl⟩ := hx
            rfl
        | expr e =>
            rw [hn] at hx
            simp only [ctrlOf, Option.map_eq_some_iff] at hx
            obtain ⟨n, hn', rfl⟩ := hx
            simp only [nodeName, hn', Option.getD_some]
      refine ⟨by simp only [List.length_cons, ih.1], ?_⟩
      rw [List.flatMap_cons, List.filterMap_append, ih.2, List.map_cons, List.flatMap_cons, ← hname]
      rfl

/-- The tracked selects, in the order of their offsets. -/
theorem tmpStmts_decls {es : List Expr} (h : (c.allOffsets.filterMap fun t =>
      match t.1 with | .expr e => some e | .reg _ => none) = es) :
    c.tmpStmts.filterMap Stmt.declName =
      (List.range es.length).map fun k => "mux_cond_" ++ toString k := by
  have hflat : ∀ l : List (Expr × Nat), (l.flatMap fun x =>
      [Stmt.defWire ("mux_cond_" ++ toString x.2) (.uint 1),
       .connect (.ref ("mux_cond_" ++ toString x.2) (.uint 1)) x.1]).filterMap Stmt.declName =
      (l.map (·.2)).map fun k => "mux_cond_" ++ toString k := by
    intro l
    induction l with
    | nil => rfl
    | cons x l ih =>
        rw [List.flatMap_cons, List.filterMap_append, ih]
        rfl
  unfold tmpStmts
  rw [← h]
  refine (hflat _).trans ?_
  exact congrArg (List.map _) ((List.zipIdx_map_snd _ _).trans List.range_eq_range'.symm)

/-- Each tracked select goes by its own wire. -/
theorem nodeName_selects {es : List Expr} (h : (c.allOffsets.filterMap fun t =>
      match t.1 with | .expr e => some e | .reg _ => none) = es) (hnd : es.Nodup) :
    (es.map fun e => c.nodeName (.expr e)) =
      (List.range es.length).map fun k => "mux_cond_" ++ toString k := by
  have hwires : c.tmpWires = Dict.ofList (es.zipIdx.map fun x => (x.1, "mux_cond_" ++ toString x.2)) := by
    rw [← h]
    rfl
  have hkeys : ((es.zipIdx.map fun x => (x.1, "mux_cond_" ++ toString x.2)).map (·.1)) = es := by
    rw [List.map_map]
    exact List.zipIdx_map_fst 0 es
  refine List.ext_getElem (by simp) fun k h₁ h₂ => ?_
  have hk : k < es.length := by simpa using h₁
  have hmem : (es[k], "mux_cond_" ++ toString k) ∈
      es.zipIdx.map fun x => (x.1, "mux_cond_" ++ toString x.2) :=
    List.mem_map.mpr ⟨(es[k], k), List.mem_zipIdx_iff_getElem?.mpr (List.getElem?_eq_getElem hk), rfl⟩
  have hget : c.tmpWires.get? es[k] = some ("mux_cond_" ++ toString k) := by
    rw [hwires]
    unfold Dict.get?
    rw [Dict.ofList_entries (by rw [hkeys]; exact hnd)]
    exact Dict.lookup_of_mem (by rw [hkeys]; exact hnd) hmem
  simp only [List.getElem_map, List.getElem_range, nodeName, hget, Option.getD_some]

end InstrCov

namespace Parts

open Selection

variable {cfg : Config} {C : Circuit} {m mm : Module} (P : Parts cfg C m mm)

/-- The record has the instances of the module, in another order. -/
theorem info_insts_perm (hm : m.declared.Nodup) : P.info.insts.Perm m.insts := by
  refine (List.perm_ext_iff_of_nodup P.info_insts_nodup ?_).mpr fun i => P.mem_info_insts
  exact List.Nodup.of_map WDefInstance.name (Module.insts_names_nodup hm)

theorem c_insts_perm (hm : m.declared.Nodup) :
    P.c.insts.Perm (m.insts.filter fun i => i.module ∉ extModules C) := by
  rw [(InstrCov.new_eq_some P.hc).2.2.1]
  exact (cfg.order.perm _).trans ((P.info_insts_perm hm).filter _)

/-- What the assertion pass declares. -/
theorem asserts_decls (hm : m.declared.Nodup) : (P.asserts.filterMap Stmt.declName).Perm
    ((List.range m.stops.length).map InstrAssert.stopEnName ++ m.insts.map InstrAssert.wireName ++
      (treeIds (m.stops.length + m.insts.length) (m.stops.length + m.insts.length) 0).map
        (fun k => m.name ++ "_or" ++ toString k) ++
      if Clocked m ∧ m.stops.length + m.insts.length ≠ 0 then [m.name ++ "_metaAssert"] else []) := by
  have hstops := P.stops_covModule
  have hinsts := P.info_insts_perm hm
  have hclocked : InstrAssert.hasClockReset (covModule m P.c P.cov) = true ↔ Clocked m :=
    hasClockReset_iff.trans clocked_covModule
  have hlen : (InstrAssert.orRefs cfg.order P.info.insts (covModule m P.c P.cov)).length =
      m.stops.length + m.insts.length := by
    unfold InstrAssert.orRefs InstrAssert.stopEns
    rw [hstops, List.length_append, List.length_map, List.length_map, List.length_zipIdx,
      (cfg.order.perm _).length_eq, List.length_map, hinsts.length_eq]
  -- the enables
  have hens : ((InstrAssert.stopEns (covModule m P.c P.cov)).map fun x =>
      Stmt.defNode x.1 x.2).filterMap Stmt.declName =
      (List.range m.stops.length).map InstrAssert.stopEnName := by
    unfold InstrAssert.stopEns
    rw [hstops, List.map_map, List.filterMap_map, List.range_eq_range', ← List.zipIdx_map_snd,
      List.map_map, ← List.filterMap_eq_map]
    rfl
  -- the wires of the instances
  have hwires : ((cfg.order.toSeq (P.info.insts.map fun i =>
      Stmt.defWire (InstrAssert.wireName i) (.uint 1))).filterMap Stmt.declName).Perm
      (m.insts.map InstrAssert.wireName) := by
    refine ((cfg.order.perm _).filterMap _).trans ?_
    rw [List.filterMap_map]
    refine List.Perm.trans (List.Perm.of_eq ?_) (hinsts.map InstrAssert.wireName)
    rw [← List.filterMap_eq_map]
    rfl
  have hcons : ((cfg.order.toSeq (P.info.insts.map fun i => Stmt.connect
      (.ref (InstrAssert.wireName i) (.uint 1))
      (.subField (.ref i.name .unknown) "metaAssert" .unknown)))).filterMap Stmt.declName = [] := by
    refine List.filterMap_eq_nil_iff.mpr fun s hs => ?_
    obtain ⟨i, _, rfl⟩ := List.mem_map.mp ((SetOrder.mem_toSeq _).mp hs)
    rfl
  -- the OR and the register
  have hor : (InstrAssert.makeOr m.name
        (InstrAssert.orRefs cfg.order P.info.insts (covModule m P.c P.cov)) 0).2.filterMap
          Stmt.declName =
      (treeIds (m.stops.length + m.insts.length) (m.stops.length + m.insts.length) 0).map
        (fun k => m.name ++ "_or" ++ toString k) ∧
      (InstrAssert.conStmts cfg.order P.info.insts (covModule m P.c P.cov)).filterMap Stmt.declName =
      if Clocked m ∧ m.stops.length + m.insts.length ≠ 0 then [m.name ++ "_metaAssert"] else [] := by
    have hname : (covModule m P.c P.cov).name = m.name := rfl
    unfold InstrAssert.conStmts
    rw [hname]
    generalize InstrAssert.orRefs cfg.order P.info.insts (covModule m P.c P.cov) = refs at hlen
    by_cases h0 : refs = []
    · subst h0
      rw [← hlen, if_neg fun h => h.2 rfl]
      exact ⟨rfl, rfl⟩
    · have hpos : m.stops.length + m.insts.length ≠ 0 := by
        rw [← hlen]
        exact fun h => h0 (List.length_eq_zero_iff.mp h)
      obtain ⟨r, ss, hr⟩ := reduceTree_isSome .or 1 (fun i => m.name ++ "_or" ++ toString i) 0 h0
        (Nat.le_refl _)
      unfold InstrAssert.makeOr
      rw [hr]
      refine ⟨by rw [← hlen]; exact reduceTree_decls hr (Nat.le_refl _), ?_⟩
      by_cases hc : Clocked m
      · simp only [hclocked.mpr hc, if_true, if_pos (And.intro hc hpos)]
        rfl
      · have hcr : InstrAssert.hasClockReset (covModule m P.c P.cov) = false :=
          Bool.eq_false_iff.mpr fun h => hc (hclocked.mp h)
        simp only [hcr, hc, false_and, Bool.false_eq_true, if_false]
        rfl
  show ((_ ++ _ ++ _ ++ _ ++ _ : List Stmt).filterMap Stmt.declName).Perm _
  rw [List.filterMap_append, List.filterMap_append, List.filterMap_append, List.filterMap_append,
    hens, hcons, List.append_nil]
  refine List.Perm.append (List.Perm.append (List.Perm.append_left _ hwires) ?_) ?_
  · exact List.Perm.of_eq hor.1
  · exact List.Perm.of_eq hor.2

theorem trackedVecRegs_nodup : (trackedVecRegs P.info cfg.maxStateSize cfg.order).Nodup :=
  (((ctrlRegs_nodup P.hinfo).filter _).filter _ |>.filter _).filter _

theorem unCoveredCtrlSigs_nodup : (unCoveredCtrlSigs P.info cfg.maxStateSize cfg.order).Nodup :=
  (SetOrder.nodup_toSeq _ (List.nodup_dedup _)).filter _

/-- The tracked signals go by the names that the selection gives. -/
theorem nodeNames_perm (hsz : P.c.regStateSize ≠ 0) :
    (P.c.nodes.map P.c.nodeName).Perm (signalNames P.info cfg.maxStateSize cfg.order) ∧
    P.c.tmpStmts.filterMap Stmt.declName = condNames P.info cfg.maxStateSize cfg.order := by
  obtain ⟨vecs, hnodes, hnd, hvecs⟩ := (new_state P.hinfo P.hc).2 hsz
  have hvecs : vecs.Perm ((trackedVecRegs P.info cfg.maxStateSize cfg.order).map .reg) := by
    have hnd' := P.trackedVecRegs_nodup.map (f := CtrlNode.reg) fun r r' e => by cases e; rfl
    refine (List.perm_ext_iff_of_nodup hnd hnd').mpr fun n => ?_
    rw [hvecs, List.mem_map]
    exact ⟨fun ⟨r, hr, e⟩ => ⟨r, hr, e.symm⟩, fun ⟨r, hr, e⟩ => ⟨r, hr, e.symm⟩⟩
  -- the selects among the nodes
  have hexprs : (P.c.allOffsets.filterMap fun t =>
      match t.1 with | .expr e => some e | .reg _ => none) =
      unCoveredCtrlSigs P.info cfg.maxStateSize cfg.order := by
    let sel : CtrlNode → Option Expr := fun n => match n with | .expr e => some e | .reg _ => none
    have hregs : ∀ ns : List CtrlNode, (∀ n ∈ ns, ∃ r, n = .reg r) → ns.filterMap sel = [] := by
      intro ns h
      refine List.filterMap_eq_nil_iff.mpr fun n hn => ?_
      obtain ⟨r, rfl⟩ := h n hn
      rfl
    have hopt := hregs ((optRegs P.info cfg.maxStateSize cfg.order).map .reg) fun n hn => by
      obtain ⟨r, _, rfl⟩ := List.mem_map.mp hn
      exact ⟨r, rfl⟩
    have hvec := hregs vecs fun n hn => by
      obtain ⟨r, _, rfl⟩ := List.mem_map.mp (hvecs.mem_iff.mp hn)
      exact ⟨r, rfl⟩
    have hsel : ((unCoveredCtrlSigs P.info cfg.maxStateSize cfg.order).map
        CtrlNode.expr).filterMap sel = unCoveredCtrlSigs P.info cfg.maxStateSize cfg.order := by
      rw [List.filterMap_map]
      exact List.filterMap_some
    calc (P.c.allOffsets.filterMap fun t => sel t.1)
        = P.c.nodes.filterMap sel := by
          unfold InstrCov.nodes
          rw [List.filterMap_map]
          rfl
      _ = _ := by
          rw [hnodes, List.filterMap_append, List.filterMap_append, hopt, hvec, hsel,
            List.append_nil, List.nil_append]
  refine ⟨?_, P.c.tmpStmts_decls hexprs⟩
  have hconds := P.c.nodeName_selects hexprs P.unCoveredCtrlSigs_nodup
  have hregs : ∀ rs : List DefRegister,
      (rs.map CtrlNode.reg).map P.c.nodeName = rs.map (·.name) := by
    intro rs
    rw [List.map_map]
    rfl
  unfold signalNames condNames
  rw [hnodes, List.map_append, List.map_append, hregs, List.map_map, List.map_append,
    List.append_assoc, List.append_assoc]
  refine List.Perm.append_left _ (List.perm_append_comm.trans (List.Perm.append ?_ ?_))
  · rw [← hregs]
    exact hvecs.map _
  · exact List.Perm.of_eq hconds

/-- What the coverage pass declares. -/
theorem cov_decls (hm : m.declared.Nodup) : (P.cov.filterMap Stmt.declName).Perm
    ((m.name ++ "_covSum") :: ((m.insts.filter fun i => i.module ∉ extModules C).map fun i =>
        i.name ++ "_sum") ++
      if hasState cfg m P.info then (stateFamilies cfg m P.info).flatten else []) := by
  obtain ⟨hsize, hnodes⟩ := new_state P.hinfo P.hc
  have hsum := (P.c_insts_perm hm).map fun i => i.name ++ "_sum"
  rcases InstrCov.addedStmts_cases P.hcov with ⟨clk, stc, hclk, hsz, hst, hcov⟩ | ⟨hno, hcov⟩
  · have hstate : hasState cfg m P.info = true := by
      unfold hasState
      rw [hclk, ← hsize]
      simpa using hsz
    obtain ⟨hnames, hconds⟩ := P.nodeNames_perm hsz
    simp only [InstrCov.stateConnect, InstrCov.makeOffset, Option.bind_eq_bind,
      Option.bind_eq_some_iff, Option.map_eq_some_iff, Option.pure_def, Option.some.injEq] at hst
    obtain ⟨_, ⟨l, hl, rfl⟩, ⟨top, xors⟩, hx, rfl⟩ := hst
    obtain ⟨hlen, hoffs⟩ := P.c.offset_decls hl
    have hxor := reduceTree_decls hx (Nat.le_refl _)
    have hcount : (l.map (·.1)).length =
        (signalNames P.info cfg.maxStateSize cfg.order).length := by
      rw [List.length_map, hlen, ← hnames.length_eq]
      simp [InstrCov.nodes]
    have hdecls : P.cov.filterMap Stmt.declName =
        [P.c.mName ++ "_state", P.c.mName ++ "_cov", P.c.mName ++ "_covSum"] ++
        (condNames P.info cfg.maxStateSize cfg.order ++
          ((P.c.nodes.map P.c.nodeName).flatMap fun n => [n ++ "_shl", n ++ "_pad"]) ++
          xors.filterMap Stmt.declName) ++ P.c.insts.map fun i => i.name ++ "_sum" := by
      have hnodes : (P.c.allOffsets.map fun t => P.c.nodeName t.1) =
          P.c.nodes.map P.c.nodeName := by
        unfold InstrCov.nodes
        rw [List.map_map]
        rfl
      have hread : (P.c.readConnect clk).filterMap Stmt.declName = [] := rfl
      have hwrite : (P.c.writeConnect clk).filterMap Stmt.declName = [] := rfl
      have hcon : ∀ loc e, [Stmt.connect loc e].filterMap Stmt.declName = [] := fun _ _ => rfl
      rw [hnodes] at hoffs
      rw [hcov]
      simp only [List.filterMap_append, hconds, hoffs, P.c.makeSum_decls, hread, hwrite, hcon,
        List.append_nil]
      rfl
    have hpairs : ((P.c.nodes.map P.c.nodeName).flatMap fun n => [n ++ "_shl", n ++ "_pad"]).Perm
        ((signalNames P.info cfg.maxStateSize cfg.order).map (fun n => n ++ "_shl") ++
          (signalNames P.info cfg.maxStateSize cfg.order).map (fun n => n ++ "_pad")) := by
      refine (hnames.flatMap_right _).trans ?_
      refine (List.map_append_flatMap_perm _ _ _).symm.trans ?_
      rw [List.map_eq_flatMap (f := fun n => n ++ "_pad")]
    rw [hcount] at hxor
    rw [hstate, hdecls, hxor, P.c_mName, if_pos rfl]
    refine List.perm_iff_count.mpr fun a => ?_
    have h₁ := hpairs.count_eq a
    have h₂ := hsum.count_eq a
    simp only [stateFamilies, List.flatten_cons, List.flatten_nil, List.count_append,
      List.count_cons, List.count_nil, List.cons_append, List.nil_append] at h₁ h₂ ⊢
    omega
  · have hstate : hasState cfg m P.info = false := by
      unfold hasState
      rw [← hsize]
      rcases hno with h | h
      · rw [h]
        rfl
      · simp [h]
    rw [hstate, hcov]
    show ((P.c.mName ++ "_covSum") ::
      (P.c.makeSum P.c.insts P.c.covSumRef).filterMap Stmt.declName).Perm _
    rw [P.c.makeSum_decls, P.c_mName]
    simpa using hsum

/-- **The declared names** are those of the module and the generated ones. -/
theorem declared_perm (hm : m.declared.Nodup) :
    mm.declared.Perm (m.declared ++ generatedNames cfg C m P.info) := by
  rw [P.declared_eq]
  refine List.perm_iff_count.mpr fun a => ?_
  have hcov := (P.cov_decls hm).count_eq a
  have hasserts := (P.asserts_decls hm).count_eq a
  have hhalts := ((P.info_insts_perm hm).map InstrReset.haltName).count_eq a
  have hflat : (generatedNames cfg C m P.info).count a =
      (commonFamilies C m).flatten.count a +
      (if hasState cfg m P.info then (stateFamilies cfg m P.info).flatten else []).count a := by
    unfold generatedNames
    cases hasState cfg m P.info <;> simp [List.count_append]
  simp only [commonFamilies, List.flatten_cons, List.flatten_nil, Module.declared,
    List.count_append, List.count_cons, List.cons_append, List.nil_append,
    List.append_nil] at hcov hasserts hhalts hflat ⊢
  omega

end Parts

/-! ## 4. When they are new -/

section Nodup

open Selection

variable {cfg : Config} {C : Circuit} {m : Module} {info : ModuleInfo}

/-- The names of instances with a text appended. -/
theorem family_insts {is : List WDefInstance} (h : (is.map (·.name)).Nodup) {suffix : String}
    (hs : 3 ≤ (suffix.toList.reverse.dropWhile Char.isDigit).length) :
    Family (nameKey suffix) (is.map fun i => i.name ++ suffix) := by
  have hf := family_suffixed hs h
  rw [List.map_map] at hf
  exact hf

/-- The endings of the families of every module. -/
def commonKeys : List (List Char) :=
  ["_covSum", "_metaAssert", "metaReset", "_halt", "_metaAssert_wire", "_sum", "stopEn", "_or"].map
    nameKey

/-- The endings of the families of the state word. -/
def stateKeys : List (List Char) :=
  ["_state", "_cov", "mux_cond_", "_shl", "_pad", "_xor"].map nameKey

theorem commonFamilies_keys (hm : m.declared.Nodup) (hio : m.name ≠ "io") :
    List.Forall₂ Family commonKeys (commonFamilies C m) := by
  have hinsts := Module.insts_names_nodup hm
  have hbelow : ((m.insts.filter fun i => i.module ∉ extModules C).map (·.name)).Nodup :=
    hinsts.sublist (List.filter_sublist.map _)
  have hsum : Family (nameKey "_covSum") ["io_covSum", m.name ++ "_covSum"] := by
    refine ⟨List.nodup_cons.mpr ⟨fun h => hio ?_, List.nodup_singleton _⟩, fun n hn => ?_⟩
    · have he : "io" ++ "_covSum" = m.name ++ "_covSum" := List.mem_singleton.mp h
      exact ((String.append_left_inj "_covSum").mp he).symm
    · rcases List.mem_cons.mp hn with rfl | hn
      · decide
      · rw [List.mem_singleton.mp hn]
        exact nameKey_append _ (by decide)
  have hassert : Family (nameKey "_metaAssert") ("metaAssert" ::
      if Clocked m ∧ m.stops.length + m.insts.length ≠ 0 then [m.name ++ "_metaAssert"] else []) := by
    refine ⟨List.nodup_cons.mpr ⟨fun h => ?_, by split <;> simp⟩, fun n hn => ?_⟩
    · split at h
      · have hlen := congrArg String.length (List.mem_singleton.mp h)
        have hl : "metaAssert".length = 10 ∧ "_metaAssert".length = 11 := by decide
        rw [String.length_append, hl.1, hl.2] at hlen
        omega
      · cases h
    · rcases List.mem_cons.mp hn with rfl | hn
      · decide
      · split at hn
        · rw [List.mem_singleton.mp hn]
          exact nameKey_append _ (by decide)
        · cases hn
  exact .cons hsum (.cons hassert (.cons (family_single rfl) (.cons (family_insts hinsts (by decide))
    (.cons (family_insts hinsts (by decide)) (.cons (family_insts hbelow (by decide))
    (.cons (family_numbered rfl List.nodup_range)
    (.cons (family_numbered (nameKey_append _ (by decide)) (treeIds_nodup ..)) .nil)))))))

theorem stateFamilies_keys (hn : (signalNames info cfg.maxStateSize cfg.order).Nodup) :
    List.Forall₂ Family stateKeys (stateFamilies cfg m info) := by
  exact .cons (family_single (nameKey_append _ (by decide)))
    (.cons (family_single (nameKey_append _ (by decide)))
    (.cons (family_numbered rfl List.nodup_range)
    (.cons (family_suffixed (by decide) hn) (.cons (family_suffixed (by decide) hn)
    (.cons (family_numbered (nameKey_append _ (by decide)) (treeIds_nodup ..)) .nil)))))

section Record

variable (hinfo : ModuleInfo.ofModule cfg.order (.module m) = some info) (hm : m.declared.Nodup)

include hinfo hm

/-- The tracked signals have distinct names, when no register is called like the wire of a
    select. -/
theorem signalNames_nodup
    (h : ∀ n ∈ m.declared, n ∉ condNames info cfg.maxStateSize cfg.order) :
    (signalNames info cfg.maxStateSize cfg.order).Nodup := by
  have hctrl := ctrlRegs_nodup hinfo
  have hsmall : (smallRegs info cfg.maxStateSize).Nodup := (hctrl.filter _).filter _
  have hopt : ∀ r ∈ optRegs info cfg.maxStateSize cfg.order, r ∈ scalaRegs info cfg.maxStateSize :=
    fun r hr => (SetOrder.mem_toSeq _).mp (List.mem_filter.mp hr).1
  have hvec : ∀ r ∈ trackedVecRegs info cfg.maxStateSize cfg.order,
      r ∈ vectorRegs info cfg.maxStateSize := fun r hr => (List.mem_filter.mp hr).1
  have hmem : ∀ r ∈ optRegs info cfg.maxStateSize cfg.order ++
      trackedVecRegs info cfg.maxStateSize cfg.order, r ∈ info.ctrlRegs := by
    intro r hr
    rcases List.mem_append.mp hr with hr | hr
    · exact (mem_smallRegs.mp (scalaRegs_small (hopt r hr))).1
    · exact (mem_smallRegs.mp (vectorRegs_small (hvec r hr))).1
  have hregs : (optRegs info cfg.maxStateSize cfg.order ++
      trackedVecRegs info cfg.maxStateSize cfg.order).Nodup := by
    refine List.nodup_append.mpr ⟨(SetOrder.nodup_toSeq _ (hsmall.filter _)).filter _,
      (hsmall.filter _).filter _, fun r hr r' hr' e => ?_⟩
    subst e
    exact scalaRegs_not_vector (hopt r hr) (hvec r hr')
  refine List.nodup_append.mpr ⟨hregs.map_on fun r hr r' hr' e =>
    ctrlRegs_inj hinfo (hmem r hr) (hmem r' hr') e, nodup_numbered _ List.nodup_range,
    fun n hn n' hn' e => ?_⟩
  subst e
  obtain ⟨r, hr, rfl⟩ := List.mem_map.mp hn
  have hreg := ctrlRegs_regs hinfo hm (hmem r hr)
  refine h r.name (List.mem_append_right _ ?_) hn'
  exact List.mem_filterMap.mpr ⟨_, Module.mem_regs.mp hreg, rfl⟩

/-- **The generated names differ among themselves** when the module is not called `io` and
    declares none of them. -/
theorem generatedNames_nodup (hio : m.name ≠ "io")
    (h : ∀ n ∈ m.declared, n ∉ generatedNames cfg C m info) :
    (generatedNames cfg C m info).Nodup := by
  have hcommon := commonFamilies_keys (C := C) hm hio
  unfold generatedNames at h ⊢
  cases hstate : hasState cfg m info with
  | false =>
      rw [if_neg Bool.false_ne_true, List.append_nil]
      exact nodup_flatten_of_keys hcommon (by decide)
  | true =>
      rw [hstate, if_pos rfl] at h
      rw [if_pos rfl]
      have hconds : ∀ n ∈ m.declared, n ∉ condNames info cfg.maxStateSize cfg.order := by
        intro n hn hc
        refine h n hn (List.mem_flatten.mpr ⟨_, List.mem_append_right _ ?_, hc⟩)
        unfold stateFamilies
        simp
      have hnames := signalNames_nodup hinfo hm hconds
      exact nodup_flatten_of_keys (List.rel_append hcommon (stateFamilies_keys hnames)) (by decide)

end Record

end Nodup

/-- No module is called `io`, and no module declares a name that is generated for it. -/
def NamesFree (cfg : Config) (C : Circuit) : Prop :=
  ∀ m info, .module m ∈ C.modules → ModuleInfo.ofModule cfg.order (.module m) = some info →
    m.name ≠ "io" ∧ ∀ n ∈ m.declared, n ∉ generatedNames cfg C m info

section Fresh

variable {cfg : Config} {C C' : Circuit} (hL : LowForm C) (hex : execute cfg C = some C')

include hL hex

theorem namesFree_of_fresh (hf : Fresh C') : NamesFree cfg C := by
  intro m info hm hinfo
  obtain ⟨mm, hmm, ⟨P⟩⟩ := parts_of_mem hex hm
  have hP : P.info = info := Option.some.inj (P.hinfo.symm.trans hinfo)
  have hnd := (P.declared_perm (hL.modules m hm).nodup).nodup_iff.mp (hf mm hmm)
  rw [hP] at hnd
  obtain ⟨_, hgen, hdis⟩ := List.nodup_append.mp hnd
  refine ⟨fun hio => ?_, fun n hn hg => hdis n hn n hg rfl⟩
  unfold generatedNames commonFamilies at hgen
  rw [hio] at hgen
  -- the port and the register are both called `io_covSum`
  have hfirst : ["io_covSum", "io" ++ "_covSum"].Nodup :=
    hgen.sublist (List.sublist_append_left _ _)
  exact absurd hfirst (by decide)

theorem fresh_of_namesFree (h : NamesFree cfg C) : Fresh C' := by
  intro mm hmm
  obtain ⟨d, hd, hins⟩ := Forall₂.mem_right (execute_forall₂ cfg hex).2 hmm
  cases d with
  | ext e => cases ext_of_instrumented hins
  | module m =>
      obtain ⟨mm', e, ⟨P⟩⟩ := parts_of_instrumented hins
      cases e
      have hm := (hL.modules m hd).nodup
      obtain ⟨hio, hdis⟩ := h m P.info hd P.hinfo
      refine (P.declared_perm hm).nodup_iff.mpr (List.nodup_append.mpr
        ⟨hm, generatedNames_nodup P.hinfo hm hio hdis, fun n hn n' hn' e => ?_⟩)
      subst e
      exact hdis n hn hn'

/-- **The declarations stay unique** exactly when no module is called `io` and no module declares
    a name that is generated for it. -/
theorem fresh_iff : Fresh C' ↔ NamesFree cfg C :=
  ⟨namesFree_of_fresh hL hex, fresh_of_namesFree hL hex⟩

end Fresh

/-- The module around the black box declares none of the generated names. -/
theorem fresh_boxed : ∃ C', execute Demo.config (Boxed.circuit Boxed.wired) = some C' ∧
    Fresh C' := by
  have hsome : (execute Demo.config (Boxed.circuit Boxed.wired)).isSome = true := rfl
  obtain ⟨C', hex⟩ := Option.isSome_iff_exists.mp hsome
  refine ⟨C', hex, (fresh_iff (Boxed.lowForm _) hex).mpr fun m info hm hinfo => ?_⟩
  have hm : m = Boxed.top := by simpa [Boxed.circuit] using hm
  subst hm
  cases hinfo
  exact ⟨by decide, by decide⟩

/-! ## 5. A module with a port of a generated name -/

namespace Resettable

def top : Module :=
  ⟨"Top", [⟨"clock", .input, .clock⟩, ⟨"metaReset", .input, .uint 1⟩], []⟩

def circuit : Circuit := ⟨[.module top], "Top"⟩

theorem lowForm : LowForm circuit where
  names := by
    show ["Top"].Nodup
    decide
  legal d hd := by
    cases List.mem_singleton.mp hd
    show LegalName "Top"
    unfold LegalName
    decide
  modules m hm := by
    cases List.mem_singleton.mp hm
    refine ⟨by decide, by unfold LegalName; decide, fun s hs => ?_, fun s hs => ?_,
      fun loc e hs => ?_, fun i hi => ?_⟩
    · cases hs
    · cases hs
    · cases hs
    · cases hi

end Resettable

/-- The port `metaReset` is declared again. -/
theorem not_fresh_resettable : LowForm Resettable.circuit ∧
    ∃ C', execute Demo.config Resettable.circuit = some C' ∧ ¬ Fresh C' := by
  have hsome : (execute Demo.config Resettable.circuit).isSome = true := rfl
  obtain ⟨C', hex⟩ := Option.isSome_iff_exists.mp hsome
  refine ⟨Resettable.lowForm, C', hex, fun hf => ?_⟩
  have hinfo : (ModuleInfo.ofModule Demo.config.order (.module Resettable.top)).isSome = true := rfl
  obtain ⟨info, hinfo⟩ := Option.isSome_iff_exists.mp hinfo
  have hfree := namesFree_of_fresh Resettable.lowForm hex hf Resettable.top info
    (List.mem_singleton_self _) hinfo
  refine hfree.2 "metaReset" (by decide) (List.mem_flatten.mpr ⟨["metaReset"], ?_, by simp⟩)
  exact List.mem_append_left _ (by simp [commonFamilies])

end Difuzz.Coverage
