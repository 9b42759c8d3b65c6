/-
  File:      DifuzzRtl/Coverage/Ports.lean
  Subject:   The instance ports that the passes use, and when they exist.

  The coverage pass reads `io_covSum` of the instances of modules only. The assertion pass reads
  `metaAssert`, and the reset pass drives `metaReset`, of every instance, also of those of
  external modules, which no pass gives a port.

  * `Stmt.refs` -- the signals a statement mentions.
  * `Parts.cov_refs`, `Parts.asserts_refs`, `resetCon_refs` -- what the added statements mention:
    names, fields of the coverage map, signals of the module, and one port of each instance.
  * `PortsExist` -- every instance port that an added statement mentions is declared.
  * `portsExist_iff` -- this holds exactly when every external module that is instantiated
    declares `metaAssert` and `metaReset` itself.
-/
import DifuzzRtl.Coverage.MetaReset

namespace Difuzz.Coverage

open Firrtl

/-! ## 1. What the added statements mention -/

/-- The signals a statement mentions, connected ones included. -/
def Stmt.refs (s : Stmt) : List Sig := s.exprs.flatMap Expr.refs

theorem mem_refs_connect {loc e : Expr} {x : Sig} :
    x ∈ Stmt.refs (.connect loc e) ↔ x ∈ loc.refs ∨ x ∈ e.refs := by
  simp [Stmt.refs, Stmt.exprs]

/-- Wiring over names mentions names. -/
theorem reduceTree_refs {op : PrimOp} {width : Nat} {wire : Nat → String} {fuel : Nat}
    {refs : List Expr} {id : Nat} {r : Expr} {ss : List Stmt}
    (h : reduceTree op width wire fuel refs id = some (r, ss))
    (hr : ∀ e ∈ refs, ∀ x ∈ e.refs, x.length = 1) :
    (∀ x ∈ r.refs, x.length = 1) ∧ ∀ s ∈ ss, ∀ x ∈ Stmt.refs s, x.length = 1 := by
  -- a connect of a wire to the OR or XOR of two such operands
  have hcon : ∀ {n : String} {a b : Expr}, (∀ x ∈ a.refs, x.length = 1) →
      (∀ x ∈ b.refs, x.length = 1) → ∀ x ∈ Stmt.refs (.connect (.ref n (.uint width))
        (.doPrim2 op a b [] (.uint width))), x.length = 1 := by
    intro n a b ha hb x hx
    rcases mem_refs_connect.mp hx with hx | hx
    · rw [List.mem_singleton.mp hx]
      rfl
    · rcases List.mem_append.mp hx with hx | hx
      · exact ha x hx
      · exact hb x hx
  have hwire : ∀ {n : String}, ∀ x ∈ (Expr.ref n (.uint width)).refs, x.length = 1 := by
    intro n x hx
    rw [List.mem_singleton.mp hx]
    rfl
  revert hr
  refine reduceTree_ind (P := fun refs _ r ss => (∀ e ∈ refs, ∀ x ∈ e.refs, x.length = 1) →
    (∀ x ∈ r.refs, x.length = 1) ∧ ∀ s ∈ ss, ∀ x ∈ Stmt.refs s, x.length = 1) ?_ ?_ ?_ h
  · intro r id hr
    exact ⟨hr r (List.mem_singleton_self r), fun s hs => absurd hs List.not_mem_nil⟩
  · intro a b id hr
    refine ⟨hwire, fun s hs => ?_⟩
    rcases List.mem_cons.mp hs with rfl | hs
    · exact fun x hx => absurd hx List.not_mem_nil
    · rw [List.mem_singleton.mp hs]
      exact hcon (hr a (by simp)) (hr b (by simp))
  · intro refs id r₁ s₁ r₂ s₂ _ ih₁ ih₂ hr
    obtain ⟨h₁, hs₁⟩ := ih₁ fun e he => hr e (List.mem_of_mem_take he)
    obtain ⟨h₂, hs₂⟩ := ih₂ fun e he => hr e (List.mem_of_mem_drop he)
    refine ⟨hwire, fun s hs => ?_⟩
    simp only [List.mem_append, List.mem_cons, List.not_mem_nil, or_false] at hs
    rcases hs with (hs | hs) | rfl | rfl
    · exact hs₁ s hs
    · exact hs₂ s hs
    · exact fun x hx => absurd hx List.not_mem_nil
    · exact hcon h₁ h₂

/-- The adder chain mentions names and the `io_covSum` ports of its instances. -/
theorem makeSum_refs (c : InstrCov) (insts : List WDefInstance) (r : Expr)
    (hr : ∀ x ∈ r.refs, x.length = 1) : ∀ s ∈ c.makeSum insts r, ∀ x ∈ Stmt.refs s,
      x.length = 1 ∨ ∃ i ∈ insts, x = [i.name, "io_covSum"] := by
  induction insts generalizing r with
  | nil =>
      intro s hs x hx
      rw [List.mem_singleton.mp hs] at hx
      rcases mem_refs_connect.mp hx with hx | hx
      · rw [List.mem_singleton.mp hx]
        exact .inl rfl
      · exact .inl (hr x hx)
  | cons i insts ih =>
      intro s hs x hx
      simp only [InstrCov.makeSum, List.mem_cons] at hs
      rcases hs with rfl | rfl | hs
      · cases hx
      · rcases mem_refs_connect.mp hx with hx | hx
        · rw [List.mem_singleton.mp hx]
          exact .inl rfl
        · rcases List.mem_append.mp hx with hx | hx
          · exact .inl (hr x hx)
          · rw [List.mem_singleton.mp hx]
            exact .inr ⟨i, List.mem_cons_self, rfl⟩
      · have hsum : ∀ x ∈ (Expr.ref (i.name ++ "_sum") (.uint c.covSumSize)).refs, x.length = 1 := by
          intro x hx
          rw [List.mem_singleton.mp hx]
          rfl
        rcases ih _ hsum s hs x hx with h | ⟨j, hj, h⟩
        · exact .inl h
        · exact .inr ⟨j, List.mem_cons_of_mem _ hj, h⟩

namespace Parts

variable {cfg : Config} {C C' : Circuit} {m mm : Module} (P : Parts cfg C m mm)

/-- The state word is wired from names and from selects of the module. -/
theorem stateConnect_refs (hm : LowModule C m) {stc : List Stmt} (hst : P.c.stateConnect = some stc)
    {s : Stmt} (hs : s ∈ stc) {x : Sig} (hx : x ∈ Stmt.refs s) : x.length = 1 ∨ IsSig C m x := by
  simp only [InstrCov.stateConnect, InstrCov.makeOffset, Option.bind_eq_bind,
    Option.bind_eq_some_iff, Option.map_eq_some_iff, Option.pure_def, Option.some.injEq] at hst
  obtain ⟨_, ⟨l, hl, rfl⟩, ⟨top, xors⟩, hxor, rfl⟩ := hst
  have hl := forall₂_of_mapM hl
  have hpads : ∀ e ∈ l.map (·.1), ∀ x ∈ e.refs, x.length = 1 := by
    intro e he x hx
    obtain ⟨y, hy, rfl⟩ := List.mem_map.mp he
    obtain ⟨t, _, ht⟩ := Forall₂.mem_right hl hy
    rw [Option.map_eq_some_iff] at ht
    obtain ⟨z, _, rfl⟩ := ht
    rw [List.mem_singleton.mp hx]
    rfl
  obtain ⟨htop, hxors⟩ := reduceTree_refs hxor hpads
  simp only [List.mem_append, List.mem_singleton] at hs
  rcases hs with ((hs | hs) | hs) | rfl
  · obtain ⟨y, hy, hs⟩ := List.mem_flatMap.mp hs
    simp only [List.mem_cons, List.not_mem_nil, or_false] at hs
    rcases hs with rfl | rfl
    · cases hx
    · rcases mem_refs_connect.mp hx with hx | hx
      · rw [List.mem_singleton.mp hx]
        exact .inl rfl
      · have hnode := P.c.expr_mem_nodes (List.mem_of_getElem? (List.mem_zipIdx_iff_getElem?.mp hy))
        exact .inr (P.select_sig hm hnode x hx)
  · left
    obtain ⟨y, hy, hs⟩ := List.mem_flatMap.mp hs
    obtain ⟨t, _, ht⟩ := Forall₂.mem_right hl hy
    rw [Option.map_eq_some_iff] at ht
    obtain ⟨z, _, rfl⟩ := ht
    simp only [InstrCov.offsetStmts, List.mem_cons, List.not_mem_nil, or_false] at hs
    rcases hs with rfl | rfl | rfl | rfl
    · cases hx
    · simp [Stmt.refs, Stmt.exprs, Expr.refs] at hx
      rcases hx with rfl | rfl <;> rfl
    · cases hx
    · split at hx <;> simp [Stmt.refs, Stmt.exprs, Expr.refs] at hx <;> rcases hx with rfl | rfl <;> rfl
  · exact .inl (hxors s hs x hx)
  · rcases mem_refs_connect.mp hx with hx | hx
    · rw [List.mem_singleton.mp hx]
      exact .inl rfl
    · exact .inl (htop x hx)

/-- The coverage logic mentions names, fields of the map, signals of the module, and `io_covSum`
    of the instances of modules. -/
theorem cov_refs (hm : LowModule C m) {s : Stmt} (hs : s ∈ P.cov) {x : Sig} (hx : x ∈ Stmt.refs s) :
    x.length ≠ 2 ∨ IsSig C m x ∨ ∃ i ∈ P.c.insts, x = [i.name, "io_covSum"] := by
  have hsum : s ∈ P.c.makeSum P.c.insts P.c.covSumRef →
      x.length ≠ 2 ∨ IsSig C m x ∨ ∃ i ∈ P.c.insts, x = [i.name, "io_covSum"] := by
    intro hs
    have hone : ∀ x ∈ P.c.covSumRef.refs, x.length = 1 := by
      intro x hx
      rw [List.mem_singleton.mp hx]
      rfl
    rcases makeSum_refs P.c P.c.insts P.c.covSumRef hone s hs x hx with h | h
    · exact .inl (by omega)
    · exact .inr (.inr h)
  rcases InstrCov.addedStmts_cases P.hcov with ⟨clk, stc, _, _, hst, e⟩ | ⟨_, e⟩
  · rw [e] at hs
    simp only [List.mem_append] at hs
    rcases hs with (((hs | hs) | hs) | hs) | hs
    · left
      simp only [List.mem_cons, List.not_mem_nil, or_false] at hs
      rcases hs with rfl | rfl | rfl <;>
        simp [Stmt.refs, Stmt.exprs, InstrCov.regState, InstrCov.covSum, addedRegister, Expr.refs] at hx
      · rcases hx with rfl | rfl <;> simp
      · rcases hx with rfl | rfl <;> simp
    · rcases P.stateConnect_refs hm hst hs hx with h | h
      · exact .inl (by omega)
      · exact .inr (.inl h)
    · left
      simp only [InstrCov.readConnect, List.mem_cons, List.not_mem_nil, or_false] at hs
      rcases hs with rfl | rfl | rfl | rfl <;>
        simp [Stmt.refs, Stmt.exprs, InstrCov.covField, InstrCov.covSumRef, Expr.refs, Expr.sig] at hx
      · rcases hx with rfl | rfl <;> simp
      · simp [hx]
      · rcases hx with rfl | rfl <;> simp
      · rcases hx with rfl | rfl | rfl <;> simp
    · left
      simp only [InstrCov.writeConnect, List.mem_cons, List.not_mem_nil, or_false] at hs
      rcases hs with rfl | rfl | rfl | rfl | rfl <;>
        simp [Stmt.refs, Stmt.exprs, InstrCov.covField, Expr.refs, Expr.sig] at hx
      · rcases hx with rfl | rfl <;> simp
      · simp [hx]
      · simp [hx]
      · rcases hx with rfl | rfl <;> simp
      · simp [hx]
    · exact hsum hs
  · rw [e] at hs
    simp only [InstrCov.addedStmts.noCoverage, List.mem_append, List.mem_cons, List.not_mem_nil,
      or_false] at hs
    rcases hs with (rfl | rfl) | hs
    · cases hx
    · left
      simp [Stmt.refs, Stmt.exprs, InstrCov.covSumRef, Expr.refs] at hx
      simp [hx]
    · exact hsum hs

/-- The assertion logic mentions names, the signals of the enables, and `metaAssert` of every
    instance. -/
theorem asserts_refs (hm : LowModule C m) {s : Stmt} (hs : s ∈ P.asserts) {x : Sig}
    (hx : x ∈ Stmt.refs s) :
    x.length = 1 ∨ IsSig C m x ∨ ∃ i ∈ m.insts, x = [i.name, "metaAssert"] := by
  have hrefs : ∀ e ∈ InstrAssert.orRefs cfg.order P.info.insts (covModule m P.c P.cov),
      ∀ x ∈ e.refs, x.length = 1 := by
    intro e he x hx
    have hname : ∃ n t, e = .ref n t := by
      rcases List.mem_append.mp he with he | he
      · obtain ⟨y, _, rfl⟩ := List.mem_map.mp he
        exact ⟨_, _, rfl⟩
      · obtain ⟨i, _, rfl⟩ := List.mem_map.mp ((SetOrder.mem_toSeq _).mp he)
        exact ⟨_, _, rfl⟩
    obtain ⟨n, t, rfl⟩ := hname
    rw [List.mem_singleton.mp hx]
    rfl
  have hor : (∀ top, P.topOr = some top → ∀ x ∈ top.refs, x.length = 1) ∧
      ∀ s ∈ (InstrAssert.makeOr m.name (InstrAssert.orRefs cfg.order P.info.insts
        (covModule m P.c P.cov)) 0).2, ∀ x ∈ Stmt.refs s, x.length = 1 := by
    unfold topOr InstrAssert.makeOr
    split
    · rename_i r ss h
      refine ⟨fun top ht => ?_, (reduceTree_refs h hrefs).2⟩
      cases ht
      exact (reduceTree_refs h hrefs).1
    · exact ⟨fun top ht => (nomatch ht), fun s hs => absurd hs List.not_mem_nil⟩
  unfold asserts InstrAssert.addedStmts at hs
  simp only [List.mem_append, SetOrder.mem_toSeq, List.mem_map] at hs
  rcases hs with (((⟨y, hy, rfl⟩ | ⟨i, _, rfl⟩) | ⟨i, hi, rfl⟩) | hs) | hs
  · -- the enable of a `stop`
    obtain ⟨⟨st, k⟩, hk, rfl⟩ := List.mem_map.mp hy
    have hst : st ∈ (covModule m P.c P.cov).stops :=
      List.mem_of_getElem? (List.mem_zipIdx_iff_getElem?.mp hk)
    rw [P.stops_covModule] at hst
    simp only [Stmt.refs, Stmt.exprs, List.flatMap_cons, List.flatMap_nil, List.append_nil] at hx
    exact .inr (.inl (hm.resolved _ (Module.mem_stops.mp hst) st.en (by simp [Stmt.exprs]) x hx))
  · cases hx
  · rcases mem_refs_connect.mp hx with hx | hx
    · rw [List.mem_singleton.mp hx]
      exact .inl rfl
    · rw [List.mem_singleton.mp hx]
      exact .inr (.inr ⟨i, P.mem_info_insts.mp hi, rfl⟩)
  · exact .inl (hor.2 s hs x hx)
  · left
    have htop := hor.1
    unfold topOr at htop
    have hname : (covModule m P.c P.cov).name = m.name := rfl
    unfold InstrAssert.conStmts at hs
    simp only [hname] at hs
    split at hs
    · rename_i top ht
      split at hs
      · simp only [List.mem_cons, List.not_mem_nil, or_false] at hs
        rcases hs with rfl | rfl | rfl
        · simp [Stmt.refs, Stmt.exprs, InstrAssert.assertReg, addedRegister, Expr.refs] at hx
          rcases hx with rfl | rfl <;> rfl
        · simp only [mem_refs_connect, Expr.refs, List.mem_singleton, List.mem_append] at hx
          rcases hx with rfl | rfl | hx
          · rfl
          · rfl
          · exact htop top ht x hx
        · simp [Stmt.refs, Stmt.exprs, Expr.refs] at hx
          rcases hx with rfl | rfl <;> rfl
      · rw [List.mem_singleton.mp hs] at hx
        rcases mem_refs_connect.mp hx with hx | hx
        · rw [List.mem_singleton.mp hx]
          rfl
        · exact htop top ht x hx
    · rw [List.mem_singleton.mp hs] at hx
      rcases mem_refs_connect.mp hx with hx | hx
      · rw [List.mem_singleton.mp hx]
        rfl
      · cases hx

end Parts

theorem resetCon_refs {i : WDefInstance} {x : Sig} (hx : x ∈ Stmt.refs (InstrReset.resetCon i)) :
    x.length = 1 ∨ x = [i.name, "metaReset"] := by
  simp [Stmt.refs, InstrReset.resetCon, InstrReset.metaReset, Stmt.exprs, Expr.refs, Expr.sig] at hx
  rcases hx with rfl | rfl | rfl
  · exact .inr rfl
  · exact .inl rfl
  · exact .inl rfl

/-! ## 2. Which ports exist -/

/-- The module instantiated by `i` declares the port. -/
def HasPort (C : Circuit) (i : WDefInstance) (f : String) : Prop :=
  ∃ d, C.find i.module = some d ∧ ∃ q ∈ d.ports, q.name = f

/-- Every reference to an instance port, in a statement that a module did not have before, names
    a port of the instantiated module. -/
def PortsExist (C C' : Circuit) : Prop :=
  ∀ m mm, .module m ∈ C.modules → .module mm ∈ C'.modules → mm.name = m.name →
    ∀ s ∈ mm.leaves, s ∉ m.leaves → ∀ i ∈ mm.insts, ∀ f, [i.name, f] ∈ Stmt.refs s → HasPort C' i f

/-- The external modules that are instantiated declare the ports that the passes use. -/
def ExtPorts (C : Circuit) : Prop :=
  ∀ m, .module m ∈ C.modules → ∀ i ∈ m.insts, ∀ e, C.find i.module = some (.ext e) →
    (∃ q ∈ e.ports, q.name = "metaAssert") ∧ ∃ q ∈ e.ports, q.name = "metaReset"

section Ports

variable {cfg : Config} {C C' : Circuit} (hL : LowForm C) (hex : execute cfg C = some C')

include hL hex

/-- Modules of one name are an original and its instrumented version. -/
theorem parts_of_name {m mm : Module} (hm : .module m ∈ C.modules) (hmm : .module mm ∈ C'.modules)
    (hn : mm.name = m.name) : Nonempty (Parts cfg C m mm) := by
  obtain ⟨d, hd, hins⟩ := Forall₂.mem_right (execute_forall₂ cfg hex).2 hmm
  have hname : d.name = m.name := (instrumented_name hins).symm.trans hn
  have hdm : d = .module m := List.inj_on_of_nodup_map hL.names hd hm hname
  subst hdm
  obtain ⟨mm', e, hP⟩ := parts_of_instrumented hins
  cases e
  exact hP

omit hL in
theorem parts_of_mem {m : Module} (hm : .module m ∈ C.modules) :
    ∃ mm, .module mm ∈ C'.modules ∧ Nonempty (Parts cfg C m mm) := by
  obtain ⟨d', hd', hins⟩ := Forall₂.mem_left (execute_forall₂ cfg hex).2 hm
  obtain ⟨mm, rfl, hP⟩ := parts_of_instrumented hins
  exact ⟨mm, hd', hP⟩

/-- A port of the instantiated module, or one that the passes add to modules. -/
theorem hasPort_of_module {m : Module} (hm : .module m ∈ C.modules) {i : WDefInstance}
    (hi : i ∈ m.insts) {f : String} (hf : f = "io_covSum" ∨ f = "metaAssert" ∨ f = "metaReset")
    (he : ∀ e, C.find i.module = some (.ext e) → ∃ q ∈ e.ports, q.name = f) : HasPort C' i f := by
  obtain ⟨d, hd⟩ := (hL.modules m hm).instances i hi
  obtain ⟨d', hd', hins⟩ := find_of_find hex hd
  refine ⟨d', hd', ?_⟩
  cases d with
  | ext e =>
      rw [ext_of_instrumented hins]
      exact he e hd
  | module m' =>
      obtain ⟨mm', rfl, ⟨P⟩⟩ := parts_of_instrumented hins
      show ∃ q ∈ mm'.ports, q.name = f
      rw [P.ports_eq]
      rcases hf with rfl | rfl | rfl
      · exact ⟨P.c.covSumPort, by simp, rfl⟩
      · exact ⟨InstrAssert.assertPort, by simp, rfl⟩
      · exact ⟨InstrReset.metaResetPort, by simp, rfl⟩

/-- A reference that the module had is fine. -/
theorem hasPort_of_sig {m : Module} (hm : .module m ∈ C.modules) {i : WDefInstance}
    (hi : i ∈ m.insts) {f : String} (hs : IsSig C m [i.name, f]) :
    HasPort C' i f ∧ ∀ e, C.find i.module = some (.ext e) → ∃ q ∈ e.ports, q.name = f := by
  generalize hx : [i.name, f] = x at hs
  cases hs with
  | @inst j d q hj hd hq =>
      obtain ⟨hn, hf⟩ : i.name = j.name ∧ f = q.name := by simpa using hx
      have hij : i = j := hL.distinctInsts.inst_inj hm hi hj hn
      subst hij
      obtain ⟨d', hd', hsub⟩ := ports_subset hex hd
      refine ⟨⟨d', hd', q, hsub q hq, hf.symm⟩, fun e he => ?_⟩
      rw [hd] at he
      cases he
      exact ⟨q, hq, hf.symm⟩
  | memIn _ h =>
      subst hx
      simp [DefMemory.inputSigs] at h
  | memOut _ h =>
      subst hx
      simp [DefMemory.outputSigs] at h
  | _ => exact absurd (congrArg List.length hx) (by simp)

/-- **When the external modules have the ports, all references resolve.** -/
theorem portsExist_of_extPorts (hE : ExtPorts C) : PortsExist C C' := by
  intro m mm hm hmm hn s hs hnew i hi f hx
  obtain ⟨P⟩ := parts_of_name hL hex hm hmm hn
  have hlow := hL.modules m hm
  have hi : i ∈ m.insts := P.mem_insts.mp hi
  -- what a reference can be, wherever the statement comes from
  have port : ∀ {j : WDefInstance} {g : String}, j ∈ m.insts → [i.name, f] = [j.name, g] →
      g = "io_covSum" ∧ j ∈ P.c.insts ∨ g = "metaAssert" ∨ g = "metaReset" → HasPort C' i f := by
    intro j g hj he hg
    obtain ⟨hnj, rfl⟩ : i.name = j.name ∧ f = g := by simpa using he
    have hij : i = j := hL.distinctInsts.inst_inj hm hi hj hnj
    subst hij
    rcases hg with ⟨rfl, hc⟩ | rfl | rfl
    · refine hasPort_of_module hL hex hm hi (.inl rfl) fun e hfe => ?_
      exact absurd ((mem_extModules_iff hL hfe).mpr rfl) (P.mem_c_insts.mp hc).2
    · exact hasPort_of_module hL hex hm hi (.inr (.inl rfl)) fun e hfe => (hE m hm i hi e hfe).1
    · exact hasPort_of_module hL hex hm hi (.inr (.inr rfl)) fun e hfe => (hE m hm i hi e hfe).2
  have old : ∀ {s : Stmt}, s ∈ P.old → [i.name, f] ∈ Stmt.refs s → HasPort C' i f := by
    intro s hs hx
    rcases P.mem_old.mp hs with hs | hs | hs
    · obtain ⟨e, he, hx⟩ := List.mem_flatMap.mp hx
      exact (hasPort_of_sig hL hex hm hi (hlow.resolved s hs e he _ hx)).1
    · rcases P.cov_refs hlow hs hx with h | h | ⟨j, hj, h⟩
      · exact absurd rfl h
      · exact (hasPort_of_sig hL hex hm hi h).1
      · exact port (P.mem_c_insts.mp hj).1 h (.inl ⟨rfl, hj⟩)
    · rcases P.asserts_refs hlow hs hx with h | h | ⟨j, hj, h⟩
      · cases h
      · exact (hasPort_of_sig hL hex hm hi h).1
      · exact port hj h (.inr (.inl rfl))
  rcases P.mem_leaves_inv hs with hs | ⟨loc, e, r, w, hold, _, _, rfl⟩ | ⟨j, hj, rfl⟩
  · exact old hs hx
  · refine old hold (mem_refs_connect.mpr ?_)
    simpa [mem_refs_connect, Expr.refs, InstrReset.metaReset] using hx
  · rcases resetCon_refs hx with h | h
    · cases h
    · exact port (P.mem_info_insts.mp hj) h (.inr (.inr rfl))

/-- **When all references resolve, the external modules have the ports**, since every instance
    is used. -/
theorem extPorts_of_portsExist (hP : PortsExist C C') : ExtPorts C := by
  intro m hm i hi e hfe
  obtain ⟨mm, hmm, ⟨P⟩⟩ := parts_of_mem hex hm
  have hlow := hL.modules m hm
  -- a statement with the reference is new, or the module had the reference and it resolved
  have key : ∀ {s : Stmt} {f : String}, s ∈ mm.leaves → [i.name, f] ∈ Stmt.refs s →
      ∃ q ∈ e.ports, q.name = f := by
    intro s f hs hx
    by_cases hold : s ∈ m.leaves
    · obtain ⟨e', he', hx⟩ := List.mem_flatMap.mp hx
      exact (hasPort_of_sig hL hex hm hi (hlow.resolved s hold e' he' _ hx)).2 e hfe
    · obtain ⟨d', hd', q, hq, hqf⟩ := hP m mm hm hmm P.name_eq s hs hold i (P.mem_insts.mpr hi) f hx
      obtain ⟨d, hd, hins⟩ := find_of_find' hex hd'
      rw [hfe] at hd
      cases hd
      rw [ext_of_instrumented hins] at hq
      exact ⟨q, hq, hqf⟩
  refine ⟨?_, key (P.mem_leaves_resetCon (P.mem_info_insts.mpr hi)) (by
    simp [Stmt.refs, InstrReset.resetCon, Stmt.exprs, Expr.refs, Expr.sig])⟩
  have hcon : .connect (.ref (InstrAssert.wireName i) (.uint 1))
      (.subField (.ref i.name .unknown) "metaAssert" .unknown) ∈ P.asserts := by
    show _ ∈ InstrAssert.addedStmts cfg.order P.info.insts (covModule m P.c P.cov)
    simp only [InstrAssert.addedStmts, List.mem_append, SetOrder.mem_toSeq, List.mem_map]
    exact .inl (.inl (.inr ⟨i, P.mem_info_insts.mpr hi, rfl⟩))
  -- the reset pass may have put a mux around it
  obtain ⟨L, hL', hF⟩ := P.leaves_eq
  obtain ⟨s', hs', hr⟩ := Forall₂.mem_left hF (P.mem_old.mpr (.inr (.inr hcon)))
  have hs' : s' ∈ mm.leaves := by
    rw [hL']
    exact List.mem_append_left _ hs'
  rcases hr.cases with ⟨rfl, _⟩ | ⟨loc, ex, r, w, he, _, _, rfl⟩
  · exact key hs' (by simp [Stmt.refs, Stmt.exprs, Expr.refs, Expr.sig])
  · cases he
    exact key hs' (by simp [Stmt.refs, Stmt.exprs, Expr.refs, Expr.sig])

/-- **Instrumented modules only use ports that exist** exactly when every external module that is
    instantiated has the ports `metaAssert` and `metaReset` of its own. -/
theorem portsExist_iff : PortsExist C C' ↔ ExtPorts C :=
  ⟨extPorts_of_portsExist hL hex, portsExist_of_extPorts hL hex⟩

end Ports

/-! ## 3. A module around a black box -/

namespace Boxed

def box : WDefInstance := ⟨"box", "Box"⟩

def top : Module := ⟨"Top", [⟨"clock", .input, .clock⟩], [.defInstance box]⟩

/-- The top module instantiates an external module of these ports. -/
def circuit (ports : List Port) : Circuit := ⟨[.module top, .ext ⟨"Box", ports⟩], "Top"⟩

theorem lowForm (ports : List Port) : LowForm (circuit ports) where
  names := by
    show ["Top", "Box"].Nodup
    decide
  legal d hd := by
    have hd : d = .module top ∨ d = .ext ⟨"Box", ports⟩ := by simpa [circuit] using hd
    rcases hd with rfl | rfl
    · show LegalName "Top"
      unfold LegalName
      decide
    · show LegalName "Box"
      unfold LegalName
      decide
  modules m hm := by
    have hm : m = top := by simpa [circuit] using hm
    subst hm
    have hleaves : top.leaves = [.defInstance box] := rfl
    refine ⟨by decide, by unfold LegalName; decide, fun s hs e he => ?_, fun s hs e he => ?_,
      fun loc e hs => ?_, fun i hi => ?_⟩
    · rw [hleaves, List.mem_singleton] at hs
      subst hs
      cases he
    · rw [hleaves, List.mem_singleton] at hs
      subst hs
      cases he
    · rw [hleaves, List.mem_singleton] at hs
      cases hs
    · cases List.mem_singleton.mp (show i ∈ [box] from hi)
      exact ⟨.ext ⟨"Box", ports⟩, rfl⟩

theorem acyclic (ports : List Port) : (circuit ports).Acyclic := by
  refine ⟨fun n => if n = "Top" then 1 else 0, fun m hm i hi => ?_⟩
  have hm : m = top := by simpa [circuit] using hm
  subst hm
  cases List.mem_singleton.mp (show i ∈ [box] from hi)
  decide

/-- The ports that the passes use. -/
def wired : List Port := [⟨"metaAssert", .output, .uint 1⟩, ⟨"metaReset", .input, .uint 1⟩]

end Boxed

/-- A black box that has the ports already. -/
theorem portsExist_boxed : ∃ C', execute Demo.config (Boxed.circuit Boxed.wired) = some C' ∧
    PortsExist (Boxed.circuit Boxed.wired) C' := by
  have hsome : (execute Demo.config (Boxed.circuit Boxed.wired)).isSome = true := rfl
  obtain ⟨C', hex⟩ := Option.isSome_iff_exists.mp hsome
  refine ⟨C', hex, (portsExist_iff (Boxed.lowForm _) hex).mpr fun m _ i _ e he => ?_⟩
  have he : e.ports = Boxed.wired := by
    have hmem := Circuit.find_mem he
    simp only [Boxed.circuit, List.mem_cons, reduceCtorEq, DefModule.ext.injEq, List.not_mem_nil,
      or_false, false_or] at hmem
    rw [hmem]
  rw [he]
  exact ⟨⟨_, List.mem_cons_self, rfl⟩, ⟨_, List.mem_cons_of_mem _ List.mem_cons_self, rfl⟩⟩

/-- A black box without ports: the instrumented module reads its `metaAssert`. -/
theorem not_portsExist_boxed : LowForm (Boxed.circuit []) ∧ (Boxed.circuit []).Acyclic ∧
    ∃ C', execute Demo.config (Boxed.circuit []) = some C' ∧ ¬ PortsExist (Boxed.circuit []) C' := by
  have hsome : (execute Demo.config (Boxed.circuit [])).isSome = true := rfl
  obtain ⟨C', hex⟩ := Option.isSome_iff_exists.mp hsome
  refine ⟨Boxed.lowForm [], Boxed.acyclic [], C', hex, fun hP => ?_⟩
  have hE := extPorts_of_portsExist (Boxed.lowForm []) hex hP
  obtain ⟨⟨q, hq, _⟩, _⟩ := hE Boxed.top List.mem_cons_self Boxed.box (List.mem_singleton_self _)
    ⟨"Box", []⟩ rfl
  cases hq

end Difuzz.Coverage
