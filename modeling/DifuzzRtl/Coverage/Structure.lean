/-
  File:      DifuzzRtl/Coverage/Structure.lean
  Subject:   An instrumented module taken apart.

  The claims about the instrumented circuit read its modules as: the statements the module had,
  the statements the three passes added, and the muxes in front of the registers. This file
  fixes that reading once.

  * `Parts` -- the record of the passes on one module: the analysis, the constructed coverage
    pass, the added statements, the rewritten body. `parts_of_instrumented` takes any
    instrumented module apart.
  * `Stmt.plain` -- the kinds of statements the passes add.
  * `mem_leaves_*` -- which statements of the old module, and of the added ones, the new module
    still has, and in which form.
-/
import DifuzzRtl.Coverage.RegisterCov
import DifuzzRtl.Firrtl.LowForm

namespace Difuzz.Coverage

open Firrtl

/-! ## 1. The parts of an instrumented module -/

/-- The module after the coverage pass. -/
def covModule (m : Module) (c : InstrCov) (cov : List Stmt) : Module :=
  { m with ports := m.ports ++ [c.covSumPort], body := m.body ++ cov }

/-- The passes on the module `m`, with the outcome `mm`. -/
structure Parts (cfg : Config) (C : Circuit) (m mm : Module) where
  info : ModuleInfo
  c : InstrCov
  cov : List Stmt
  body : List Stmt
  hinfo : ModuleInfo.ofModule cfg.order (.module m) = some info
  hc : InstrCov.new cfg.order info cfg.maxStateSize (cfg.rnd m.name) m.name (extModules C)
    cfg.covSumSize = some c
  hcov : c.addedStmts m = some cov
  hbody : InstrReset.addMetaResetList
    (info.regs ++ (InstrAssert.newAssertReg cfg.order info.insts (covModule m c cov)).toList)
    (m.body ++ cov ++ InstrAssert.addedStmts cfg.order info.insts (covModule m c cov)) = some body
  hmm : mm =
    { name := m.name
      ports := m.ports ++ [c.covSumPort] ++ [InstrAssert.assertPort] ++
        [InstrReset.metaResetPort] ++ info.insts.map InstrReset.haltPort
      body := body ++ info.insts.map InstrReset.resetCon }

theorem parts_of_instrumented {cfg : Config} {C : Circuit} {m : Module} {d : DefModule}
    (h : Instrumented cfg C (.module m) d) : ∃ mm, d = .module mm ∧ Nonempty (Parts cfg C m mm) := by
  obtain ⟨info, hinfo, h⟩ := h
  simp only [instrModule, covPass, InstrCov.instrument, Option.bind_eq_bind,
    Option.bind_eq_some_iff, Option.map_eq_some_iff] at h
  obtain ⟨_, ⟨c, hc, cov, hcov, rfl⟩, h⟩ := h
  simp only [InstrAssert.instrument, InstrReset.instrument, Option.map_eq_some_iff] at h
  obtain ⟨body, hbody, rfl⟩ := h
  exact ⟨_, rfl, ⟨⟨info, c, cov, body, hinfo, hc, hcov, hbody, rfl⟩⟩⟩

/-- External modules stay. -/
theorem ext_of_instrumented {cfg : Config} {C : Circuit} {e : ExtModule} {d : DefModule}
    (h : Instrumented cfg C (.ext e) d) : d = .ext e := by
  obtain ⟨info, _, h⟩ := h
  simp only [instrModule, covPass, InstrCov.instrument, Option.bind_eq_bind,
    Option.bind_eq_some_iff, InstrAssert.instrument, InstrReset.instrument,
    Option.some.injEq] at h
  obtain ⟨_, ⟨_, _, rfl⟩, h⟩ := h
  simp at h
  exact h.symm

/-! ## 2. The circuit, module by module -/

section Find

variable {cfg : Config} {C C' : Circuit}

theorem instrumented_name {d d' : DefModule} (h : Instrumented cfg C d d') : d'.name = d.name := by
  cases d with
  | ext e => rw [ext_of_instrumented h]
  | module m =>
      obtain ⟨mm, rfl, ⟨P⟩⟩ := parts_of_instrumented h
      rw [P.hmm]
      rfl

/-- Modules of one name correspond. -/
theorem find_instrumented (h : execute cfg C = some C') (n : String) :
    (C.find n = none ∧ C'.find n = none) ∨
    ∃ d d', C.find n = some d ∧ C'.find n = some d' ∧ Instrumented cfg C d d' := by
  have hl := (execute_forall₂ cfg h).2
  unfold Circuit.find
  generalize C.modules = l, C'.modules = l' at hl
  induction hl with
  | nil => exact .inl ⟨rfl, rfl⟩
  | @cons d d' l l' hd _ ih =>
      by_cases hn : d.name = n
      · refine .inr ⟨d, d', ?_, ?_, hd⟩
        · simp [hn]
        · simp [instrumented_name hd, hn]
      · have hn' : d'.name ≠ n := by rwa [instrumented_name hd]
        simpa [List.find?_cons, hn, hn'] using ih

theorem find_of_find (h : execute cfg C = some C') {n : String} {d : DefModule}
    (hd : C.find n = some d) : ∃ d', C'.find n = some d' ∧ Instrumented cfg C d d' := by
  rcases find_instrumented h n with ⟨h0, _⟩ | ⟨d₀, d', h0, h1, hi⟩
  · rw [h0] at hd
    cases hd
  · rw [h0] at hd
    cases hd
    exact ⟨d', h1, hi⟩

theorem find_of_find' (h : execute cfg C = some C') {n : String} {d' : DefModule}
    (hd : C'.find n = some d') : ∃ d, C.find n = some d ∧ Instrumented cfg C d d' := by
  rcases find_instrumented h n with ⟨_, h0⟩ | ⟨d, d₀, h0, h1, hi⟩
  · rw [h0] at hd
    cases hd
  · rw [h1] at hd
    cases hd
    exact ⟨d, h0, hi⟩

end Find

/-! ## 3. The added statements -/

/-- The kinds of statements the passes add. -/
def Stmt.plain : Stmt → Bool
  | .defWire _ _ | .defRegister _ | .defMemory _ | .defNode _ _ | .connect _ _ => true
  | _ => false

/-- Wires and connects: what all but the registers, the map and the enables consist of. -/
def Stmt.wiring : Stmt → Bool
  | .defWire _ _ | .connect _ _ => true
  | _ => false

theorem Stmt.plain_of_wiring {s : Stmt} (h : Stmt.wiring s = true) : Stmt.plain s = true := by
  cases s <;> first | rfl | cases h

theorem Stmt.isLeaf_of_plain {s : Stmt} (h : Stmt.plain s = true) : s.isLeaf = true := by
  cases s <;> first | rfl | cases h

theorem reduceTree_wiring {op : PrimOp} {width : Nat} {wire : Nat → String} {fuel : Nat}
    {refs : List Expr} {id : Nat} {r : Expr} {ss : List Stmt}
    (h : reduceTree op width wire fuel refs id = some (r, ss)) :
    ∀ s ∈ ss, Stmt.wiring s = true := by
  refine reduceTree_ind (P := fun _ _ _ ss => ∀ s ∈ ss, Stmt.wiring s = true) ?_ ?_ ?_ h
  · intro r id s hs
    cases hs
  · intro a b id s hs
    simp only [List.mem_cons, List.not_mem_nil, or_false] at hs
    rcases hs with rfl | rfl <;> rfl
  · intro refs id r₁ s₁ r₂ s₂ _ h₁ h₂ s hs
    simp only [List.mem_append, List.mem_cons, List.not_mem_nil, or_false] at hs
    rcases hs with (hs | hs) | rfl | rfl
    · exact h₁ s hs
    · exact h₂ s hs
    · rfl
    · rfl

namespace InstrCov

variable (c : InstrCov)

theorem makeSum_wiring (insts : List WDefInstance) (e : Expr) :
    ∀ s ∈ c.makeSum insts e, Stmt.wiring s = true := by
  induction insts generalizing e with
  | nil =>
      intro s hs
      rw [makeSum, List.mem_singleton] at hs
      rw [hs]
      rfl
  | cons i insts ih =>
      intro s hs
      simp only [makeSum, List.mem_cons] at hs
      rcases hs with rfl | rfl | hs
      · rfl
      · rfl
      · exact ih _ s hs

theorem stateConnect_wiring {ss : List Stmt} (h : c.stateConnect = some ss) :
    ∀ s ∈ ss, Stmt.wiring s = true := by
  simp only [stateConnect, makeOffset, Option.bind_eq_bind, Option.bind_eq_some_iff,
    Option.map_eq_some_iff, Option.pure_def, Option.some.injEq] at h
  obtain ⟨_, ⟨l, hl, rfl⟩, ⟨top, xors⟩, hx, rfl⟩ := h
  intro s hs
  simp only [List.mem_append, List.mem_singleton] at hs
  rcases hs with ((hs | hs) | hs) | rfl
  · simp only [tmpStmts, List.mem_flatMap, List.mem_cons, List.not_mem_nil, or_false] at hs
    obtain ⟨_, _, rfl | rfl⟩ := hs <;> rfl
  · rw [List.mem_flatMap] at hs
    obtain ⟨x, hx, hs⟩ := hs
    -- every entry of the list is the offset logic of one tracked signal
    obtain ⟨t, _, ht⟩ := Forall₂.mem_right (forall₂_of_mapM hl) hx
    rw [Option.map_eq_some_iff] at ht
    obtain ⟨y, _, rfl⟩ := ht
    simp only [offsetStmts, List.mem_cons, List.not_mem_nil, or_false] at hs
    rcases hs with rfl | rfl | rfl | rfl <;> rfl
  · exact reduceTree_wiring hx s hs
  · rfl

theorem addedStmts_plain {m : Module} {ss : List Stmt} (h : c.addedStmts m = some ss) :
    ∀ s ∈ ss, Stmt.plain s = true := by
  have hno : ∀ s ∈ addedStmts.noCoverage c, Stmt.plain s = true := by
    intro s hs
    simp only [addedStmts.noCoverage, List.mem_append, List.mem_cons, List.not_mem_nil,
      or_false] at hs
    rcases hs with (rfl | rfl) | hs
    · rfl
    · rfl
    · exact Stmt.plain_of_wiring (c.makeSum_wiring _ _ s hs)
  rcases addedStmts_cases h with ⟨clock, st, _, _, hst, rfl⟩ | ⟨_, rfl⟩
  · intro s hs
    simp only [List.mem_append, List.mem_cons, List.not_mem_nil, or_false, readConnect,
      writeConnect] at hs
    rcases hs with (((hs | hs) | hs) | hs) | hs
    · rcases hs with rfl | rfl | rfl <;> rfl
    · exact Stmt.plain_of_wiring (c.stateConnect_wiring hst s hs)
    · rcases hs with rfl | rfl | rfl | rfl <;> rfl
    · rcases hs with rfl | rfl | rfl | rfl | rfl <;> rfl
    · exact Stmt.plain_of_wiring (c.makeSum_wiring _ _ s hs)
  · exact hno

end InstrCov

namespace InstrAssert

theorem addedStmts_plain {σ : SetOrder} {insts : List WDefInstance} {m : Module} :
    ∀ s ∈ addedStmts σ insts m, Stmt.plain s = true := by
  intro s hs
  simp only [addedStmts, List.mem_append, SetOrder.mem_toSeq, List.mem_map] at hs
  rcases hs with (((⟨x, _, rfl⟩ | ⟨i, _, rfl⟩) | ⟨i, _, rfl⟩) | hs) | hs
  · rfl
  · rfl
  · rfl
  · unfold makeOr at hs
    split at hs
    · rename_i r ss he
      exact Stmt.plain_of_wiring (reduceTree_wiring he s hs)
    · cases hs
  · unfold conStmts at hs
    simp only at hs
    split at hs
    · split at hs
      · simp only [List.mem_cons, List.not_mem_nil, or_false] at hs
        rcases hs with rfl | rfl | rfl <;> rfl
      · rw [List.mem_singleton] at hs
        rw [hs]
        rfl
    · rw [List.mem_singleton] at hs
      rw [hs]
      rfl

end InstrAssert

/-! ## 4. The reset muxes -/

namespace InstrReset

/-- What the reset pass makes of a statement that is not a block. -/
def Rewrites (regs : List DefRegister) (s s' : Stmt) : Prop :=
  s.isLeaf = true ∧ addMetaReset regs s = some s'

theorem Rewrites.cases {regs : List DefRegister} {s s' : Stmt} (h : Rewrites regs s s') :
    (s' = s ∧ ∀ loc e, s = .connect loc e → ∀ r ∈ regs, loc.serialize ≠ some r.name) ∨
    ∃ loc e r w, s = .connect loc e ∧ r ∈ regs ∧ loc.serialize = some r.name ∧
      s' = .connect loc (.mux metaReset (.uintLit 0 w) e .unknown) := by
  obtain ⟨hl, h⟩ := h
  cases s with
  | connect loc e =>
      unfold addMetaReset at h
      split at h
      · rename_i r hr
        rw [Option.map_eq_some_iff] at h
        obtain ⟨w, _, rfl⟩ := h
        exact .inr ⟨loc, e, r, w, rfl, List.mem_of_find?_eq_some hr, by simpa using List.find?_some hr,
          rfl⟩
      · rename_i hr
        cases h
        refine .inl ⟨rfl, fun loc' e' heq r hm => ?_⟩
        cases heq
        simpa using List.find?_eq_none.mp hr r hm
  | block ss => cases hl
  | _ =>
      simp only [addMetaReset, Option.some.injEq] at h
      exact .inl ⟨h.symm, fun loc e heq => nomatch heq⟩

mutual

theorem addMetaReset_leaves (regs : List DefRegister) : ∀ (s s' : Stmt),
    addMetaReset regs s = some s' → List.Forall₂ (Rewrites regs) s.leaves s'.leaves
  | .block ss, s', h => by
      simp only [addMetaReset, Option.map_eq_some_iff] at h
      obtain ⟨ss', h', rfl⟩ := h
      exact addMetaResetList_leaves regs ss ss' h'
  | .connect loc e, s', h => by
      have hr : Rewrites regs (.connect loc e) s' := ⟨rfl, h⟩
      have hs : s'.leaves = [s'] := by
        rcases hr.cases with ⟨rfl, _⟩ | ⟨_, _, _, _, _, _, _, rfl⟩ <;> rfl
      rw [hs]
      exact .cons hr .nil
  | .defWire _ _, _, h => by cases h; exact .cons ⟨rfl, rfl⟩ .nil
  | .defRegister _, _, h => by cases h; exact .cons ⟨rfl, rfl⟩ .nil
  | .defInstance _, _, h => by cases h; exact .cons ⟨rfl, rfl⟩ .nil
  | .defMemory _, _, h => by cases h; exact .cons ⟨rfl, rfl⟩ .nil
  | .defNode _ _, _, h => by cases h; exact .cons ⟨rfl, rfl⟩ .nil
  | .isInvalid _, _, h => by cases h; exact .cons ⟨rfl, rfl⟩ .nil
  | .attach _, _, h => by cases h; exact .cons ⟨rfl, rfl⟩ .nil
  | .stop _, _, h => by cases h; exact .cons ⟨rfl, rfl⟩ .nil
  | .print _ _ _ _, _, h => by cases h; exact .cons ⟨rfl, rfl⟩ .nil
  | .empty, _, h => by cases h; exact .cons ⟨rfl, rfl⟩ .nil

theorem addMetaResetList_leaves (regs : List DefRegister) : ∀ (ss ss' : List Stmt),
    addMetaResetList regs ss = some ss' →
      List.Forall₂ (Rewrites regs) (Stmt.leavesList ss) (Stmt.leavesList ss')
  | [], ss', h => by cases h; exact .nil
  | s :: ss, ss', h => by
      simp only [addMetaResetList, Option.bind_eq_bind, Option.bind_eq_some_iff, Option.pure_def,
        Option.some.injEq] at h
      obtain ⟨s', hs, ss'', hss, rfl⟩ := h
      exact List.rel_append (addMetaReset_leaves regs s s' hs) (addMetaResetList_leaves regs ss ss'' hss)

end

/-- The reset muxes declare nothing. -/
theorem rewrites_declName {regs : List DefRegister} {ss ss' : List Stmt}
    (h : List.Forall₂ (Rewrites regs) ss ss') :
    ss'.filterMap Stmt.declName = ss.filterMap Stmt.declName := by
  induction h with
  | nil => rfl
  | @cons s s' ss ss' hr _ ih =>
      have hn : s'.declName = s.declName := by
        rcases hr.cases with ⟨rfl, _⟩ | ⟨_, _, _, _, rfl, _, _, rfl⟩ <;> rfl
      rw [List.filterMap_cons, List.filterMap_cons, hn, ih]

end InstrReset

/-! ## 5. Statements of the instrumented module -/

namespace Parts

variable {cfg : Config} {C : Circuit} {m mm : Module} (P : Parts cfg C m mm)

/-- The statements the assertion pass adds. -/
def asserts : List Stmt := InstrAssert.addedStmts cfg.order P.info.insts (covModule m P.c P.cov)

/-- The registers the reset pass knows. -/
def regs : List DefRegister :=
  P.info.regs ++ (InstrAssert.newAssertReg cfg.order P.info.insts (covModule m P.c P.cov)).toList

/-- The statements before the reset pass. -/
def old : List Stmt := m.leaves ++ P.cov ++ P.asserts

theorem leavesList_cov : Stmt.leavesList P.cov = P.cov :=
  Stmt.leavesList_of_isLeaf fun s hs =>
    Stmt.isLeaf_of_plain (P.c.addedStmts_plain P.hcov s hs)

theorem leavesList_asserts : Stmt.leavesList P.asserts = P.asserts :=
  Stmt.leavesList_of_isLeaf fun s hs => Stmt.isLeaf_of_plain (InstrAssert.addedStmts_plain s hs)

/-- **The body of the instrumented module**: the old statements with the reset muxes, then the
    resets of the instances. -/
theorem leaves_eq : ∃ L, mm.leaves = L ++ P.info.insts.map InstrReset.resetCon ∧
    List.Forall₂ (InstrReset.Rewrites P.regs) P.old L := by
  have h := InstrReset.addMetaResetList_leaves _ _ _ P.hbody
  refine ⟨Stmt.leavesList P.body, ?_, ?_⟩
  · have hr : Stmt.leavesList (P.info.insts.map InstrReset.resetCon) =
        P.info.insts.map InstrReset.resetCon := by
      refine Stmt.leavesList_of_isLeaf fun s hs => ?_
      obtain ⟨i, _, rfl⟩ := List.mem_map.mp hs
      rfl
    have hmm : mm.leaves = Stmt.leavesList (P.body ++ P.info.insts.map InstrReset.resetCon) :=
      congrArg Module.leaves P.hmm
    rw [hmm, Stmt.leavesList_append, hr]
  · rw [Stmt.leavesList_append, Stmt.leavesList_append, P.leavesList_cov] at h
    have ha := P.leavesList_asserts
    unfold asserts at ha
    rw [ha] at h
    exact h

theorem mem_leaves_of_mem {s : Stmt} (hs : s ∈ P.old)
    (hn : ∀ loc e, s = .connect loc e → ∀ r ∈ P.regs, loc.serialize ≠ some r.name) :
    s ∈ mm.leaves := by
  obtain ⟨L, e, h⟩ := P.leaves_eq
  obtain ⟨s', hs', hr⟩ := Forall₂.mem_left h hs
  rw [e]
  rcases hr.cases with ⟨rfl, _⟩ | ⟨loc, ex, r, w, rfl, hm, hl, _⟩
  · exact List.mem_append_left _ hs'
  · exact absurd hl (hn loc ex rfl r hm)

/-- A connect of a known register is muxed with the reset. -/
theorem mem_leaves_of_reg {loc e : Expr} (hs : .connect loc e ∈ P.old) {r : DefRegister}
    (hr : r ∈ P.regs) (hl : loc.serialize = some r.name) :
    ∃ w, .connect loc (.mux InstrReset.metaReset (.uintLit 0 w) e .unknown) ∈ mm.leaves := by
  obtain ⟨L, eq, h⟩ := P.leaves_eq
  obtain ⟨s', hs', hrw⟩ := Forall₂.mem_left h hs
  rw [eq]
  rcases hrw.cases with ⟨_, hn⟩ | ⟨loc', e', r', w, heq, _, _, rfl⟩
  · exact absurd hl (hn loc e rfl r hr)
  · cases heq
    exact ⟨w, List.mem_append_left _ hs'⟩

theorem mem_leaves_resetCon {i : WDefInstance} (hi : i ∈ P.info.insts) :
    InstrReset.resetCon i ∈ mm.leaves := by
  obtain ⟨L, e, _⟩ := P.leaves_eq
  rw [e]
  exact List.mem_append_right _ (List.mem_map_of_mem hi)

/-- Where a statement of the instrumented module comes from. -/
theorem mem_leaves_inv {s : Stmt} (hs : s ∈ mm.leaves) :
    s ∈ P.old ∨
    (∃ loc e r w, .connect loc e ∈ P.old ∧ r ∈ P.regs ∧ loc.serialize = some r.name ∧
      s = .connect loc (.mux InstrReset.metaReset (.uintLit 0 w) e .unknown)) ∨
    ∃ i ∈ P.info.insts, s = InstrReset.resetCon i := by
  obtain ⟨L, e, h⟩ := P.leaves_eq
  rw [e, List.mem_append, List.mem_map] at hs
  rcases hs with hs | ⟨i, hi, rfl⟩
  · obtain ⟨s₀, hs₀, hr⟩ := Forall₂.mem_right h hs
    rcases hr.cases with ⟨rfl, _⟩ | ⟨loc, ex, r, w, rfl, hm, hl, rfl⟩
    · exact .inl hs₀
    · exact .inr (.inl ⟨loc, ex, r, w, hs₀, hm, hl, rfl⟩)
  · exact .inr (.inr ⟨i, hi, rfl⟩)

/-- Statements other than connects stay as they are. -/
theorem mem_leaves_iff {s : Stmt} (hs : ∀ loc e, s ≠ .connect loc e) :
    s ∈ mm.leaves ↔ s ∈ P.old := by
  constructor
  · intro h
    rcases P.mem_leaves_inv h with h | ⟨loc, e, _, _, _, _, _, he⟩ | ⟨i, _, he⟩
    · exact h
    · exact absurd he (hs _ _)
    · exact absurd he (hs _ _)
  · intro h
    exact P.mem_leaves_of_mem h fun loc e he => absurd he (hs loc e)

theorem mem_old {s : Stmt} : s ∈ P.old ↔ s ∈ m.leaves ∨ s ∈ P.cov ∨ s ∈ P.asserts := by
  unfold old
  rw [List.mem_append, List.mem_append, or_assoc]

theorem cov_plain {s : Stmt} (hs : s ∈ P.cov) : Stmt.plain s = true :=
  P.c.addedStmts_plain P.hcov s hs

theorem asserts_plain {s : Stmt} (hs : s ∈ P.asserts) : Stmt.plain s = true :=
  InstrAssert.addedStmts_plain s hs

/-- The coverage pass adds no `stop`. -/
theorem stops_covModule : (covModule m P.c P.cov).stops = m.stops := by
  have hleaves : (covModule m P.c P.cov).leaves = m.leaves ++ P.cov := by
    show Stmt.leavesList (m.body ++ P.cov) = _
    rw [Stmt.leavesList_append, P.leavesList_cov]
    rfl
  unfold Module.stops
  rw [hleaves, List.filterMap_append]
  refine (congrArg _ (List.filterMap_eq_nil_iff.mpr fun s hs => ?_)).trans (List.append_nil _)
  have hplain := P.cov_plain hs
  cases s <;> first | rfl | cases hplain

include P in
theorem name_eq : mm.name = m.name := by
  rw [P.hmm]

theorem ports_eq : mm.ports = m.ports ++ [P.c.covSumPort] ++ [InstrAssert.assertPort] ++
    [InstrReset.metaResetPort] ++ P.info.insts.map InstrReset.haltPort :=
  congrArg Module.ports P.hmm

include P in
/-- The passes add no instance. -/
theorem mem_insts {i : WDefInstance} : i ∈ mm.insts ↔ i ∈ m.insts := by
  rw [Module.mem_insts, Module.mem_insts, P.mem_leaves_iff (by intro _ _ h; cases h),
    P.mem_old]
  constructor
  · intro hx
    rcases hx with h | h | h
    · exact h
    · cases P.cov_plain h
    · cases P.asserts_plain h
  · exact .inl

theorem mem_info_insts {i : WDefInstance} : i ∈ P.info.insts ↔ i ∈ m.insts := by
  rw [(ofModule_eq_some P.hinfo).1, SetOrder.mem_toSeq, mem_getInstances]

theorem info_insts_nodup : P.info.insts.Nodup := by
  rw [(ofModule_eq_some P.hinfo).1]
  exact SetOrder.nodup_toSeq _ (List.nodup_dedup _)

theorem mem_info_regs (hm : m.declared.Nodup) {r : DefRegister} : r ∈ P.info.regs ↔ r ∈ m.regs := by
  rw [(ofModule_eq_some P.hinfo).2.1, mem_findRegs hm]

theorem mem_c_insts {i : WDefInstance} :
    i ∈ P.c.insts ↔ i ∈ m.insts ∧ i.module ∉ extModules C := by
  rw [(InstrCov.new_eq_some P.hc).2.2.1, SetOrder.mem_toSeq, List.mem_filter, P.mem_info_insts,
    decide_eq_true_iff]

theorem c_insts_nodup : P.c.insts.Nodup := by
  rw [(InstrCov.new_eq_some P.hc).2.2.1]
  exact SetOrder.nodup_toSeq _ (P.info_insts_nodup.filter _)

theorem c_mName : P.c.mName = m.name := (InstrCov.new_eq_some P.hc).1

theorem c_covSumSize : P.c.covSumSize = cfg.covSumSize := (InstrCov.new_eq_some P.hc).2.1

theorem c_regStateSize : P.c.regStateSize ≤ cfg.maxStateSize := (InstrCov.new_eq_some P.hc).2.2.2

/-- The register the reset pass knows besides the old ones is a register of the assertion pass. -/
theorem mem_regs (hm : m.declared.Nodup) {r : DefRegister} (hr : r ∈ P.regs) :
    r ∈ m.regs ∨ (r = InstrAssert.assertReg (covModule m P.c P.cov) ∧
      .defRegister r ∈ P.asserts) := by
  rcases List.mem_append.mp hr with hr | hr
  · exact .inl ((P.mem_info_regs hm).mp hr)
  · right
    unfold InstrAssert.newAssertReg at hr
    split at hr
    · rename_i hcond
      have hr : r = InstrAssert.assertReg (covModule m P.c P.cov) := by simpa using hr
      refine ⟨hr, ?_⟩
      obtain ⟨top, htop⟩ := Option.isSome_iff_exists.mp hcond.2
      refine List.mem_append_right _ ?_
      unfold InstrAssert.conStmts
      simp only [htop, hcond.1, if_true]
      rw [hr]
      exact List.mem_cons_self
    · cases hr

/-- The result of the OR of the assertion pass. -/
def topOr : Option Expr :=
  (InstrAssert.makeOr m.name
    (InstrAssert.orRefs cfg.order P.info.insts (covModule m P.c P.cov)) 0).1

/-- **What drives the assertion port**: nothing, the OR, or the sticky register. -/
theorem asserts_cases :
    (P.topOr = none ∧ .connect (.ref "metaAssert" (.uint 1)) (.uintLit 0 1) ∈ P.asserts ∧
      ∀ r, .defRegister r ∉ P.asserts) ∨
    (∃ top, P.topOr = some top ∧ InstrAssert.hasClockReset (covModule m P.c P.cov) = false ∧
      .connect (.ref "metaAssert" (.uint 1)) top ∈ P.asserts ∧ ∀ r, .defRegister r ∉ P.asserts) ∨
    ∃ top, P.topOr = some top ∧ InstrAssert.hasClockReset (covModule m P.c P.cov) = true ∧
      InstrAssert.assertReg m ∈ P.regs ∧ .defRegister (InstrAssert.assertReg m) ∈ P.asserts ∧
      .connect (.ref (m.name ++ "_metaAssert") (.uint 1))
        (.doPrim2 .or (.ref (m.name ++ "_metaAssert") (.uint 1)) top [] (.uint 1)) ∈ P.asserts ∧
      .connect (.ref "metaAssert" (.uint 1)) (.ref (m.name ++ "_metaAssert") (.uint 1)) ∈ P.asserts ∧
      ∀ r, .defRegister r ∈ P.asserts → r = InstrAssert.assertReg m := by
  have hsub : ∀ s ∈ InstrAssert.conStmts cfg.order P.info.insts (covModule m P.c P.cov),
      s ∈ P.asserts := fun s hs => List.mem_append_right _ hs
  -- a register of the pass stands in the last group of statements
  have hreg : ∀ r, .defRegister r ∈ P.asserts →
      .defRegister r ∈ InstrAssert.conStmts cfg.order P.info.insts (covModule m P.c P.cov) := by
    intro r hr
    unfold asserts InstrAssert.addedStmts at hr
    simp only [List.mem_append, SetOrder.mem_toSeq, List.mem_map, reduceCtorEq, and_false,
      exists_false, false_or] at hr
    rcases hr with hr | hr
    · unfold InstrAssert.makeOr at hr
      split at hr
      · rename_i h
        cases reduceTree_wiring h _ hr
      · cases hr
    · exact hr
  unfold InstrAssert.conStmts at hsub hreg
  have hname : (covModule m P.c P.cov).name = m.name := rfl
  cases htop : P.topOr with
  | none =>
      have htop' := htop
      unfold topOr at htop'
      simp only [hname, htop'] at hsub hreg
      refine .inl ⟨rfl, hsub _ (List.mem_singleton_self _), fun r hr => ?_⟩
      exact absurd (hreg r hr) (by simp)
  | some top =>
      have htop' := htop
      unfold topOr at htop'
      simp only [hname, htop'] at hsub hreg
      cases hcr : InstrAssert.hasClockReset (covModule m P.c P.cov) with
      | false =>
          simp only [hcr, Bool.false_eq_true, if_false] at hsub hreg
          refine .inr (.inl ⟨top, rfl, rfl, hsub _ (List.mem_singleton_self _), fun r hr => ?_⟩)
          exact absurd (hreg r hr) (by simp)
      | true =>
          simp only [hcr, if_true, List.forall_mem_cons] at hsub hreg
          refine .inr (.inr ⟨top, rfl, rfl, List.mem_append_right _ ?_, hsub.1, hsub.2.1,
            hsub.2.2.1, fun r hr => ?_⟩)
          · unfold InstrAssert.newAssertReg
            rw [hname, if_pos ⟨hcr, by rw [htop']; rfl⟩]
            exact List.mem_singleton_self _
          · have h : r = InstrAssert.assertReg (covModule m P.c P.cov) := by simpa using hreg r hr
            exact h

/-- **The declared names**: those of the module, the ports, and those of the added statements. -/
theorem declared_eq : mm.declared =
    m.ports.map (·.name) ++ "io_covSum" :: "metaAssert" :: "metaReset" ::
      P.info.insts.map InstrReset.haltName ++
    (m.leaves.filterMap Stmt.declName ++ P.cov.filterMap Stmt.declName ++
      P.asserts.filterMap Stmt.declName) := by
  obtain ⟨L, e, h⟩ := P.leaves_eq
  have hreset : (P.info.insts.map InstrReset.resetCon).filterMap Stmt.declName = [] := by
    rw [List.filterMap_map]
    exact List.filterMap_eq_nil_iff.mpr fun i _ => rfl
  unfold Module.declared
  rw [e, List.filterMap_append, InstrReset.rewrites_declName h, hreset, P.ports_eq, List.append_nil]
  simp only [old, List.filterMap_append, List.map_append, List.map_cons, List.map_map,
    List.append_assoc, List.cons_append, List.nil_append]
  rfl

end Parts

/-! ## 6. Instances -/

section Inst

variable {cfg : Config} {C C' : Circuit} (h : execute cfg C = some C')

include h

theorem inst_of_inst {p : Path} {d : DefModule} (hp : C.Inst p d) :
    ∃ d', C'.Inst p d' ∧ Instrumented cfg C d d' := by
  induction hp with
  | top hf =>
      obtain ⟨d', hf', hi⟩ := find_of_find h hf
      rw [← (execute_forall₂ cfg h).1] at hf'
      exact ⟨d', .top hf', hi⟩
  | @sub p m i d hp hi hf ih =>
      obtain ⟨_, hp', hins⟩ := ih
      obtain ⟨mm, rfl, ⟨P⟩⟩ := parts_of_instrumented hins
      obtain ⟨d', hf', hd⟩ := find_of_find h hf
      exact ⟨d', .sub hp' (P.mem_insts.mpr hi) hf', hd⟩

theorem inst_of_inst' {p : Path} {d' : DefModule} (hp : C'.Inst p d') :
    ∃ d, C.Inst p d ∧ Instrumented cfg C d d' := by
  induction hp with
  | top hf =>
      rw [(execute_forall₂ cfg h).1] at hf
      obtain ⟨d, hf', hi⟩ := find_of_find' h hf
      exact ⟨d, .top hf', hi⟩
  | @sub p mm i d' hp hi hf ih =>
      obtain ⟨d, hp', hins⟩ := ih
      cases d with
      | ext e => cases ext_of_instrumented hins
      | module m =>
          obtain ⟨mm', e, ⟨P⟩⟩ := parts_of_instrumented hins
          cases e
          obtain ⟨d₁, hf', hd⟩ := find_of_find' h hf
          exact ⟨d₁, .sub hp' (P.mem_insts.mp hi) hf', hd⟩

/-- The instances of the two circuits correspond, path by path. -/
theorem parts_of_inst {p : Path} {m : Module} (hp : C.Inst p (.module m)) :
    ∃ mm, C'.Inst p (.module mm) ∧ Nonempty (Parts cfg C m mm) := by
  obtain ⟨d', hp', hins⟩ := inst_of_inst h hp
  obtain ⟨mm, rfl, hP⟩ := parts_of_instrumented hins
  exact ⟨mm, hp', hP⟩

theorem parts_of_inst' {p : Path} {mm : Module} (hp : C'.Inst p (.module mm)) :
    ∃ m, C.Inst p (.module m) ∧ Nonempty (Parts cfg C m mm) := by
  obtain ⟨d, hp', hins⟩ := inst_of_inst' h hp
  cases d with
  | ext e => cases ext_of_instrumented hins
  | module m =>
      obtain ⟨mm', e, hP⟩ := parts_of_instrumented hins
      cases e
      exact ⟨m, hp', hP⟩

end Inst

/-! ## 7. What the added connects drive -/

/-- The statements declare the name. -/
def Declares (ss : List Stmt) (n : String) : Prop := ∃ s ∈ ss, s.declName = some n

theorem mem_filterMap_declName {ss : List Stmt} {n : String} :
    n ∈ ss.filterMap Stmt.declName ↔ Declares ss n := List.mem_filterMap

theorem Declares.mono {ss ts : List Stmt} (h : ∀ s ∈ ss, s ∈ ts) {n : String}
    (hn : Declares ss n) : Declares ts n := by
  obtain ⟨s, hs, e⟩ := hn
  exact ⟨s, h s hs, e⟩

/-- The wiring drives the wires it declares. -/
theorem reduceTree_targets {op : PrimOp} {width : Nat} {wire : Nat → String} {fuel : Nat}
    {refs : List Expr} {id : Nat} {r : Expr} {ss : List Stmt}
    (h : reduceTree op width wire fuel refs id = some (r, ss)) :
    ∀ loc e, .connect loc e ∈ ss → ∃ n t, loc = .ref n t ∧ .defWire n t ∈ ss := by
  refine reduceTree_ind (P := fun _ _ _ ss => ∀ loc e, .connect loc e ∈ ss →
    ∃ n t, loc = .ref n t ∧ .defWire n t ∈ ss) ?_ ?_ ?_ h
  · intro r id loc e hs
    cases hs
  · intro a b id loc e hs
    simp only [List.mem_cons, reduceCtorEq, Stmt.connect.injEq, List.not_mem_nil, or_false,
      false_or] at hs
    exact ⟨_, _, hs.1, List.mem_cons_self⟩
  · intro refs id r₁ s₁ r₂ s₂ _ h₁ h₂ loc e hs
    simp only [List.mem_append, List.mem_cons, reduceCtorEq, Stmt.connect.injEq, List.not_mem_nil,
      or_false, false_or] at hs
    rcases hs with (hs | hs) | hs
    · obtain ⟨n, t, e, hd⟩ := h₁ loc e hs
      exact ⟨n, t, e, by simp [hd]⟩
    · obtain ⟨n, t, e, hd⟩ := h₂ loc e hs
      exact ⟨n, t, e, by simp [hd]⟩
    · exact ⟨_, _, hs.1, by simp⟩

namespace InstrCov

variable (c : InstrCov)

theorem makeSum_targets (insts : List WDefInstance) (r : Expr) :
    ∀ loc e, .connect loc e ∈ c.makeSum insts r →
      ∃ n t, loc = .ref n t ∧ (n = "io_covSum" ∨ Declares (c.makeSum insts r) n) := by
  induction insts generalizing r with
  | nil =>
      intro loc e hs
      rw [makeSum, List.mem_singleton, Stmt.connect.injEq] at hs
      exact ⟨_, _, hs.1, .inl rfl⟩
  | cons i insts ih =>
      intro loc e hs
      simp only [makeSum, List.mem_cons, reduceCtorEq, Stmt.connect.injEq, false_or] at hs
      rcases hs with ⟨h, _⟩ | hs
      · exact ⟨_, _, h, .inr ⟨_, List.mem_cons_self, rfl⟩⟩
      · obtain ⟨n, t, h, hn⟩ := ih _ loc e hs
        refine ⟨n, t, h, hn.imp id fun hd => hd.mono fun s hs => ?_⟩
        exact List.mem_cons_of_mem _ (List.mem_cons_of_mem _ hs)

theorem stateConnect_targets {ss : List Stmt} (h : c.stateConnect = some ss) :
    ∀ loc e, .connect loc e ∈ ss →
      ∃ n t, loc = .ref n t ∧ (n = c.regStateName ∨ Declares ss n) := by
  simp only [stateConnect, makeOffset, Option.bind_eq_bind, Option.bind_eq_some_iff,
    Option.map_eq_some_iff, Option.pure_def, Option.some.injEq] at h
  obtain ⟨_, ⟨l, hl, rfl⟩, ⟨top, xors⟩, hx, rfl⟩ := h
  intro loc e hs
  simp only [List.mem_append, List.mem_singleton, Stmt.connect.injEq] at hs
  rcases hs with ((hs | hs) | hs) | hs
  · simp only [tmpStmts, List.mem_flatMap, List.mem_cons, reduceCtorEq, Stmt.connect.injEq,
      List.not_mem_nil, or_false, false_or] at hs
    obtain ⟨x, hx, h, _⟩ := hs
    refine ⟨_, _, h, .inr ⟨.defWire _ (.uint 1), ?_, rfl⟩⟩
    simp only [tmpStmts, List.mem_append, List.mem_flatMap, List.mem_cons]
    exact .inl (.inl (.inl ⟨x, hx, .inl rfl⟩))
  · obtain ⟨x, hx, hs⟩ := List.mem_flatMap.mp hs
    obtain ⟨t, _, ht⟩ := Forall₂.mem_right (forall₂_of_mapM hl) hx
    rw [Option.map_eq_some_iff] at ht
    obtain ⟨y, _, rfl⟩ := ht
    have hsub : ∀ s ∈ c.offsetStmts y.1 y.2.1 y.2.2 t.2, s ∈ (c.tmpStmts ++ l.flatMap (·.2) ++ xors ++
        [Stmt.connect (.ref c.regStateName (.uint c.regStateSize)) top]) := by
      intro s hs
      simp only [List.mem_append, List.mem_flatMap]
      exact .inl (.inl (.inr ⟨_, hx, hs⟩))
    simp only [offsetStmts, List.mem_cons, reduceCtorEq, Stmt.connect.injEq, List.not_mem_nil,
      or_false, false_or] at hs
    rcases hs with ⟨h, _⟩ | ⟨h, _⟩
    · exact ⟨_, _, h, .inr ⟨.defWire _ _, hsub _ (by simp only [offsetStmts, List.mem_cons]; exact .inl rfl), rfl⟩⟩
    · exact ⟨_, _, h, .inr ⟨.defWire _ _, hsub _ (by
        simp only [offsetStmts, List.mem_cons]; exact .inr (.inr (.inl rfl))), rfl⟩⟩
  · obtain ⟨n, t, h, hd⟩ := reduceTree_targets hx loc e hs
    refine ⟨n, t, h, .inr ⟨.defWire n t, ?_, rfl⟩⟩
    simp only [List.mem_append]
    exact .inl (.inr hd)
  · exact ⟨_, _, hs.1, .inl rfl⟩

/-- A connect of the coverage pass drives a name the pass declares, its port, or a field of the
    coverage map. -/
theorem addedStmts_targets {m : Module} {ss : List Stmt} (h : c.addedStmts m = some ss) :
    ∀ loc e, .connect loc e ∈ ss →
      (∃ n t, loc = .ref n t ∧ (n = "io_covSum" ∨ Declares ss n)) ∨
      ∃ port field t, loc = c.covField port field t := by
  have hno : ∀ loc e, .connect loc e ∈ addedStmts.noCoverage c →
      ∃ n t, loc = .ref n t ∧ (n = "io_covSum" ∨ Declares (addedStmts.noCoverage c) n) := by
    intro loc e hs
    simp only [addedStmts.noCoverage, List.mem_append, List.mem_cons, reduceCtorEq,
      Stmt.connect.injEq, List.not_mem_nil, or_false, false_or] at hs
    rcases hs with ⟨h, _⟩ | hs
    · exact ⟨_, _, h, .inr ⟨_, List.mem_cons_self, rfl⟩⟩
    · obtain ⟨n, t, h, hn⟩ := c.makeSum_targets _ _ loc e hs
      exact ⟨n, t, h, hn.imp id fun hd => hd.mono fun s hs => List.mem_append_right _ hs⟩
  rcases addedStmts_cases h with ⟨clock, st, _, _, hst, rfl⟩ | ⟨_, rfl⟩
  · intro loc e hs
    simp only [List.mem_append, List.mem_cons, List.not_mem_nil, or_false, readConnect,
      writeConnect, reduceCtorEq, Stmt.connect.injEq, false_or] at hs
    rcases hs with ((hs | hs) | hs) | hs
    · obtain ⟨n, t, h, hn⟩ := c.stateConnect_targets hst loc e hs
      refine .inl ⟨n, t, h, .inr ?_⟩
      rcases hn with rfl | hd
      · exact ⟨.defRegister (c.regState clock), by simp, rfl⟩
      · exact hd.mono fun s hs => by simp [hs]
    · rcases hs with hs | hs | hs | hs
      · exact .inr ⟨_, _, _, hs.1⟩
      · exact .inr ⟨_, _, _, hs.1⟩
      · exact .inr ⟨_, _, _, hs.1⟩
      · exact .inl ⟨_, _, hs.1, .inr ⟨.defRegister (c.covSum clock), by simp, rfl⟩⟩
    · rcases hs with hs | hs | hs | hs | hs <;> exact .inr ⟨_, _, _, hs.1⟩
    · obtain ⟨n, t, h, hn⟩ := c.makeSum_targets _ _ loc e hs
      exact .inl ⟨n, t, h, hn.imp id fun hd => hd.mono fun s hs => List.mem_append_right _ hs⟩
  · exact fun loc e hs => .inl (hno loc e hs)

end InstrCov

namespace InstrAssert

/-- A connect of the assertion pass drives a name the pass declares or its port. -/
theorem addedStmts_targets {σ : SetOrder} {insts : List WDefInstance} {m : Module} :
    ∀ loc e, .connect loc e ∈ addedStmts σ insts m →
      ∃ n t, loc = .ref n t ∧ (n = "metaAssert" ∨ Declares (addedStmts σ insts m) n) := by
  intro loc e hs
  have hs' := hs
  simp only [addedStmts, List.mem_append, SetOrder.mem_toSeq, List.mem_map, reduceCtorEq,
    and_false, exists_false, false_or, Stmt.connect.injEq] at hs'
  rcases hs' with (⟨i, hi, h, _⟩ | hs') | hs'
  · refine ⟨_, _, h.symm, .inr ⟨.defWire (wireName i) (.uint 1), ?_, rfl⟩⟩
    simp only [addedStmts, List.mem_append, SetOrder.mem_toSeq, List.mem_map]
    exact .inl (.inl (.inl (.inr ⟨i, hi, rfl⟩)))
  · have hor : ∀ {ss}, (makeOr m.name (orRefs σ insts m) 0).2 = ss →
        ∀ s ∈ ss, s ∈ addedStmts σ insts m := by
      intro ss e s hs
      simp only [addedStmts, List.mem_append, e]
      exact .inl (.inr hs)
    unfold makeOr at hs' hor
    split at hs'
    · rename_i r ss he
      obtain ⟨n, t, h, hd⟩ := reduceTree_targets he loc e hs'
      rw [he] at hor
      exact ⟨n, t, h, .inr ⟨_, hor rfl _ hd, rfl⟩⟩
    · cases hs'
  · have hcon : ∀ s ∈ conStmts σ insts m, s ∈ addedStmts σ insts m :=
      fun s hs => List.mem_append_right _ hs
    unfold conStmts at hs' hcon
    simp only at hs' hcon
    split at hs'
    · rename_i top htop
      simp only [htop] at hcon
      split at hs'
      · rename_i hcr
        rw [if_pos hcr] at hcon
        simp only [List.mem_cons, reduceCtorEq, Stmt.connect.injEq, List.not_mem_nil, or_false,
          false_or] at hs'
        rcases hs' with ⟨h, _⟩ | ⟨h, _⟩
        · exact ⟨_, _, h, .inr ⟨_, hcon _ List.mem_cons_self, rfl⟩⟩
        · exact ⟨_, _, h, .inl rfl⟩
      · rw [List.mem_singleton, Stmt.connect.injEq] at hs'
        exact ⟨_, _, hs'.1, .inl rfl⟩
    · rw [List.mem_singleton, Stmt.connect.injEq] at hs'
      exact ⟨_, _, hs'.1, .inl rfl⟩

end InstrAssert

/-! ## 8. Fresh names -/

/-- The generated names are fresh: no module of the instrumented circuit declares a name twice. -/
def Fresh (C' : Circuit) : Prop := ∀ mm, .module mm ∈ C'.modules → mm.declared.Nodup

namespace Parts

variable {cfg : Config} {C : Circuit} {m mm : Module} (P : Parts cfg C m mm)

section Legal

variable (hL : LowForm C) (hm : .module m ∈ C.modules) (hf : mm.declared.Nodup)

include hL hm

theorem mem_regs_iff_user {r : DefRegister} (hr : r ∈ P.regs) :
    r ∈ m.regs ∨ r = InstrAssert.assertReg (covModule m P.c P.cov) :=
  (P.mem_regs (hL.modules m hm).nodup hr).imp id And.left

/-- The names the reset pass looks for have no dot. -/
theorem regs_no_dot {r : DefRegister} (hr : r ∈ P.regs) : '.' ∉ r.name.toList := by
  rcases P.mem_regs_iff_user hL hm hr with hr | rfl
  · refine ((hL.modules m hm).legal r.name ?_).2.1
    exact List.mem_append_right _ (List.mem_filterMap.mpr ⟨_, Module.mem_regs.mp hr, rfl⟩)
  · have hmn : '.' ∉ m.name.toList := (hL.legal _ hm).2.1
    show '.' ∉ (m.name ++ "_metaAssert").toList
    rw [String.toList_append, List.mem_append]
    intro hx
    rcases hx with h | h
    · exact hmn h
    · exact absurd h (by decide)

include hf

/-- A name that the coverage pass declares, or its port, is no register the reset pass knows. -/
theorem cov_name_ne {r : DefRegister} (hr : r ∈ P.regs) {n : String}
    (hn : n = "io_covSum" ∨ Declares P.cov n) : n ≠ r.name := by
  rw [P.declared_eq] at hf
  have hr' : r.name ∈ m.leaves.filterMap Stmt.declName ∨
      r.name ∈ P.asserts.filterMap Stmt.declName := by
    rcases P.mem_regs (hL.modules m hm).nodup hr with hr | ⟨_, hr⟩
    · exact .inl (List.mem_filterMap.mpr ⟨_, Module.mem_regs.mp hr, rfl⟩)
    · exact .inr (List.mem_filterMap.mpr ⟨_, hr, rfl⟩)
  obtain ⟨_, hd, hports⟩ := List.nodup_append.mp hf
  obtain ⟨hmc, _, hca⟩ := List.nodup_append.mp hd
  intro e
  rcases hn with rfl | hn
  · refine hports "io_covSum" (by simp) r.name ?_ e
    simp only [List.mem_append]
    exact hr'.elim (fun h => .inl (.inl h)) .inr
  · have hn := mem_filterMap_declName.mpr hn
    rcases hr' with hr' | hr'
    · exact (List.nodup_append.mp hmc).2.2 _ hr' _ hn e.symm
    · exact hca _ (List.mem_append_right _ hn) _ hr' e

omit hL hm in
/-- A name that the assertion pass declares, or its port, is no register of the module. -/
theorem assert_name_ne {r : DefRegister} (hr : r ∈ m.regs) {n : String}
    (hn : n = "metaAssert" ∨ Declares P.asserts n) : n ≠ r.name := by
  rw [P.declared_eq] at hf
  have hr' : r.name ∈ m.leaves.filterMap Stmt.declName :=
    List.mem_filterMap.mpr ⟨_, Module.mem_regs.mp hr, rfl⟩
  obtain ⟨_, hd, hports⟩ := List.nodup_append.mp hf
  intro e
  rcases hn with rfl | hn
  · refine hports "metaAssert" (by simp) r.name ?_ e
    simp only [List.mem_append]
    exact .inl (.inl hr')
  · exact (List.nodup_append.mp hd).2.2 _ (List.mem_append_left _ hr') _
      (mem_filterMap_declName.mpr hn) e.symm

/-- **The coverage logic is not touched by the reset pass.** -/
theorem mem_leaves_of_cov {s : Stmt} (hs : s ∈ P.cov) : s ∈ mm.leaves := by
  refine P.mem_leaves_of_mem (P.mem_old.mpr (.inr (.inl hs))) fun loc e he r hr hser => ?_
  subst he
  obtain ⟨t, rfl⟩ := ref_of_serialize hser (P.regs_no_dot hL hm hr)
  rcases P.c.addedStmts_targets P.hcov _ _ hs with ⟨n, t', h, hn⟩ | ⟨port, field, t', h⟩
  · cases h
    exact P.cov_name_ne hL hm hf hr hn rfl
  · cases h

/-- Of the assertion logic, only the connect of the sticky register is muxed. -/
theorem mem_leaves_of_assert {s : Stmt} (hs : s ∈ P.asserts)
    (hn : ∀ loc e, s = .connect loc e → loc.serialize ≠ some (m.name ++ "_metaAssert")) :
    s ∈ mm.leaves := by
  refine P.mem_leaves_of_mem (P.mem_old.mpr (.inr (.inr hs))) fun loc e he r hr hser => ?_
  rcases P.mem_regs_iff_user hL hm hr with hu | rfl
  · subst he
    obtain ⟨n, t, rfl, hd⟩ := InstrAssert.addedStmts_targets _ _ hs
    cases hser
    exact P.assert_name_ne hf hu hd rfl
  · exact hn loc e he hser

end Legal

end Parts

end Difuzz.Coverage
