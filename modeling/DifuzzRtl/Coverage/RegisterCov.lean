/-
  File:      DifuzzRtl/Coverage/RegisterCov.lean
  Subject:   The assertion pass (coverage/InstrAssert.scala), the reset pass
             (coverage/InstrReset.scala) and the transform that runs all three
             (`regCoverage.execute` of coverage/registerCov.scala).

  * `InstrAssert` -- a `metaAssert` output: the OR of the enables of the module's `stop`
    statements and of the `metaAssert` outputs below, held in a sticky register when the module
    has a clock and a reset.
  * `InstrReset` -- a `metaReset` input that is muxed into every connect of a register the
    module had before, and of the sticky register, and that is handed to every instance.
  * `execute` -- analysis of every module, then the passes one after the other.
  * `instrModule`, `execute_forall₂` -- the three passes on one module, and that `execute`
    does this to every module.
-/
import DifuzzRtl.Coverage.InstrCov

namespace Difuzz.Coverage

open Firrtl

/-! ## 1. The assertion pass -/

namespace InstrAssert

/-- `hasClockAndReset`: the names of the clock port and of the last port with "reset" in its
    name. -/
def clockAndReset (m : Module) : Option String × Option String :=
  m.ports.foldl (fun acc p =>
    if p.name = "clock" then (some p.name, acc.2)
    else if "reset".toList <:+: p.name.toList then (acc.1, some p.name)
    else acc) (none, none)

def hasClockReset (m : Module) : Bool :=
  (clockAndReset m).1.isSome && (clockAndReset m).2.isSome

def stopEnName (i : Nat) : String := "stopEn" ++ toString i

def wireName (i : WDefInstance) : String := i.name ++ "_metaAssert_wire"

/-- One node for the enable of each stop. -/
def stopEns (m : Module) : List (String × Expr) :=
  m.stops.zipIdx.map fun x => (stopEnName x.2, x.1.en)

/-- `makeOr`: without operand there is no result. -/
def makeOr (mName : String) (refs : List Expr) (id : Nat) : Option Expr × List Stmt :=
  match reduceTree .or 1 (fun i => mName ++ "_or" ++ toString i) refs.length refs id with
  | some (r, ss) => (some r, ss)
  | none => (none, [])

def assertReg (m : Module) : DefRegister := addedRegister .noInfo (m.name ++ "_metaAssert") 1 "clock"

def assertPort : Port := ⟨"metaAssert", .output, .uint 1⟩

variable (σ : SetOrder) (insts : List WDefInstance) (m : Module)

/-- The operands of the OR: the enables, then the wires of the instances. -/
def orRefs : List Expr :=
  (stopEns m).map (fun x => .ref x.1 x.2.tpe) ++
  σ.toSeq (insts.map fun i => .ref (wireName i) (.uint 1))

/-- The register is added when the module has a clock and a reset and there is something to
    hold. -/
def newAssertReg : Option DefRegister :=
  if hasClockReset m ∧ (makeOr m.name (orRefs σ insts m) 0).1.isSome then some (assertReg m)
  else none

/-- What drives the port. -/
def conStmts : List Stmt :=
  let port := Expr.ref "metaAssert" (.uint 1)
  match (makeOr m.name (orRefs σ insts m) 0).1 with
  | some top =>
      if hasClockReset m then
        let reg := Expr.ref (m.name ++ "_metaAssert") (.uint 1)
        [.defRegister (assertReg m), .connect reg (.doPrim2 .or reg top [] (.uint 1)),
         .connect port reg]
      else [.connect port top]
  | none => [.connect port (.uintLit 0 1)]

def addedStmts : List Stmt :=
  (stopEns m).map (fun x => .defNode x.1 x.2) ++
  σ.toSeq (insts.map fun i => .defWire (wireName i) (.uint 1)) ++
  σ.toSeq (insts.map fun i => .connect (.ref (wireName i) (.uint 1))
    (.subField (.ref i.name .unknown) "metaAssert" .unknown)) ++
  (makeOr m.name (orRefs σ insts m) 0).2 ++ conStmts σ insts m

/-- `instrument`: external modules stay. The second component is what `mInfo.assertReg` is set
    to. -/
def instrument : DefModule → DefModule × Option DefRegister
  | .ext e => (.ext e, none)
  | .module m =>
      (.module { m with ports := m.ports ++ [assertPort], body := m.body ++ addedStmts σ insts m },
       newAssertReg σ insts m)

end InstrAssert

/-! ## 2. The reset pass -/

namespace InstrReset

def metaReset : Expr := .ref "metaReset" (.uint 1)

def haltName (i : WDefInstance) : String := i.name ++ "_halt"

mutual

/-- `addMetaReset`: a connect of a known register goes through a mux. A register of other than
    integer type throws. -/
def addMetaReset (regs : List DefRegister) : Stmt → Option Stmt
  | .block ss => (addMetaResetList regs ss).map .block
  | .connect loc e =>
      match regs.find? fun r => loc.serialize = some r.name with
      | some r => (regWidth? r).map fun w => .connect loc (.mux metaReset (.uintLit 0 w) e .unknown)
      | none => some (.connect loc e)
  | s => some s

def addMetaResetList (regs : List DefRegister) : List Stmt → Option (List Stmt)
  | [] => some []
  | s :: ss => do
      let s' ← addMetaReset regs s
      let ss' ← addMetaResetList regs ss
      return s' :: ss'

end

def metaResetPort : Port := ⟨"metaReset", .input, .uint 1⟩

def haltPort (i : WDefInstance) : Port := ⟨haltName i, .input, .uint 1⟩

/-- The reset of an instance: the module's own, or its halt input. -/
def resetCon (i : WDefInstance) : Stmt :=
  .connect (.subField (.ref i.name .unknown) "metaReset" .unknown)
    (.doPrim2 .or metaReset (.ref (haltName i) (.uint 1)) [] (.uint 1))

/-- `instrument`: external modules stay. -/
def instrument (mInfo : ModuleInfo) : DefModule → Option DefModule
  | .ext e => some (.ext e)
  | .module m =>
      (addMetaResetList (mInfo.regs ++ mInfo.assertReg.toList) m.body).map fun body =>
        .module { m with
          ports := m.ports ++ [metaResetPort] ++ mInfo.insts.map haltPort
          body := body ++ mInfo.insts.map resetCon }

end InstrReset

/-! ## 3. The transform -/

/-- The parameters of `InstrCov` and what the run decides: iteration orders and, for each
    module, the random numbers drawn. -/
structure Config where
  maxStateSize : Nat := 20
  covSumSize : Nat := 30
  order : SetOrder
  rnd : String → Nat → Nat

section Execute

variable (cfg : Config)

def covPass (info : ModuleInfo) (extModules : List String) (m : DefModule) : Option DefModule := do
  let c ← InstrCov.new cfg.order info cfg.maxStateSize (cfg.rnd m.name) m.name extModules
    cfg.covSumSize
  c.instrument m

/-- The three passes on one module. -/
def instrModule (info : ModuleInfo) (extModules : List String) (m : DefModule) :
    Option DefModule := do
  let m₁ ← covPass cfg info extModules m
  let (m₂, reg) := InstrAssert.instrument cfg.order info.insts m₁
  InstrReset.instrument { info with assertReg := reg } m₂

def extModules (C : Circuit) : List String := (C.modules.filter (·.isExt)).map (·.name)

/-- `regCoverage.execute`. -/
def execute (C : Circuit) : Option Circuit := do
  let infos ← C.modules.mapM (ModuleInfo.ofModule cfg.order)
  let moduleInfos := infos.zip C.modules
  let instrCircuit ← moduleInfos.mapM fun x => (covPass cfg x.1 (extModules C) x.2).map (x.1, ·)
  let assertCircuit := instrCircuit.map fun x =>
    (x.1, InstrAssert.instrument cfg.order x.1.insts x.2)
  let metaResetCircuit ← assertCircuit.mapM fun x =>
    InstrReset.instrument { x.1 with assertReg := x.2.2 } x.2.1
  return { C with modules := metaResetCircuit }

/-- What `execute` does to each module: the three passes, with the module's own record. -/
structure Instrumented (C : Circuit) (m m' : DefModule) : Prop where
  info : ∃ info, ModuleInfo.ofModule cfg.order m = some info ∧
    instrModule cfg info (extModules C) m = some m'

theorem execute_forall₂ {C C' : Circuit} (h : execute cfg C = some C') :
    C'.main = C.main ∧ List.Forall₂ (Instrumented cfg C) C.modules C'.modules := by
  unfold execute at h
  simp only [Option.bind_eq_bind, Option.bind_eq_some_iff, Option.pure_def, Option.some.injEq] at h
  obtain ⟨infos, hi, cov, hc, ms, hr, rfl⟩ := h
  refine ⟨rfl, ?_⟩
  have hi := forall₂_of_mapM hi
  have hc := forall₂_of_mapM hc
  have hr := forall₂_of_mapM hr
  rw [List.forall₂_map_left_iff] at hr
  clear * - hi hc hr
  generalize hms : C.modules = l at hi hc ⊢
  clear hms
  -- the four lists have the same length, and the passes pair them up position by position
  induction hi generalizing cov ms with
  | nil =>
      simp at hc
      subst hc
      cases hr
      exact .nil
  | @cons m info l infos hm _ ih =>
      rw [List.zip_cons_cons] at hc
      obtain ⟨x, cov', hx, hc', rfl⟩ := List.forall₂_cons_left_iff.mp hc
      obtain ⟨m', ms', hm', hr', rfl⟩ := List.forall₂_cons_left_iff.mp hr
      rw [Option.map_eq_some_iff] at hx
      obtain ⟨m₁, h₁, rfl⟩ := hx
      refine .cons ⟨info, hm, ?_⟩ (ih _ _ hr' hc')
      simp only [instrModule, h₁, Option.bind_eq_bind, Option.bind_some]
      exact hm'

end Execute

end Difuzz.Coverage
