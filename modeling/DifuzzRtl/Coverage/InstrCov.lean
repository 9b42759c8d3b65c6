/-
  File:      DifuzzRtl/Coverage/InstrCov.lean
  Subject:   The coverage pass (coverage/InstrCov.scala): which control registers and mux selects
             are tracked, where they sit in the state word, and the statements that are added.

  * `Selection` -- the filters of the constructor, each a function of the module record and the
    maximal state size: `largeRegs`, `smallRegs`, `scalaRegs`, `vectorRegs`, `ctrlSigs`,
    `coveredMuxSrcs`, `optRegs`, `unCoveredCtrlSigs`, `firstVecRegs`.
  * `getRegState` -- offsets, side by side when the state word is wide enough, else random.
  * `InstrCov.new` -- the constructor, up to `allOffsets`. It throws (`none`) where the source
    does.
  * `stateConnect`, `readConnect`, `writeConnect`, `makeSum`, `instrument` -- the added logic.
  * `reduceTree` -- the divide-and-conquer wiring that `makeXor` here and `makeOr` of the
    assertion pass share.
-/
import DifuzzRtl.Coverage.GraphLedger

namespace Difuzz.Coverage

open Firrtl

/-- A tracked signal: a register or a mux select. -/
inductive CtrlNode where
  | reg (r : DefRegister)
  | expr (e : Expr)
  deriving DecidableEq

/-- `regWidth`: registers of other than integer type make it throw. -/
def regWidth? (r : DefRegister) : Option Nat :=
  match r.tpe with
  | .uint w => some w
  | .sint w => some w
  | _ => none

def regWidth (r : DefRegister) : Nat := (regWidth? r).getD 0

/-! ## 1. Which signals are tracked -/

namespace Selection

variable (mInfo : ModuleInfo) (maxStateSize : Nat)

/-- Registers that take inputs directly; narrow ones stay. -/
def dirInRegs : List DefRegister := mInfo.dirInRegs.filter fun r => 3 < regWidth r

/-- The names prefix + index + body of all vectors. -/
def vecRegNames : List String :=
  (mInfo.vecRegs.flatMap fun t =>
    ((List.range t.1).flatMap fun x => t.2.2.map (toString x ++ ·)).map (t.2.1 ++ ·)).dedup

def ctrlRegs : List DefRegister := mInfo.ctrlRegs.filter fun r => r ∉ dirInRegs mInfo

def largeRegs : List DefRegister := (ctrlRegs mInfo).filter fun r => maxStateSize ≤ regWidth r

def smallRegs : List DefRegister := (ctrlRegs mInfo).filter fun r => regWidth r < maxStateSize

def scalaRegs : List DefRegister :=
  (smallRegs mInfo maxStateSize).filter fun r => r.name ∉ vecRegNames mInfo

def vectorRegs : List DefRegister :=
  (smallRegs mInfo maxStateSize).filter fun r => r.name ∈ vecRegNames mInfo

/-- The selects of the muxes that a register feeds. -/
def sinkConds (r : DefRegister) : List Expr :=
  (mInfo.muxSrcs.entries.filter fun t => r.name ∈ t.2).map fun t => t.1.cond

/-- A scalar register is tracked itself when it feeds at least as many selects as it has bits. -/
def isOpt (r : DefRegister) : Bool := decide (regWidth r ≤ (sinkConds mInfo r).dedup.length)

def coveredMuxSrcs : List Expr := (smallRegs mInfo maxStateSize).flatMap (sinkConds mInfo)

def ctrlSigs : List Expr :=
  (((largeRegs mInfo maxStateSize) ++
    (scalaRegs mInfo maxStateSize).filter fun r => !isOpt mInfo r).flatMap (sinkConds mInfo)).dedup

section Order

variable (σ : SetOrder)

def optRegs : List DefRegister :=
  (σ.toSeq (scalaRegs mInfo maxStateSize)).filter (isOpt mInfo)

def unCoveredCtrlSigs : List Expr :=
  (σ.toSeq (ctrlSigs mInfo maxStateSize)).filter fun e => e ∉ coveredMuxSrcs mInfo maxStateSize

/-- The first elements of a vector, one for each body found among the vector registers. -/
def firstRegs (t : Nat × String × List String) : List DefRegister :=
  (t.2.2.filterMap fun body =>
    (vectorRegs mInfo maxStateSize).find? fun r => r.name == t.2.1 ++ "0" ++ body).dedup

/-- `firstVecRegs`, a map from (prefix, size). -/
def firstVecRegs : Dict (String × Nat) (List DefRegister) :=
  Dict.ofList (σ.toSeq
    (mInfo.vecRegs.map fun t => ((t.2.1, t.1), firstRegs mInfo maxStateSize t)).dedup)

/-- All first elements. -/
def firstVecSet : List DefRegister := (firstVecRegs mInfo maxStateSize σ).values.flatten.dedup

end Order

end Selection

/-! ## 2. Offsets -/

/-- Offsets side by side. -/
def tileOffsets : Nat → List (CtrlNode × Nat) → List (CtrlNode × Nat)
  | _, [] => []
  | off, (c, w) :: cs => (c, off) :: tileOffsets (off + w) cs

/-- `rand.nextInt(bound)` for call `i`: any number below the bound; a bound of 0 throws. -/
def nextInt (rnd : Nat → Nat) (i bound : Nat) : Option Nat :=
  if bound = 0 then none else some (rnd i % bound)

/-- Random offsets; the bound is `maxStateSize - width + 1` and must be positive. -/
def randomOffsets (rnd : Nat → Nat) (maxStateSize : Nat) :
    Nat → List (CtrlNode × Nat) → Option (List (CtrlNode × Nat))
  | _, [] => some []
  | i, (c, w) :: cs => do
      let off ← nextInt rnd i (maxStateSize + 1 - w)
      let rest ← randomOffsets rnd maxStateSize (i + 1) cs
      return (c, off) :: rest

/-- `getRegState`: total width, state width and offsets. -/
def getRegState (rnd : Nat → Nat) (maxStateSize : Nat) (regs : List DefRegister)
    (ctrls : List Expr) : Option (Nat × Nat × List (CtrlNode × Nat)) :=
  let zipWidth := regs.map (fun r => (CtrlNode.reg r, regWidth r)) ++
    ctrls.map (fun e => (CtrlNode.expr e, 1))
  let totBitWidth := (zipWidth.map (·.2)).sum
  if totBitWidth = 0 then some (totBitWidth, 0, [])
  else if totBitWidth ≤ maxStateSize then
    some (totBitWidth, totBitWidth, tileOffsets 0 zipWidth)
  else (randomOffsets rnd maxStateSize 0 zipWidth).map fun offs => (totBitWidth, maxStateSize, offs)

/-- The constructed pass, for one module. -/
structure InstrCov where
  mName : String
  insts : List WDefInstance
  covSumSize : Nat
  totBitWidth : Nat
  regStateSize : Nat
  allOffsets : List (CtrlNode × Nat)
  deriving DecidableEq

section New

variable (σ : SetOrder) (mInfo : ModuleInfo) (maxStateSize : Nat)

open Selection

/-- `vecNameOffsets`: every element of a vector gets the offset of its first element with the
    same body. The lookup of a first element without offset throws. -/
def vecNameOffsets (firstVecOffsets : List (CtrlNode × Nat)) : Option (Dict String Nat) := do
  let ls ← (firstVecRegs mInfo maxStateSize σ).entries.mapM fun x => do
    let bodyOffsets ← x.2.mapM fun r =>
      (firstVecOffsets.find? fun t => t.1 = .reg r).map fun t =>
        (String.ofList (r.name.toList.drop (x.1.1 ++ "0").length), t.2)
    return (List.range x.1.2).flatMap fun i =>
      bodyOffsets.map fun b => (x.1.1 ++ (toString i ++ b.1), b.2)
  return Dict.ofList ls.flatten

/-- `vectorOffsets`: the registers of these names; a name without vector register throws. -/
def vectorOffsets (names : Dict String Nat) : Option (List (CtrlNode × Nat)) :=
  (names.entries.mapM fun x =>
    ((vectorRegs mInfo maxStateSize).find? fun r => r.name == x.1).map fun r =>
      (CtrlNode.reg r, x.2)).map fun l => (Dict.ofList l).entries

/-- The constructor. -/
def InstrCov.new (rnd : Nat → Nat) (mName : String) (extModules : List String) (covSumSize : Nat) :
    Option InstrCov :=
  if (mInfo.dirInRegs ++ ctrlRegs mInfo).all fun r => (regWidth? r).isSome then do
    let firstSet := firstVecSet mInfo maxStateSize σ
    let (totBitWidth, regStateSize, ctrlOffsets) ← getRegState rnd maxStateSize
      (optRegs mInfo maxStateSize σ ++ σ.toSeq firstSet) (unCoveredCtrlSigs mInfo maxStateSize σ)
    let isFirst : CtrlNode × Nat → Bool := fun t =>
      match t.1 with
      | .reg r => r ∈ firstSet
      | .expr _ => false
    let scalaOffsets := ctrlOffsets.filter fun t => !isFirst t
    let names ← vecNameOffsets σ mInfo maxStateSize (ctrlOffsets.filter isFirst)
    let vecOffs ← vectorOffsets mInfo maxStateSize names
    return { mName
             insts := σ.toSeq (mInfo.insts.filter fun i => i.module ∉ extModules)
             covSumSize
             totBitWidth
             regStateSize
             allOffsets := scalaOffsets ++ σ.toSeq vecOffs }
  else none

/-- The state word is at most as wide as allowed. -/
theorem getRegState_size {rnd : Nat → Nat} {maxStateSize : Nat} {regs : List DefRegister}
    {ctrls : List Expr} {x : Nat × Nat × List (CtrlNode × Nat)}
    (h : getRegState rnd maxStateSize regs ctrls = some x) : x.2.1 ≤ maxStateSize := by
  unfold getRegState at h
  simp only at h
  split at h
  · cases h
    exact Nat.zero_le _
  · split at h
    · rename_i hle
      cases h
      exact hle
    · rw [Option.map_eq_some_iff] at h
      obtain ⟨_, _, rfl⟩ := h
      exact Nat.le_refl _

variable {σ mInfo maxStateSize}

/-- The fields of a constructed pass that do not depend on the selection. -/
theorem InstrCov.new_eq_some {rnd : Nat → Nat} {mName : String} {extModules : List String}
    {covSumSize : Nat} {c : InstrCov}
    (h : InstrCov.new σ mInfo maxStateSize rnd mName extModules covSumSize = some c) :
    c.mName = mName ∧ c.covSumSize = covSumSize ∧
    c.insts = σ.toSeq (mInfo.insts.filter fun i => i.module ∉ extModules) ∧
    c.regStateSize ≤ maxStateSize := by
  unfold InstrCov.new at h
  split at h
  · simp only [Option.bind_eq_bind, Option.bind_eq_some_iff, Option.pure_def,
      Option.some.injEq] at h
    obtain ⟨x, hx, _, _, _, _, rfl⟩ := h
    exact ⟨rfl, rfl, rfl, getRegState_size hx⟩
  · cases h

end New

/-! ## 3. The added logic -/

/-- A register that a pass adds: no reset, initialised to itself. -/
def addedRegister (info : Info) (name : String) (width : Nat) (clockName : String) : DefRegister :=
  { info, name, tpe := .uint width, clock := .ref clockName .clock, reset := .uintLit 0 1,
    init := .ref name (.uint width) }

/-- Divide-and-conquer wiring of a binary operation: the left and right halves of the operands
    use the ids `2 * id + 1` and `2 * id + 2`. The fuel only has to reach the number of operands;
    the empty list never ends in the source. -/
def reduceTree (op : PrimOp) (width : Nat) (wire : Nat → String) :
    Nat → List Expr → Nat → Option (Expr × List Stmt)
  | 0, _, _ => none
  | _ + 1, [], _ => none
  | _ + 1, [r], _ => some (r, [])
  | _ + 1, [a, b], id =>
      let w := Expr.ref (wire id) (.uint width)
      some (w, [.defWire (wire id) (.uint width), .connect w (.doPrim2 op a b [] (.uint width))])
  | fuel + 1, refs, id => do
      let (r₁, stmts₁) ← reduceTree op width wire fuel (refs.take (refs.length / 2)) (2 * id + 1)
      let (r₂, stmts₂) ← reduceTree op width wire fuel (refs.drop (refs.length / 2)) (2 * id + 2)
      let w := Expr.ref (wire id) (.uint width)
      return (w, stmts₁ ++ stmts₂ ++ [.defWire (wire id) (.uint width),
        .connect w (.doPrim2 op r₁ r₂ [] (.uint width))])

/-- **Induction over the wiring**, with the wiring of the halves at hand: one operand, two operands,
    two halves under a new wire. -/
theorem reduceTree_rec {op : PrimOp} {width : Nat} {wire : Nat → String}
    {P : List Expr → Nat → Expr → List Stmt → Prop}
    (one : ∀ r id, P [r] id r [])
    (two : ∀ a b id, P [a, b] id (.ref (wire id) (.uint width))
      [.defWire (wire id) (.uint width),
       .connect (.ref (wire id) (.uint width)) (.doPrim2 op a b [] (.uint width))])
    (node : ∀ fuel refs id r₁ s₁ r₂ s₂, 3 ≤ refs.length →
      reduceTree op width wire fuel (refs.take (refs.length / 2)) (2 * id + 1) = some (r₁, s₁) →
      reduceTree op width wire fuel (refs.drop (refs.length / 2)) (2 * id + 2) = some (r₂, s₂) →
      P (refs.take (refs.length / 2)) (2 * id + 1) r₁ s₁ →
      P (refs.drop (refs.length / 2)) (2 * id + 2) r₂ s₂ →
      P refs id (.ref (wire id) (.uint width)) (s₁ ++ s₂ ++ [.defWire (wire id) (.uint width),
        .connect (.ref (wire id) (.uint width)) (.doPrim2 op r₁ r₂ [] (.uint width))]))
    {fuel : Nat} {refs : List Expr} {id : Nat} {r : Expr} {ss : List Stmt}
    (h : reduceTree op width wire fuel refs id = some (r, ss)) : P refs id r ss := by
  induction fuel generalizing refs id r ss with
  | zero => simp [reduceTree] at h
  | succ fuel ih =>
    match refs, h with
    | [], h => simp [reduceTree] at h
    | [a], h =>
      simp [reduceTree] at h
      obtain ⟨rfl, rfl⟩ := h
      exact one _ _
    | [a, b], h =>
      simp [reduceTree] at h
      obtain ⟨rfl, rfl⟩ := h
      exact two _ _ _
    | a :: b :: c :: l, h =>
      simp only [reduceTree, Option.bind_eq_bind, Option.bind_eq_some_iff, Option.pure_def,
        Option.some.injEq, Prod.mk.injEq] at h
      obtain ⟨⟨r₁, s₁⟩, h₁, ⟨r₂, s₂⟩, h₂, rfl, rfl⟩ := h
      exact node fuel _ _ _ _ _ _ (by simp) h₁ h₂ (ih h₁) (ih h₂)

/-- Induction over the wiring. -/
theorem reduceTree_ind {op : PrimOp} {width : Nat} {wire : Nat → String}
    {P : List Expr → Nat → Expr → List Stmt → Prop}
    (one : ∀ r id, P [r] id r [])
    (two : ∀ a b id, P [a, b] id (.ref (wire id) (.uint width))
      [.defWire (wire id) (.uint width),
       .connect (.ref (wire id) (.uint width)) (.doPrim2 op a b [] (.uint width))])
    (node : ∀ refs id r₁ s₁ r₂ s₂, 3 ≤ refs.length →
      P (refs.take (refs.length / 2)) (2 * id + 1) r₁ s₁ →
      P (refs.drop (refs.length / 2)) (2 * id + 2) r₂ s₂ →
      P refs id (.ref (wire id) (.uint width)) (s₁ ++ s₂ ++ [.defWire (wire id) (.uint width),
        .connect (.ref (wire id) (.uint width)) (.doPrim2 op r₁ r₂ [] (.uint width))]))
    {fuel : Nat} {refs : List Expr} {id : Nat} {r : Expr} {ss : List Stmt}
    (h : reduceTree op width wire fuel refs id = some (r, ss)) : P refs id r ss :=
  reduceTree_rec one two (fun _ refs id r₁ s₁ r₂ s₂ hlen _ _ => node refs id r₁ s₁ r₂ s₂ hlen) h

/-- Fuel for every operand is enough. -/
theorem reduceTree_isSome (op : PrimOp) (width : Nat) (wire : Nat → String) :
    ∀ {fuel : Nat} {refs : List Expr} (id : Nat), refs ≠ [] → refs.length ≤ fuel →
      ∃ r ss, reduceTree op width wire fuel refs id = some (r, ss) := by
  intro fuel
  induction fuel with
  | zero =>
    intro refs id h0 h
    cases refs <;> simp_all
  | succ fuel ih =>
    intro refs id h0 h
    match refs, h0, h with
    | [a], _, _ => exact ⟨_, _, rfl⟩
    | [a, b], _, _ => exact ⟨_, _, rfl⟩
    | a :: b :: c :: l, _, h =>
      simp at h
      have hl : ((a :: b :: c :: l).take ((a :: b :: c :: l).length / 2)) ≠ [] := by
        simp
      have hr : ((a :: b :: c :: l).drop ((a :: b :: c :: l).length / 2)) ≠ [] := by
        simp; omega
      obtain ⟨r₁, s₁, h₁⟩ := ih (2 * id + 1) hl (by simp; omega)
      obtain ⟨r₂, s₂, h₂⟩ := ih (2 * id + 2) hr (by simp; omega)
      exact ⟨_, _, by simp only [reduceTree, h₁, h₂]; rfl⟩

namespace InstrCov

variable (c : InstrCov)

def regStateName : String := c.mName ++ "_state"
def covMapName : String := c.mName ++ "_cov"
def covSumName : String := c.mName ++ "_covSum"

/-- `Math.pow(2, regStateSize).toInt` stops at the largest `Int`. -/
def covMapSize : Nat := if c.regStateSize = 0 then 0 else min (2 ^ c.regStateSize) (2 ^ 31 - 1)

/-- Up to 30 bits there is a cell for every state. -/
theorem covMapSize_eq {c : InstrCov} (h0 : c.regStateSize ≠ 0) (h30 : c.regStateSize ≤ 30) :
    c.covMapSize = 2 ^ c.regStateSize := by
  have hpow : 2 ^ c.regStateSize ≤ 2 ^ 30 := Nat.pow_le_pow_right (by decide) h30
  unfold covMapSize
  rw [if_neg h0]
  exact Nat.min_eq_left (Nat.le_trans hpow (by decide))

/-- `hasClockAndReset`: the name of the last clock port; this pass needs no reset. -/
def clockName (m : Module) : Option String :=
  m.ports.foldl (fun acc p =>
    if p.name = "clock" ∨ p.name = "gated_clock" then some p.name else acc) none

def regState (clock : String) : DefRegister :=
  addedRegister (.fileInfo ("Register tracking " ++ c.mName ++ " state")) c.regStateName
    c.regStateSize clock

def covSum (clock : String) : DefRegister :=
  addedRegister (.fileInfo "Sum of coverage map") c.covSumName c.covSumSize clock

def covSumPort : Port := ⟨"io_covSum", .output, .uint c.covSumSize⟩

/-- `defMemory`: one bit for each state, read at once, written at the edge. -/
def covMap : DefMemory :=
  { name := c.covMapName, dataType := .uint 1, depth := c.covMapSize, writeLatency := 1,
    readLatency := 0, readers := ["read"], writers := ["write"], readwriters := [] }

/-- A field of a port of the coverage map. -/
def covField (port field : String) (t : GType) : Expr :=
  .subField (.subField (.ref c.covMapName .unknown) port .unknown) field t

def covSumRef : Expr := .ref c.covSumName (.uint c.covSumSize)

def readConnect (clock : String) : List Stmt :=
  let state := Expr.ref c.regStateName (.uint c.regStateSize)
  [.connect (c.covField "read" "addr" (.uint c.regStateSize)) state,
   .connect (c.covField "read" "en" (.uint 1)) (.uintLit 1 1),
   .connect (c.covField "read" "clk" .clock) (.ref clock .clock),
   .connect c.covSumRef
     (.mux (c.covField "read" "data" (.uint 1)) c.covSumRef
       (.doPrim2 .add c.covSumRef (.uintLit 1 1) [] (.uint c.covSumSize)) .unknown)]

def writeConnect (clock : String) : List Stmt :=
  let state := Expr.ref c.regStateName (.uint c.regStateSize)
  [.connect (c.covField "write" "addr" (.uint c.regStateSize)) state,
   .connect (c.covField "write" "mask" (.uint 1)) (.uintLit 1 1),
   .connect (c.covField "write" "en" (.uint 1)) (.uintLit 1 1),
   .connect (c.covField "write" "clk" .clock) (.ref clock .clock),
   .connect (c.covField "write" "data" (.uint 1)) (.uintLit 1 1)]

/-- `makeSum`: a chain of adders over the instances, ending in the port. -/
def makeSum : List WDefInstance → Expr → List Stmt
  | [], sumRef => [.connect (.ref "io_covSum" (.uint c.covSumSize)) sumRef]
  | inst :: insts, sumRef =>
      let sumWire := Expr.ref (inst.name ++ "_sum") (.uint c.covSumSize)
      .defWire (inst.name ++ "_sum") (.uint c.covSumSize) ::
      .connect sumWire (.doPrim2 .add sumRef
        (.subField (.ref inst.name .unknown) "io_covSum" .unknown) [] (.uint c.covSumSize)) ::
      makeSum insts sumWire

/-- The wire of a tracked select: the last one declared for the expression. -/
def tmpWires : Dict Expr String :=
  let exprs := c.allOffsets.filterMap fun t => match t.1 with | .expr e => some e | .reg _ => none
  Dict.ofList (exprs.zipIdx.map fun x => (x.1, "mux_cond_" ++ toString x.2))

/-- The wires of the tracked selects. -/
def tmpStmts : List Stmt :=
  let exprs := c.allOffsets.filterMap fun t => match t.1 with | .expr e => some e | .reg _ => none
  exprs.zipIdx.flatMap fun x =>
    [.defWire ("mux_cond_" ++ toString x.2) (.uint 1),
     .connect (.ref ("mux_cond_" ++ toString x.2) (.uint 1)) x.1]

/-- Name and type of a tracked signal: registers of other than integer type throw. -/
def ctrlOf : CtrlNode → Option (String × GType × Nat)
  | .reg r => (regWidth? r).map fun w => (r.name, r.tpe, w)
  | .expr e => (c.tmpWires.get? e).map fun n => (n, .uint 1, 1)

/-- Shift a signal to its offset and pad it to the state width. -/
def offsetStmts (name : String) (tpe : GType) (width offset : Nat) : List Stmt :=
  let shlWire := Expr.ref (name ++ "_shl") (.uint (width + offset))
  let padWire := Expr.ref (name ++ "_pad") (.uint c.regStateSize)
  let pad : Int := c.regStateSize - width - offset
  [.defWire (name ++ "_shl") (.uint (width + offset)),
   .connect shlWire (.doPrim1 .shl (.ref name tpe) [offset] (.uint c.regStateSize)),
   .defWire (name ++ "_pad") (.uint c.regStateSize),
   .connect padWire (if pad = 0 then shlWire else
     .doPrim2 .cat (.uintLit 0 pad.toNat) shlWire [] (.uint c.regStateSize))]

/-- `makeOffset`: the padded references and the statements. -/
def makeOffset : Option (List Expr × List Stmt) :=
  (c.allOffsets.mapM fun t => (c.ctrlOf t.1).map fun x =>
    (Expr.ref (x.1 ++ "_pad") (.uint c.regStateSize), c.offsetStmts x.1 x.2.1 x.2.2 t.2)).map
  fun l => (l.map (·.1), c.tmpStmts ++ l.flatMap (·.2))

def makeXor (padRefs : List Expr) (id : Nat) : Option (Expr × List Stmt) :=
  reduceTree .xor c.regStateSize (fun i => c.mName ++ "_xor" ++ toString i) padRefs.length padRefs id

def stateConnect : Option (List Stmt) := do
  let (padRefs, offsets) ← c.makeOffset
  let (topXor, xors) ← c.makeXor padRefs 0
  return offsets ++ xors ++ [.connect (.ref c.regStateName (.uint c.regStateSize)) topXor]

/-- The statements the pass adds to a module. -/
def addedStmts (m : Module) : Option (List Stmt) :=
  match clockName m with
  | some clock =>
      if c.regStateSize ≠ 0 then
        c.stateConnect.map fun st =>
          [.defRegister (c.regState clock), .defMemory c.covMap, .defRegister (c.covSum clock)] ++
          st ++ c.readConnect clock ++ c.writeConnect clock ++ c.makeSum c.insts c.covSumRef
      else some (noCoverage)
  | none => some (noCoverage)
where
  noCoverage : List Stmt :=
    [.defWire c.covSumName (.uint c.covSumSize), .connect c.covSumRef (.uintLit 0 c.covSumSize)] ++
    c.makeSum c.insts c.covSumRef

/-- The two kinds of modules: with a coverage map, and without. -/
theorem addedStmts_cases {c : InstrCov} {m : Module} {ss : List Stmt}
    (h : c.addedStmts m = some ss) :
    (∃ clock st, clockName m = some clock ∧ c.regStateSize ≠ 0 ∧ c.stateConnect = some st ∧
      ss = [.defRegister (c.regState clock), .defMemory c.covMap, .defRegister (c.covSum clock)] ++
        st ++ c.readConnect clock ++ c.writeConnect clock ++ c.makeSum c.insts c.covSumRef) ∨
    ((clockName m = none ∨ c.regStateSize = 0) ∧ ss = addedStmts.noCoverage c) := by
  unfold addedStmts at h
  split at h
  · rename_i clock hclock
    split at h
    · rename_i hsz
      rw [Option.map_eq_some_iff] at h
      obtain ⟨st, hst, e⟩ := h
      exact .inl ⟨clock, st, hclock, hsz, hst, e.symm⟩
    · rename_i hsz
      exact .inr ⟨.inr (by simpa using hsz), (Option.some.inj h).symm⟩
  · rename_i hclock
    exact .inr ⟨.inl hclock, (Option.some.inj h).symm⟩

/-- `instrument`: external modules stay. -/
def instrument : DefModule → Option DefModule
  | .ext e => some (.ext e)
  | .module m => (c.addedStmts m).map fun ss =>
      .module { m with ports := m.ports ++ [c.covSumPort], body := m.body ++ ss }

end InstrCov

end Difuzz.Coverage
