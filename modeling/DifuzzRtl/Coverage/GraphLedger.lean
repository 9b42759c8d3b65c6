/-
  File:      DifuzzRtl/Coverage/GraphLedger.lean
  Subject:   The control analysis of one module (coverage/graphLedger.scala) and the record of
             its results (`moduleInfo` of coverage/registerCov.scala).

  * `findNames`, `isUsed`, `findName` -- the names an expression mentions. Both ignore the select
    of a mux: the muxes themselves are collected separately.
  * `GraphLedger` -- the graph: one vertex for each port and declaration, an edge from a name to
    every node, connect target or register (through its reset) that uses it.
  * `findSrcs` -- backward search through nodes and wires to ports, registers, memories and
    instances.
  * `findMuxSrcs`, `muxSrcs` -- the sources of every mux select, and of all of them by kind.
  * `findDirInRegs`, `findVecRegs` -- registers fed by ports only, and vectors of registers.
  * `ModuleInfo` -- what the instrumentation passes read.

  A function that can throw answers an `Option`. Hash collections are iterated in an arbitrary
  order `σ`.
-/
import DifuzzRtl.Firrtl.Ir
import DifuzzRtl.Lib.Collections
import DifuzzRtl.Lib.Dfs
import Mathlib.Data.List.Sort
import Mathlib.Data.List.Infix
import Mathlib.Data.List.Lex
import Mathlib.Data.Char
import Mathlib.Algebra.Group.Int.Defs
import Mathlib.Algebra.GroupWithZero.Nat

namespace Difuzz.Coverage

open Firrtl

/-! ## 1. Vertices and the names in expressions -/

/-- `Node`: a port or a declaration. -/
inductive Node where
  | port (p : Port)
  | defWire (name : String)
  | defRegister (r : DefRegister)
  | defNode (name : String)
  | defMemory (name : String)
  | wDefInstance (i : WDefInstance)
  deriving DecidableEq

namespace Node

def name : Node → String
  | .port p => p.name
  | .defWire n => n
  | .defRegister r => r.name
  | .defNode n => n
  | .defMemory n => n
  | .wDefInstance i => i.name

/-- Nodes and wires pass a value on; the search goes through them. -/
def passes : Node → Bool
  | .defNode _ | .defWire _ => true
  | _ => false

/-- The vertex of a declaring statement. -/
def ofStmt : Stmt → Option Node
  | .defWire n _ => some (.defWire n)
  | .defRegister r => some (.defRegister r)
  | .defNode n _ => some (.defNode n)
  | .defMemory d => some (.defMemory d.name)
  | .defInstance i => some (.wDefInstance i)
  | _ => none

end Node

/-- `Node.findName`: the name at the root of a location. The expressions that have none never
    stand on the left of a connect. -/
def findName : Expr → Option String
  | .ref n _ => some n
  | .subField e _ _ => findName e
  | _ => none

/-- `Node.findNames`: the names an expression takes its value from, mux selects left out. -/
def findNames : Expr → List String
  | .ref n _ => [n]
  | .subField e _ _ => findNames e
  | .mux _ t f _ => findNames t ++ findNames f
  | .doPrim1 _ a _ _ => findNames a
  | .doPrim2 _ a b _ _ => findNames a ++ findNames b
  | _ => []

/-- `Node.isUsed`: does the expression take its value from the name? -/
def isUsed (name : String) : Expr → Bool
  | .ref n _ => n == name
  | .subField e _ _ => isUsed name e
  | .mux _ t f _ => isUsed name t || isUsed name f
  | .doPrim1 _ a _ _ => isUsed name a
  | .doPrim2 _ a b _ _ => isUsed name a || isUsed name b
  | _ => false

/-- `isUsed` and `findNames` see the same names. -/
theorem isUsed_iff {n : String} {e : Expr} : isUsed n e = true ↔ n ∈ findNames e := by
  induction e with
  | ref m t =>
      simp only [isUsed, findNames, beq_iff_eq, List.mem_singleton]
      exact eq_comm
  | subField e f t ih => simpa [isUsed, findNames] using ih
  | uintLit => simp [isUsed, findNames]
  | sintLit => simp [isUsed, findNames]
  | mux c a b t _ iha ihb => simp [isUsed, findNames, iha, ihb]
  | validIf c e t _ _ => simp [isUsed, findNames]
  | doPrim1 op a cs t ih => simpa [isUsed, findNames] using ih
  | doPrim2 op a b cs t iha ihb => simp [isUsed, findNames, iha, ihb]

/-- A `Mux` expression. -/
structure Mux where
  cond : Expr
  tval : Expr
  fval : Expr
  tpe : GType
  deriving DecidableEq

/-- `findMuxes` on an expression: every mux in it, the selects included. -/
def Expr.muxes : Expr → List Mux
  | .subField e _ _ => Expr.muxes e
  | .mux c t f tpe => ⟨c, t, f, tpe⟩ :: (Expr.muxes c ++ Expr.muxes t ++ Expr.muxes f)
  | .validIf c e _ => Expr.muxes c ++ Expr.muxes e
  | .doPrim1 _ a _ _ => Expr.muxes a
  | .doPrim2 _ a b _ _ => Expr.muxes a ++ Expr.muxes b
  | _ => []

/-! ## 2. The graph -/

/-- The edge targets a statement adds for the name `n` (`findEdge`). -/
def findEdge (n : String) : Stmt → List String
  | .defRegister r => if isUsed n r.reset then [r.name] else []
  | .defNode m e => if isUsed n e then [m] else []
  | .connect loc e => if isUsed n e then (findName loc).toList else []
  | _ => []

/-- The graph of a module after `buildMap`: the vertices by name, and the statements the edges
    are read from. -/
structure GraphLedger where
  portNames : List String
  graphMap : Dict String Node
  stmts : List Stmt

namespace GraphLedger

/-- `parseModule`: an external module has no graph. -/
def parseModule : DefModule → GraphLedger
  | .ext e => ⟨e.ports.map (·.name), .empty, []⟩
  | .module m =>
      let nodes := m.ports.map Node.port ++ m.leaves.filterMap Node.ofStmt
      ⟨m.ports.map (·.name), Dict.ofList (nodes.map fun n => (n.name, n)), m.leaves⟩

variable (g : GraphLedger) (σ : SetOrder)

/-- The edge targets of a name. -/
def sinks (n : String) : List String := g.stmts.flatMap (findEdge n)

/-- `reverseEdge`: the names with an edge to `n`. -/
def sources (n : String) : List String := g.graphMap.keys.filter fun m => n ∈ g.sinks m

/-- The search goes on behind nodes and wires. -/
def step (n : String) : List String :=
  match g.graphMap.get? n with
  | some v => if v.passes then σ.toSeq (g.sources n) else []
  | none => []

/-- The other vertices are where a value comes from. -/
def source (n : String) : List String :=
  match g.graphMap.get? n with
  | some v => if v.passes then [] else [n]
  | none => []

/-- `findSrcs` with a fresh list of visited names. -/
def findSrcs (sink : String) : Option (List String) :=
  (dfs (g.step σ) g.source g.graphMap.contains (g.graphMap.entries.length + 1) sink []).map (·.1)

/-- Every mux of the module. -/
def muxes : List Mux := g.stmts.flatMap fun s => s.exprs.flatMap Expr.muxes

/-- `ListBuffer.toString` of a list of names. -/
def listBufferToString (ns : List String) : String := "ListBuffer(" ++ ", ".intercalate ns ++ ")"

/-- The sources of a list of select names. -/
def ctrlsSrcs (ctrls : List String) : Option (List String) :=
  (ctrls.mapM (g.findSrcs σ)).map fun ls => ls.flatten.dedup

/-- `muxSrcs`: muxes are grouped by the text of their list of select names, and every group gets
    the sources of that list. -/
def muxSrcs : Option (Dict Mux (List String)) :=
  let muxCtrls := σ.toSeq (g.muxes.map fun m => findNames m.cond).dedup
  muxCtrls.foldlM (fun d ctrls =>
    (g.ctrlsSrcs σ ctrls).map fun srcs =>
      (g.muxes.filter fun m =>
        listBufferToString (findNames m.cond) = listBufferToString ctrls).foldl
          (fun d m => d.set m srcs) d) .empty

end GraphLedger

/-- `ctrlSrcs`: the sources of all mux selects, by kind. -/
structure CtrlSrcs where
  defRegister : List DefRegister
  defMemory : List String
  wDefInstance : List WDefInstance
  port : List Port

namespace GraphLedger

variable (g : GraphLedger) (σ : SetOrder)

/-- The sources of all mux selects, as vertices. -/
def ctrlNodes (muxSrcs : Dict Mux (List String)) : List Node :=
  muxSrcs.values.flatten.dedup.filterMap g.graphMap.get?

/-- `findMuxSrcs`. -/
def findMuxSrcs : Option CtrlSrcs :=
  (g.muxSrcs σ).map fun srcs =>
    let nodes := g.ctrlNodes srcs
    { defRegister := nodes.filterMap fun | .defRegister r => some r | _ => none
      defMemory := nodes.filterMap fun | .defMemory n => some n | _ => none
      wDefInstance := nodes.filterMap fun | .wDefInstance i => some i | _ => none
      port := nodes.filterMap fun | .port p => some p | _ => none }

def findRegs : List DefRegister :=
  (g.graphMap.values.filterMap fun | .defRegister r => some r | _ => none).dedup

def getInstances : List WDefInstance :=
  (g.stmts.filterMap fun | .defInstance i => some i | _ => none).dedup

/-! ## 3. Registers fed by inputs -/

/-- The sources behind the names with an edge to the register, the register left out. -/
def ctrlRegSrcs (r : DefRegister) : Option (List String) :=
  ((g.sources r.name).mapM (g.findSrcs σ)).map fun ls => ls.flatten.filter (· ≠ r.name)

/-- `findDirInRegs`: registers fed by ports, or by ports and registers fed by ports. -/
def findDirInRegs (ctrlRegs : List DefRegister) : Option (List DefRegister) :=
  (ctrlRegs.mapM fun r => (g.ctrlRegSrcs σ r).map fun srcs => (r, srcs)).map fun pairs =>
    let firstInRegs := (pairs.filter fun x => x.2.all fun s => s ∈ g.portNames).map (·.1)
    (pairs.filter fun x => x.2.all fun s =>
      s ∈ g.portNames || s ∈ firstInRegs.map (·.name)).map (·.1)

end GraphLedger

/-! ## 4. Vectors of registers -/

/-- The longest common beginning of the names: the longest element of the intersection of their
    sets of beginnings. -/
def commonPrefix : List (List Char) → List Char
  | [] => []
  | n :: ns =>
      (ns.foldl (fun set m => m.inits.filter (· ∈ set)) n.inits).foldl
        (fun best s => if best.length < s.length then s else best) []

/-- `String.toInt` on a text without sign: decimal digits below `2^31`. -/
def toInt (cs : List Char) : Option Nat :=
  if cs ≠ [] ∧ cs.all Char.isDigit then
    let x := cs.foldl (fun acc c => acc * 10 + (c.toNat - '0'.toNat)) 0
    if x < 2 ^ 31 then some x else none
  else none

/-- The digits of a decimal number, as `Int.toString` writes them. -/
def decimal (n : Nat) : List Char := Nat.toDigits 10 n

/-- The elements of a vector by index, each with what follows the index in its name. -/
def vElements (bodies : List (List Char)) : Option (Dict Nat (List (List Char))) :=
  bodies.foldlM (fun d body =>
    (toInt (body.takeWhile (· ≠ '_'))).map fun idx =>
      d.set idx (d.getD idx [] ++ [body.drop (decimal idx).length])) .empty

/-- The windows of two of `sliding(2)`; a list of one element has one short window, whose second
    element the count reads. -/
def countConsecutive : List Nat → Option Nat
  | [] => some 0
  | [_] => none
  | ks => some ((ks.zip ks.tail).countP fun k => k.1 + 1 = k.2)

/-- The vector that the registers of one source line make up, if they do. -/
def vecOfNames (σ : SetOrder) (names : List String) : Option (Option (Nat × String × List String)) :=
  let regs := (names.map String.toList).insertionSort (· ≤ ·)
  let pre := commonPrefix regs
  if pre.length = 0 then some none
  else
    let bodies := regs.map fun n => n.drop pre.length
    if bodies.all fun b => (b.head?.map Char.isDigit).getD false then do
      let elems ← vElements bodies
      let cnt ← countConsecutive (elems.keys.insertionSort (· ≤ ·))
      let first := ((σ.toSeq elems.entries).head?.map (·.2)).getD []
      if cnt = elems.keys.length - 1 ∧ (σ.toSeq elems.keys).head? = some 0 ∧
          elems.values.all fun l => l.all (· ∈ first) && first.all (· ∈ l) then
        some (some (elems.keys.length, String.ofList pre, first.dedup.map String.ofList))
      else some none
    else some none

/-- `findVecRegs`: registers of one `Info` whose names are a prefix, an index from 0 on and one of a
    fixed set of bodies. -/
def findVecRegs (σ : SetOrder) (ctrlRegs : List DefRegister) :
    Option (List (Nat × String × List String)) :=
  -- registers without a line are a group, too: the simple name of that object is `NoInfo$`, so the
  -- test against `NoInfo` leaves nothing out
  let infos := (ctrlRegs.map (·.info)).dedup
  let groups := infos.map fun i => (ctrlRegs.filter (·.info = i)).map (·.name)
  ((groups.filter fun ns => 2 ≤ ns.length).mapM (vecOfNames σ)).map fun os =>
    (os.filterMap id).dedup

/-! ## 5. The record of one module -/

/-- `moduleInfo`, without the figures for the printed summary. -/
structure ModuleInfo where
  ctrlRegs : List DefRegister
  muxSrcs : Dict Mux (List String)
  insts : List WDefInstance
  regs : List DefRegister
  vecRegs : List (Nat × String × List String)
  dirInRegs : List DefRegister
  assertReg : Option DefRegister := none
  deriving DecidableEq

/-- `moduleInfo.apply`: without any vertex the two register searches answer nothing. -/
def ModuleInfo.ofModule (σ : SetOrder) (m : DefModule) : Option ModuleInfo := do
  let g := GraphLedger.parseModule m
  let ctrlSrcs ← g.findMuxSrcs σ
  let muxSrcs ← g.muxSrcs σ
  let vecRegs ← findVecRegs σ ctrlSrcs.defRegister
  let dirInRegs ← g.findDirInRegs σ ctrlSrcs.defRegister
  return { ctrlRegs := ctrlSrcs.defRegister
           muxSrcs
           insts := σ.toSeq g.getInstances
           regs := g.findRegs
           vecRegs
           dirInRegs }

/-! ## 6. The vertices of a module with distinct names -/

/-- The vertices of a module, in order of declaration. -/
def nodesOf (m : Module) : List Node := m.ports.map Node.port ++ m.leaves.filterMap Node.ofStmt

theorem nodesOf_names (m : Module) : (nodesOf m).map Node.name = m.declared := by
  have hs : ∀ s : Stmt, (Node.ofStmt s).map Node.name = s.declName := by
    intro s
    cases s <;> rfl
  unfold nodesOf Module.declared
  rw [List.map_append, List.map_map, List.map_filterMap]
  congr 1
  exact congrArg (fun f => m.leaves.filterMap f) (funext hs)

theorem mem_nodesOf_reg {m : Module} {r : DefRegister} :
    .defRegister r ∈ nodesOf m ↔ r ∈ m.regs := by
  unfold nodesOf
  rw [List.mem_append, List.mem_map, List.mem_filterMap, Module.mem_regs]
  constructor
  · intro h
    rcases h with ⟨q, _, e⟩ | ⟨s, hs, e⟩
    · cases e
    · cases s <;> simp [Node.ofStmt] at e
      subst e
      exact hs
  · exact fun hr => .inr ⟨_, hr, rfl⟩

section Nodup

variable {m : Module} (h : m.declared.Nodup)

include h

theorem parseModule_entries :
    (GraphLedger.parseModule (.module m)).graphMap.entries =
      (nodesOf m).map fun n => (n.name, n) := by
  refine Dict.ofList_entries ?_
  rw [List.map_map]
  show ((nodesOf m).map Node.name).Nodup
  rw [nodesOf_names]
  exact h

theorem parseModule_get? {n : Node} (hn : n ∈ nodesOf m) :
    (GraphLedger.parseModule (.module m)).graphMap.get? n.name = some n := by
  unfold Dict.get?
  rw [parseModule_entries h]
  refine Dict.lookup_of_mem ?_ (List.mem_map.mpr ⟨n, hn, rfl⟩)
  rw [List.map_map]
  show ((nodesOf m).map Node.name).Nodup
  rw [nodesOf_names]
  exact h

theorem parseModule_get?_inv {x : String} {n : Node}
    (hx : (GraphLedger.parseModule (.module m)).graphMap.get? x = some n) :
    n ∈ nodesOf m ∧ n.name = x := by
  have hm := Dict.mem_of_lookup hx
  rw [parseModule_entries h, List.mem_map] at hm
  obtain ⟨n', hn', e⟩ := hm
  cases e
  exact ⟨hn', rfl⟩

theorem mem_findRegs {r : DefRegister} :
    r ∈ (GraphLedger.parseModule (.module m)).findRegs ↔ r ∈ m.regs := by
  have hv : (GraphLedger.parseModule (.module m)).graphMap.values = nodesOf m := by
    unfold Dict.values
    rw [parseModule_entries h, List.map_map]
    exact List.map_id _
  unfold GraphLedger.findRegs
  rw [List.mem_dedup, hv, List.mem_filterMap, ← mem_nodesOf_reg]
  constructor
  · intro hx
    obtain ⟨n, hn, e⟩ := hx
    cases n <;> simp at e
    subst e
    exact hn
  · exact fun hr => ⟨_, hr, rfl⟩

end Nodup

theorem mem_getInstances {m : Module} {i : WDefInstance} :
    i ∈ (GraphLedger.parseModule (.module m)).getInstances ↔ i ∈ m.insts := by
  unfold GraphLedger.getInstances
  rw [List.mem_dedup]
  rfl

/-- The record of a module, field by field. -/
theorem ofModule_eq_some {σ : SetOrder} {d : DefModule} {info : ModuleInfo}
    (h : ModuleInfo.ofModule σ d = some info) :
    info.insts = σ.toSeq (GraphLedger.parseModule d).getInstances ∧
    info.regs = (GraphLedger.parseModule d).findRegs ∧
    (GraphLedger.parseModule d).muxSrcs σ = some info.muxSrcs ∧
    (∃ cs, (GraphLedger.parseModule d).findMuxSrcs σ = some cs ∧ info.ctrlRegs = cs.defRegister) ∧
    info.assertReg = none := by
  simp only [ModuleInfo.ofModule, Option.bind_eq_bind, Option.bind_eq_some_iff, Option.pure_def,
    Option.some.injEq] at h
  obtain ⟨cs, hcs, ms, hms, vr, _, dr, _, rfl⟩ := h
  exact ⟨rfl, rfl, hms, ⟨cs, hcs, rfl⟩, rfl⟩

end Difuzz.Coverage
