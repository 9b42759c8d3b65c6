/-
  File:      DifuzzRtl/Firrtl/Ir.lean
  Subject:   The LowForm part of the FIRRTL IR (firrtl/ir/IR.scala, firrtl/WIR.scala).

  The instrumentation passes read and write LowForm circuits: every component has a ground
  type, statements are flat up to nested `Block`s, and references are a name, an instance port
  `inst.port` or a memory field `mem.port.field`. This file keeps the constructors LowForm has.

  * `GType`, `PrimOp`, `Expr` -- types, primitive operations, expressions. Every primitive
    operation of LowForm has one or two operands, hence `doPrim1` and `doPrim2`. Kinds and flows
    of working references are left out: no pass reads them.
  * `Stmt`, `Stmt.leaves` -- statements and the statements a `foreachStmt` recursion visits.
    `Conditionally` and `PartialConnect` are gone before LowForm.
  * `DefModule`, `Circuit` -- modules, external modules, circuits; the body of a module is the
    statement list of its `Block`.
  * `Module.declared` -- the names a module declares, in order.

  An `Info` is kept where a pass reads it, on registers (the vector detection groups them by
  source line).
-/
import Mathlib.Data.List.Basic
import Mathlib.Data.List.Nodup
import Mathlib.Tactic.Common

namespace Difuzz.Firrtl

/-! ## 1. Types and expressions -/

/-- The ground types. `unknown` is the type of a reference the passes build to a port that the
    instantiated module does not have yet (`field_type` answers `UnknownType`). -/
inductive GType where
  | uint (width : Nat)
  | sint (width : Nat)
  | clock
  | asyncReset
  | analog (width : Nat)
  | unknown
  deriving DecidableEq, Repr

/-- The primitive operations that LowForm still has. -/
inductive PrimOp where
  | add | sub | mul | div | rem
  | lt | leq | gt | geq | eq | neq
  | pad | asUInt | asSInt | asClock | asAsyncReset
  | shl | shr | dshl | dshr
  | cvt | neg | not
  | and | or | xor | andr | orr | xorr
  | cat | bits | head | tail
  deriving DecidableEq, Repr

inductive Expr where
  | ref (name : String) (tpe : GType)
  | subField (expr : Expr) (name : String) (tpe : GType)
  | uintLit (value width : Nat)
  | sintLit (value : Int) (width : Nat)
  | mux (cond tval fval : Expr) (tpe : GType)
  | validIf (cond value : Expr) (tpe : GType)
  | doPrim1 (op : PrimOp) (arg : Expr) (consts : List Nat) (tpe : GType)
  | doPrim2 (op : PrimOp) (arg₁ arg₂ : Expr) (consts : List Nat) (tpe : GType)
  deriving DecidableEq, Repr

def Expr.tpe : Expr → GType
  | .ref _ t => t
  | .subField _ _ t => t
  | .uintLit _ w => .uint w
  | .sintLit _ w => .sint w
  | .mux _ _ _ t => t
  | .validIf _ _ t => t
  | .doPrim1 _ _ _ t => t
  | .doPrim2 _ _ _ _ t => t

/-- The text of a location: a name, or the name of a field below a location. The other
    expressions never stand on the left of a connect. -/
def Expr.serialize : Expr → Option String
  | .ref n _ => some n
  | .subField e f _ => e.serialize.map (· ++ "." ++ f)
  | _ => none

/-- The direct operands of an expression (`foreachExpr`). -/
def Expr.args : Expr → List Expr
  | .subField e _ _ => [e]
  | .mux c t f _ => [c, t, f]
  | .validIf c e _ => [c, e]
  | .doPrim1 _ a _ _ => [a]
  | .doPrim2 _ a b _ _ => [a, b]
  | _ => []

/-- No `validif` in the expression (`RemoveValidIf` has run). -/
def Expr.noValidIf : Expr → Bool
  | .validIf _ _ _ => false
  | .subField e _ _ => e.noValidIf
  | .mux c t f _ => c.noValidIf && t.noValidIf && f.noValidIf
  | .doPrim1 _ a _ _ => a.noValidIf
  | .doPrim2 _ a b _ _ => a.noValidIf && b.noValidIf
  | _ => true

/-- Fields are taken of references only, as in LowForm. -/
def Expr.lowFields : Expr → Bool
  | .subField e _ _ => e.serialize.isSome
  | .mux c t f _ => c.lowFields && t.lowFields && f.lowFields
  | .validIf c e _ => c.lowFields && e.lowFields
  | .doPrim1 _ a _ _ => a.lowFields
  | .doPrim2 _ a b _ _ => a.lowFields && b.lowFields
  | _ => true

/-! ## 2. Statements -/

/-- Source information; the `@[..]` texts of a `MultiInfo` are kept as a list. -/
inductive Info where
  | noInfo
  | fileInfo (text : String)
  | multiInfo (texts : List String)
  deriving DecidableEq, Repr

structure DefRegister where
  info : Info
  name : String
  tpe : GType
  clock : Expr
  reset : Expr
  init : Expr
  deriving DecidableEq, Repr

structure WDefInstance where
  name : String
  module : String
  deriving DecidableEq, Repr

structure DefMemory where
  name : String
  dataType : GType
  depth : Nat
  writeLatency : Nat
  readLatency : Nat
  readers : List String
  writers : List String
  readwriters : List String
  deriving DecidableEq, Repr

structure Stop where
  ret : Int
  clk : Expr
  en : Expr
  deriving DecidableEq, Repr

inductive Stmt where
  | defWire (name : String) (tpe : GType)
  | defRegister (r : DefRegister)
  | defInstance (i : WDefInstance)
  | defMemory (d : DefMemory)
  | defNode (name : String) (value : Expr)
  | block (stmts : List Stmt)
  | connect (loc expr : Expr)
  | isInvalid (expr : Expr)
  | attach (exprs : List Expr)
  | stop (s : Stop)
  | print (string : String) (args : List Expr) (clk en : Expr)
  | empty

mutual

/-- The statements below nested blocks, in order: what `f(s); s foreachStmt rec` visits. -/
def Stmt.leaves : Stmt → List Stmt
  | .block ss => Stmt.leavesList ss
  | s => [s]

def Stmt.leavesList : List Stmt → List Stmt
  | [] => []
  | s :: ss => s.leaves ++ Stmt.leavesList ss

end

theorem Stmt.leavesList_append (ss ts : List Stmt) :
    Stmt.leavesList (ss ++ ts) = Stmt.leavesList ss ++ Stmt.leavesList ts := by
  induction ss with
  | nil => rfl
  | cons s ss ih => simp only [List.cons_append, Stmt.leavesList, ih, List.append_assoc]

/-- The expressions of a statement (`foreachExpr`). -/
def Stmt.exprs : Stmt → List Expr
  | .defRegister r => [r.clock, r.reset, r.init]
  | .defNode _ e => [e]
  | .connect loc e => [loc, e]
  | .isInvalid e => [e]
  | .attach es => es
  | .stop s => [s.clk, s.en]
  | .print _ args clk en => args ++ [clk, en]
  | _ => []

/-- The name a statement declares. -/
def Stmt.declName : Stmt → Option String
  | .defWire n _ => some n
  | .defRegister r => some r.name
  | .defInstance i => some i.name
  | .defMemory d => some d.name
  | .defNode n _ => some n
  | _ => none

/-- Not a block: the statements that `leaves` answers. -/
def Stmt.isLeaf : Stmt → Bool
  | .block _ => false
  | _ => true

theorem Stmt.leaves_of_isLeaf {s : Stmt} (h : s.isLeaf = true) : s.leaves = [s] := by
  cases s <;> first | rfl | cases h

/-- A list without blocks is its own list of leaves. -/
theorem Stmt.leavesList_of_isLeaf {ss : List Stmt} (h : ∀ s ∈ ss, s.isLeaf = true) :
    Stmt.leavesList ss = ss := by
  induction ss with
  | nil => rfl
  | cons s ss ih =>
      have hs : s.leaves = [s] := Stmt.leaves_of_isLeaf (h s List.mem_cons_self)
      simp only [Stmt.leavesList, hs, ih fun t ht => h t (List.mem_cons_of_mem _ ht),
        List.cons_append, List.nil_append]

/-! ## 3. Modules and circuits -/

inductive Direction where
  | input | output
  deriving DecidableEq, Repr

structure Port where
  name : String
  direction : Direction
  tpe : GType
  deriving DecidableEq, Repr

structure Module where
  name : String
  ports : List Port
  body : List Stmt

structure ExtModule where
  name : String
  ports : List Port
  deriving DecidableEq, Repr

inductive DefModule where
  | module (m : Module)
  | ext (e : ExtModule)

namespace DefModule

def name : DefModule → String
  | .module m => m.name
  | .ext e => e.name

def ports : DefModule → List Port
  | .module m => m.ports
  | .ext e => e.ports

def isExt : DefModule → Bool
  | .module _ => false
  | .ext _ => true

end DefModule

namespace Module

/-- The statements of the body, blocks opened. -/
def leaves (m : Module) : List Stmt := Stmt.leavesList m.body

/-- The names the module declares: ports, then the declarations of the body. -/
def declared (m : Module) : List String := m.ports.map (·.name) ++ m.leaves.filterMap Stmt.declName

def regs (m : Module) : List DefRegister :=
  m.leaves.filterMap fun | .defRegister r => some r | _ => none

def insts (m : Module) : List WDefInstance :=
  m.leaves.filterMap fun | .defInstance i => some i | _ => none

def stops (m : Module) : List Stop :=
  m.leaves.filterMap fun | .stop s => some s | _ => none

theorem mem_regs {m : Module} {r : DefRegister} : r ∈ m.regs ↔ .defRegister r ∈ m.leaves := by
  unfold regs
  rw [List.mem_filterMap]
  constructor
  · intro hx
    obtain ⟨s, hs, e⟩ := hx
    cases s <;> simp at e
    subst e
    exact hs
  · intro h
    exact ⟨_, h, rfl⟩

theorem mem_insts {m : Module} {i : WDefInstance} : i ∈ m.insts ↔ .defInstance i ∈ m.leaves := by
  unfold insts
  rw [List.mem_filterMap]
  constructor
  · intro hx
    obtain ⟨s, hs, e⟩ := hx
    cases s <;> simp at e
    subst e
    exact hs
  · intro h
    exact ⟨_, h, rfl⟩

theorem mem_stops {m : Module} {s : Stop} : s ∈ m.stops ↔ .stop s ∈ m.leaves := by
  unfold stops
  rw [List.mem_filterMap]
  constructor
  · intro hx
    obtain ⟨t, ht, e⟩ := hx
    cases t <;> simp at e
    subst e
    exact ht
  · intro h
    exact ⟨_, h, rfl⟩

section Nodup

variable {m : Module} (h : m.declared.Nodup)

include h

/-- A name has one declaring statement. -/
theorem stmt_unique {s s' : Stmt} (hs : s ∈ m.leaves) (hs' : s' ∈ m.leaves) {n : String}
    (hn : s.declName = some n) (hn' : s'.declName = some n) : s = s' := by
  have key : ∀ l : List Stmt, (l.filterMap Stmt.declName).Nodup → s ∈ l → s' ∈ l → s = s' := by
    intro l
    induction l with
    | nil => intro _ h; cases h
    | cons a l ih =>
        intro hnd ha hb
        have htail : (l.filterMap Stmt.declName).Nodup :=
          List.Sublist.nodup (List.Sublist.filterMap _ (List.sublist_cons_self a l)) hnd
        -- a later statement that declares the name of the first would repeat it
        have hfirst : ∀ b ∈ l, b.declName = some n → a.declName = some n → False := by
          intro b hb hbn han
          rw [List.filterMap_cons, han] at hnd
          exact (List.nodup_cons.mp hnd).1 (List.mem_filterMap.mpr ⟨b, hb, hbn⟩)
        rcases List.mem_cons.mp ha with rfl | hal
        · rcases List.mem_cons.mp hb with rfl | hbl
          · rfl
          · exact (hfirst s' hbl hn' hn).elim
        · rcases List.mem_cons.mp hb with rfl | hbl
          · exact (hfirst s hal hn hn').elim
          · exact ih htail hal hbl
  exact key m.leaves (List.nodup_append.mp h).2.1 hs hs'

/-- What another statement declares is no register. -/
theorem reg_ne_of_decl {s : Stmt} (hs : s ∈ m.leaves) {n : String} (hn : s.declName = some n)
    (hr : ∀ r, s ≠ .defRegister r) : ∀ r ∈ m.regs, [n] ≠ [r.name] := by
  intro r hm e
  have hrn : (Stmt.defRegister r).declName = some n := by
    rw [List.cons.inj e |>.1]
    rfl
  exact hr r (stmt_unique h hs (mem_regs.mp hm) hn hrn)

theorem reg_ne_of_port {q : Port} (hq : q ∈ m.ports) : ∀ r ∈ m.regs, [q.name] ≠ [r.name] := by
  intro r hm e
  exact (List.nodup_append.mp h).2.2 q.name (List.mem_map_of_mem hq) r.name
    (List.mem_filterMap.mpr ⟨_, mem_regs.mp hm, rfl⟩) (List.cons.inj e |>.1)

end Nodup

end Module

structure Circuit where
  modules : List DefModule
  main : String

/-- The module of a name: the first one declared under it. -/
def Circuit.find (C : Circuit) (n : String) : Option DefModule :=
  C.modules.find? (fun m => m.name == n)

theorem Circuit.find_name {C : Circuit} {n : String} {m : DefModule} (h : C.find n = some m) :
    m.name = n := by
  simpa using List.find?_some h

theorem Circuit.find_mem {C : Circuit} {n : String} {m : DefModule} (h : C.find n = some m) :
    m ∈ C.modules := List.mem_of_find?_eq_some h

end Difuzz.Firrtl
