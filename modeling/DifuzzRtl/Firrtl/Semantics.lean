/-
  File:      DifuzzRtl/Firrtl/Semantics.lean
  Subject:   What a LowForm circuit does: settled valuations, clock edges, runs.

  Hardware has no evaluation order, so one cycle is read as a system of equations. A valuation
  gives every signal of every module instance a value; it is SETTLED for a state when every
  statement of every instance holds in it. A clock edge then takes the state to the next one.

  * `GType.clip`, `eval` -- values are integers read at the type of the expression: an operand
    of type `UInt<w>` is its value modulo `2^w`, one of type `SInt<w>` the balanced remainder.
    The primitive operations are those of the FIRRTL specification, wrapped to the type the
    operation carries.
  * `Circuit.Inst` -- the module instances of a circuit: a path of instance names and a module.
  * `Stmt.Holds`, `Circuit.Settled` -- the equations of one cycle. A connect whose target is a
    register says nothing about the current cycle.
  * `DefRegister.Next`, `DefMemory.next`, `Circuit.Next` -- the clock edge. A clock signal is 1
    in the cycles whose edge it takes part in, so a register whose clock is 0 keeps its value.
  * `Circuit.IsRun` -- a sequence of states and settled valuations joined by clock edges. The
    inputs of the top module and the outputs of external modules are free.
-/
import DifuzzRtl.Firrtl.Ir
import Mathlib.Logic.Function.Basic
import Mathlib.Algebra.Group.Int.Defs
import Mathlib.Algebra.Group.Nat.Defs

namespace Difuzz.Firrtl

/-! ## 1. Values and expressions -/

/-- A signal of a module: `[name]`, `[inst, port]` or `[mem, port, field]`. -/
abbrev Sig := List String

/-- An instance path: the instance names from the top module down. -/
abbrev Path := List String

abbrev Valuation := Path → Sig → Int

namespace GType

def width : GType → Nat
  | .uint w | .sint w | .analog w => w
  | .clock | .asyncReset => 1
  | .unknown => 0

/-- The value a component of the type takes from `x`. -/
def clip : GType → Int → Int
  | .uint w, x => x % 2 ^ w
  | .sint w, x => Int.bmod x (2 ^ w)
  | .clock, x => x % 2
  | .asyncReset, x => x % 2
  | .analog w, x => x % 2 ^ w
  | .unknown, x => x

/-- The lowest `n` bits of the two's-complement pattern of `x`. -/
def pattern (n : Nat) (x : Int) : Nat := (x % 2 ^ n).toNat

@[simp] theorem clip_zero (t : GType) : t.clip 0 = 0 := by
  cases t <;> simp [clip]

end GType

def ofBool (b : Bool) : Int := if b then 1 else 0

/-- The primitive operations of one operand, of type `t` and value `x`. -/
def primEval1 (op : PrimOp) (t : GType) (x : Int) (consts : List Nat) : Int :=
  let n := consts.headD 0
  match op with
  | .asUInt => GType.pattern t.width x
  | .asSInt => Int.bmod x (2 ^ t.width)
  | .shl => x * 2 ^ n
  | .shr => x / 2 ^ n
  | .neg => -x
  | .not => 2 ^ t.width - 1 - (GType.pattern t.width x : Int)
  | .andr => ofBool (GType.pattern t.width x + 1 == 2 ^ t.width)
  | .orr => ofBool (GType.pattern t.width x != 0)
  | .xorr => ((List.range t.width).countP fun i => (GType.pattern t.width x).testBit i) % 2
  | .bits => (GType.pattern t.width x / 2 ^ consts.getD 1 0) % 2 ^ (n - consts.getD 1 0 + 1)
  | .head => GType.pattern t.width x / 2 ^ (t.width - n)
  | .tail => GType.pattern t.width x % 2 ^ (t.width - n)
  | _ => x  -- pad, cvt, asClock, asAsyncReset keep the value

/-- The primitive operations of two operands. -/
def primEval2 (op : PrimOp) (t₁ t₂ : GType) (x y : Int) : Int :=
  let w := max t₁.width t₂.width
  match op with
  | .add => x + y
  | .sub => x - y
  | .mul => x * y
  | .div => x.tdiv y
  | .rem => x.tmod y
  | .lt => ofBool (decide (x < y))
  | .leq => ofBool (decide (x ≤ y))
  | .gt => ofBool (decide (y < x))
  | .geq => ofBool (decide (y ≤ x))
  | .eq => ofBool (decide (x = y))
  | .neq => ofBool (decide (x ≠ y))
  | .dshl => x * 2 ^ y.toNat
  | .dshr => x / 2 ^ y.toNat
  | .and => (GType.pattern w x &&& GType.pattern w y : Nat)
  | .or => (GType.pattern w x ||| GType.pattern w y : Nat)
  | .xor => (GType.pattern w x ^^^ GType.pattern w y : Nat)
  | .cat => (GType.pattern t₁.width x * 2 ^ t₂.width + GType.pattern t₂.width y : Nat)
  | _ => x

namespace Expr

/-- The signal a reference reads or drives. -/
def sig : Expr → Sig
  | .ref n _ => [n]
  | .subField e f _ => e.sig ++ [f]
  | _ => []

/-- The signals an expression reads. -/
def refs : Expr → List Sig
  | .ref n _ => [[n]]
  | .subField e f _ => [e.sig ++ [f]]
  | .uintLit _ _ | .sintLit _ _ => []
  | .mux c t f _ => c.refs ++ t.refs ++ f.refs
  | .validIf c e _ => c.refs ++ e.refs
  | .doPrim1 _ a _ _ => a.refs
  | .doPrim2 _ a b _ _ => a.refs ++ b.refs

end Expr

/-- The value of an expression in a module instance whose signals have the values `v`. -/
def eval (v : Sig → Int) : Expr → Int
  | .ref n t => t.clip (v [n])
  | .subField e f t => t.clip (v (e.sig ++ [f]))
  | .uintLit x w => (GType.uint w).clip x
  | .sintLit x w => (GType.sint w).clip x
  | .mux c t f _ => if eval v c ≠ 0 then eval v t else eval v f
  -- the value of an invalid `validif` is unspecified; `RemoveValidIf` picks the operand
  | .validIf _ e _ => eval v e
  | .doPrim1 op a consts t => t.clip (primEval1 op a.tpe (eval v a) consts)
  | .doPrim2 op a b _ t => t.clip (primEval2 op a.tpe b.tpe (eval v a) (eval v b))

/-- An expression of type `UInt<1>`, the branches of its muxes included. -/
def Expr.isBit : Expr → Bool
  | .ref _ t | .subField _ _ t | .doPrim1 _ _ _ t | .doPrim2 _ _ _ _ t => t = .uint 1
  | .uintLit _ w => w = 1
  | .sintLit _ _ => false
  | .mux _ a b t => a.isBit && b.isBit && t = .uint 1
  | .validIf _ e t => e.isBit && t = .uint 1

/-- A component of one bit is 0 or 1. -/
theorem clip_bit (x : Int) : (GType.uint 1).clip x = 0 ∨ (GType.uint 1).clip x = 1 := by
  show x % 2 ^ 1 = 0 ∨ x % 2 ^ 1 = 1
  omega

theorem eval_isBit {v : Sig → Int} {e : Expr} (h : e.isBit = true) : eval v e = 0 ∨ eval v e = 1 := by
  induction e with
  | sintLit => cases h
  | uintLit x w =>
      simp only [Expr.isBit, decide_eq_true_eq] at h
      subst h
      exact clip_bit _
  | mux c a b t _ iha ihb =>
      simp only [Expr.isBit, Bool.and_eq_true] at h
      simp only [eval]
      split
      · exact iha h.1.1
      · exact ihb h.1.2
  | validIf c e t _ ihe =>
      simp only [Expr.isBit, Bool.and_eq_true] at h
      exact ihe h.1
  | _ =>
      simp only [Expr.isBit, decide_eq_true_eq] at h
      subst h
      exact clip_bit _

theorem Expr.tpe_of_isBit {e : Expr} (h : e.isBit = true) : e.tpe = .uint 1 := by
  cases e <;> simp_all [Expr.isBit, Expr.tpe]

/-- The OR of two bits. -/
theorem clip_or_bit {x y : Int} (hx : x = 0 ∨ x = 1) (hy : y = 0 ∨ y = 1) :
    (GType.uint 1).clip (primEval2 .or (.uint 1) (.uint 1) x y) = if x = 1 ∨ y = 1 then 1 else 0 := by
  rcases hx with rfl | rfl <;> rcases hy with rfl | rfl <;> decide

/-- An expression only sees the signals it reads. -/
theorem eval_congr {v w : Sig → Int} {e : Expr} (h : ∀ s ∈ e.refs, v s = w s) :
    eval v e = eval w e := by
  induction e with
  | ref n t => simp only [eval, h [n] (by simp [Expr.refs])]
  | subField e f t _ => simp only [eval, h (e.sig ++ [f]) (by simp [Expr.refs])]
  | uintLit => rfl
  | sintLit => rfl
  | mux c a b t ihc iha ihb =>
      simp only [Expr.refs, List.mem_append] at h
      simp only [eval, ihc fun s hs => h s (.inl (.inl hs)), iha fun s hs => h s (.inl (.inr hs)),
        ihb fun s hs => h s (.inr hs)]
  | validIf c e t _ ihe =>
      simp only [Expr.refs, List.mem_append] at h
      simp only [eval, ihe fun s hs => h s (.inr hs)]
  | doPrim1 op a cs t ih => simp only [eval, ih h]
  | doPrim2 op a b cs t iha ihb =>
      simp only [Expr.refs, List.mem_append] at h
      simp only [eval, iha fun s hs => h s (.inl hs), ihb fun s hs => h s (.inr hs)]

/-! ## 2. State -/

/-- What one port of a memory is given in a cycle. A reader has no mask, data or write mode. -/
structure PortIn where
  addr : Int
  en : Int
  clk : Int
  mask : Int
  data : Int
  wmode : Int
  deriving DecidableEq

/-- A memory: its cells, and the port inputs of the cycles before, newest first. -/
structure MemState where
  cells : Nat → Int
  past : List (List (String × PortIn))

structure State where
  reg : Path → String → Int
  mem : Path → String → MemState

namespace DefMemory

/-- The port inputs of the current cycle. -/
def inputs (d : DefMemory) (v : Sig → Int) : List (String × PortIn) :=
  d.readers.map (fun r => (r, ⟨v [d.name, r, "addr"], v [d.name, r, "en"], v [d.name, r, "clk"],
    0, 0, 0⟩)) ++
  d.writers.map (fun w => (w, ⟨v [d.name, w, "addr"], v [d.name, w, "en"], v [d.name, w, "clk"],
    v [d.name, w, "mask"], v [d.name, w, "data"], 1⟩)) ++
  d.readwriters.map (fun w => (w, ⟨v [d.name, w, "addr"], v [d.name, w, "en"],
    v [d.name, w, "clk"], v [d.name, w, "wmask"], v [d.name, w, "wdata"], v [d.name, w, "wmode"]⟩))

/-- The signals the port inputs are read from. -/
def inputSigs (d : DefMemory) : List Sig :=
  d.readers.flatMap (fun r => ["addr", "en", "clk"].map fun f => [d.name, r, f]) ++
  d.writers.flatMap (fun w => ["addr", "en", "clk", "mask", "data"].map fun f => [d.name, w, f]) ++
  d.readwriters.flatMap (fun w =>
    ["addr", "en", "clk", "wmask", "wdata", "wmode"].map fun f => [d.name, w, f])

/-- The signals the memory drives. -/
def outputSigs (d : DefMemory) : List Sig :=
  d.readers.map (fun r => [d.name, r, "data"]) ++ d.readwriters.map (fun w => [d.name, w, "rdata"])

/-- The data a port reads: the cell its address of `readLatency` cycles ago names. -/
def readData (d : DefMemory) (s : MemState) (now : List (String × PortIn)) (port : String) : Int :=
  match (now :: s.past)[d.readLatency]? with
  | none => 0
  | some ins =>
    match ins.lookup port with
    | none => 0
    | some i =>
      if i.en ≠ 0 ∧ i.wmode = 0 ∧ 0 ≤ i.addr ∧ i.addr < d.depth then s.cells i.addr.toNat else 0

/-- One port writes its cell. -/
def store (d : DefMemory) (cells : Nat → Int) (i : PortIn) : Nat → Int :=
  if i.wmode ≠ 0 ∧ i.en ≠ 0 ∧ i.mask ≠ 0 ∧ i.clk ≠ 0 ∧ 0 ≤ i.addr ∧ i.addr < d.depth then
    Function.update cells i.addr.toNat (d.dataType.clip i.data)
  else cells

theorem store_of_read {d : DefMemory} {cells : Nat → Int} {i : PortIn} (h : i.wmode = 0) :
    d.store cells i = cells := by
  simp [store, h]

theorem store_of_write {d : DefMemory} (cells : Nat → Int) {a e c k x : Int} (he : e = 1)
    (hc : c = 1) (hk : k = 1) (h0 : 0 ≤ a) (hd : a < d.depth) :
    d.store cells ⟨a, e, c, k, x, 1⟩ = Function.update cells a.toNat (d.dataType.clip x) := by
  simp [store, he, hc, hk, h0, hd]

/-- The clock edge of a memory: a write of `writeLatency` cycles ago lands. -/
def next (d : DefMemory) (s : MemState) (now : List (String × PortIn)) : MemState where
  cells :=
    match (now :: s.past)[d.writeLatency - 1]? with
    | none => s.cells
    | some ins => ins.foldl (fun c x => d.store c x.2) s.cells
  past := now :: s.past

theorem inputs_congr {d : DefMemory} {v w : Sig → Int} (h : ∀ s ∈ d.inputSigs, v s = w s) :
    d.inputs v = d.inputs w := by
  have hr : ∀ r ∈ d.readers, ∀ f ∈ ["addr", "en", "clk"], v [d.name, r, f] = w [d.name, r, f] :=
    fun r hr f hf => h _ (by
      simp only [inputSigs, List.mem_append, List.mem_flatMap]
      exact .inl (.inl ⟨r, hr, List.mem_map_of_mem hf⟩))
  have hw : ∀ r ∈ d.writers, ∀ f ∈ ["addr", "en", "clk", "mask", "data"],
      v [d.name, r, f] = w [d.name, r, f] :=
    fun r hr f hf => h _ (by
      simp only [inputSigs, List.mem_append, List.mem_flatMap]
      exact .inl (.inr ⟨r, hr, List.mem_map_of_mem hf⟩))
  have hrw : ∀ r ∈ d.readwriters, ∀ f ∈ ["addr", "en", "clk", "wmask", "wdata", "wmode"],
      v [d.name, r, f] = w [d.name, r, f] :=
    fun r hr f hf => h _ (by
      simp only [inputSigs, List.mem_append, List.mem_flatMap]
      exact .inr ⟨r, hr, List.mem_map_of_mem hf⟩)
  unfold inputs
  congr 1
  · congr 1
    · refine List.map_congr_left fun r hm => ?_
      simp [hr r hm]
    · refine List.map_congr_left fun r hm => ?_
      simp [hw r hm]
  · refine List.map_congr_left fun r hm => ?_
    simp [hrw r hm]

end DefMemory

namespace DefRegister

/-- The value a register shows: an asserted asynchronous reset takes it to `init` at once. -/
def current (r : DefRegister) (v : Sig → Int) (x : Int) : Int :=
  if r.reset.tpe = .asyncReset ∧ eval v r.reset ≠ 0 then r.tpe.clip (eval v r.init) else x

/-- `x` is a value the register can take at the clock edge: it keeps its value while its clock
    does not tick or nothing is connected to it, and takes what is connected otherwise. -/
def Next (leaves : List Stmt) (v : Sig → Int) (r : DefRegister) (x : Int) : Prop :=
  if eval v r.clock = 0 then x = v [r.name]
  else if eval v r.reset ≠ 0 then x = r.tpe.clip (eval v r.init)
  else
    (∀ loc e, .connect loc e ∈ leaves → loc.sig = [r.name] → x = r.tpe.clip (eval v e)) ∧
    ((∀ loc e, .connect loc e ∈ leaves → loc.sig ≠ [r.name]) → x = v [r.name])

/-- A register takes its old value or one of its type. -/
theorem Next.range {leaves : List Stmt} {v : Sig → Int} {r : DefRegister} {x : Int}
    (h : r.Next leaves v x) : x = v [r.name] ∨ ∃ y, x = r.tpe.clip y := by
  unfold Next at h
  split at h
  · exact .inl h
  · split at h
    · exact .inr ⟨_, h⟩
    · by_cases hc : ∃ loc e, .connect loc e ∈ leaves ∧ loc.sig = [r.name]
      · obtain ⟨loc, e, hm, hs⟩ := hc
        exact .inr ⟨_, h.1 loc e hm hs⟩
      · exact .inl (h.2 fun loc e hm hs => hc ⟨loc, e, hm, hs⟩)

end DefRegister

/-! ## 3. Instances, settled valuations, runs -/

namespace Circuit

/-- The instances of a circuit. -/
inductive Inst (C : Circuit) : Path → DefModule → Prop where
  | top {m : DefModule} (h : C.find C.main = some m) : Inst C [] m
  | sub {p : Path} {m : Module} {i : WDefInstance} {m' : DefModule} (h : Inst C p (.module m))
      (hi : i ∈ m.insts) (hf : C.find i.module = some m') : Inst C (p ++ [i.name]) m'

end Circuit

/-- The equation of a statement in the instance at `p`; `regs` are the registers of its module. -/
def Stmt.Holds (C : Circuit) (regs : List DefRegister) (st : State) (V : Valuation) (p : Path) :
    Stmt → Prop
  | .defNode n e => V p [n] = eval (V p) e
  | .defRegister r => V p [r.name] = r.current (V p) (st.reg p r.name)
  | .defMemory d =>
      (∀ r ∈ d.readers,
        V p [d.name, r, "data"] = d.readData (st.mem p d.name) (d.inputs (V p)) r) ∧
      ∀ r ∈ d.readwriters,
        V p [d.name, r, "rdata"] = d.readData (st.mem p d.name) (d.inputs (V p)) r
  | .defInstance i =>
      ∀ m, C.find i.module = some m → ∀ q ∈ m.ports, V p [i.name, q.name] = V (p ++ [i.name]) [q.name]
  | .connect loc e =>
      (∀ r ∈ regs, loc.sig ≠ [r.name]) → V p loc.sig = loc.tpe.clip (eval (V p) e)
  | .attach es => ∀ a ∈ es, ∀ b ∈ es, V p a.sig = V p b.sig
  | _ => True

namespace Circuit

/-- Every equation of every instance holds. -/
def Settled (C : Circuit) (st : State) (V : Valuation) : Prop :=
  ∀ p m, C.Inst p (.module m) → ∀ s ∈ m.leaves, s.Holds C m.regs st V p

/-- The clock edge at the end of a cycle whose settled valuation is `V`. -/
structure Next (C : Circuit) (st : State) (V : Valuation) (st' : State) : Prop where
  reg : ∀ p m, C.Inst p (.module m) → ∀ r ∈ m.regs, r.Next m.leaves (V p) (st'.reg p r.name)
  mem : ∀ p m, C.Inst p (.module m) → ∀ d, .defMemory d ∈ m.leaves →
    st'.mem p d.name = d.next (st.mem p d.name) (d.inputs (V p))

/-- A run: cycle `t` starts in `st t` and settles to `val t`. -/
structure IsRun (C : Circuit) (st : Nat → State) (val : Nat → Valuation) : Prop where
  settled : ∀ t, C.Settled (st t) (val t)
  next : ∀ t, C.Next (st t) (val t) (st (t + 1))

/-- The top module's signals. -/
theorem Inst.nil_inv {C : Circuit} {m : DefModule} (h : C.Inst [] m) : C.find C.main = some m := by
  generalize hp : ([] : Path) = p at h
  cases h with
  | top h => exact h
  | sub => simp at hp

theorem Inst.snoc_inv {C : Circuit} {p : Path} {n : String} {m' : DefModule}
    (h : C.Inst (p ++ [n]) m') :
    ∃ m i, C.Inst p (.module m) ∧ i ∈ m.insts ∧ i.name = n ∧ C.find i.module = some m' := by
  generalize hp : p ++ [n] = q at h
  cases h with
  | top => simp at hp
  | @sub p' m i _ h hi hf =>
      obtain ⟨rfl, hn⟩ := List.append_inj' hp rfl
      have hn' : n = i.name := by simpa using hn
      exact ⟨m, i, h, hi, hn'.symm, hf⟩

end Circuit

end Difuzz.Firrtl
