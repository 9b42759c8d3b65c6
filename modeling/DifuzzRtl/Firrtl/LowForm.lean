/-
  File:      DifuzzRtl/Firrtl/LowForm.lean
  Subject:   LowForm circuits, and that their runs are determined.

  * `IsSig`, `LowForm` -- what FIRRTL's own checks promise of a circuit: distinct names, legal
    identifiers, every reference and every instantiated module declared, connects to references.
  * `Determined` -- the signals that the state and a base of signals fix, without a combinational
    loop: the targets of nodes and connects whose operands are determined, registers, memory
    outputs, both ends of an instance port.
  * `Determined.eq` -- two settled valuations of one state that agree on the base agree on every
    determined signal.
  * `State.Agree`, `next_agree`, `run_agree` -- so two runs from one initial state on the same
    inputs are the same run.
-/
import DifuzzRtl.Firrtl.Hierarchy
import DifuzzRtl.Lib.Collections

namespace Difuzz.Firrtl

/-! ## 1. LowForm circuits -/

/-- The signals of a module: its ports, wires, nodes and registers, the ports of its instances
    and the port fields of its memories. -/
inductive IsSig (C : Circuit) (m : Module) : Sig → Prop where
  | port {q : Port} (h : q ∈ m.ports) : IsSig C m [q.name]
  | wire {n : String} {t : GType} (h : .defWire n t ∈ m.leaves) : IsSig C m [n]
  | node {n : String} {e : Expr} (h : .defNode n e ∈ m.leaves) : IsSig C m [n]
  | reg {r : DefRegister} (h : r ∈ m.regs) : IsSig C m [r.name]
  | inst {i : WDefInstance} {d : DefModule} {q : Port} (hi : i ∈ m.insts)
      (hd : C.find i.module = some d) (hq : q ∈ d.ports) : IsSig C m [i.name, q.name]
  | memIn {d : DefMemory} {s : Sig} (h : .defMemory d ∈ m.leaves) (hs : s ∈ d.inputSigs) :
      IsSig C m s
  | memOut {d : DefMemory} {s : Sig} (h : .defMemory d ∈ m.leaves) (hs : s ∈ d.outputSigs) :
      IsSig C m s

/-- A FIRRTL identifier, as far as the passes depend on it. -/
def LegalName (n : String) : Prop := n ≠ "" ∧ '.' ∉ n.toList ∧ ',' ∉ n.toList

/-- What the checks before LowForm promise of a module: distinct legal names, references that
    resolve, fields of references, and connects to references. -/
structure LowModule (C : Circuit) (m : Module) : Prop where
  nodup : m.declared.Nodup
  legal : ∀ n ∈ m.declared, LegalName n
  resolved : ∀ s ∈ m.leaves, ∀ e ∈ s.exprs, ∀ x ∈ e.refs, IsSig C m x
  fields : ∀ s ∈ m.leaves, ∀ e ∈ s.exprs, e.lowFields = true
  locations : ∀ loc e, .connect loc e ∈ m.leaves → loc.serialize.isSome
  instances : ∀ i ∈ m.insts, ∃ d, C.find i.module = some d

/-- A LowForm circuit. -/
structure LowForm (C : Circuit) : Prop where
  names : (C.modules.map (·.name)).Nodup
  legal : ∀ d ∈ C.modules, LegalName d.name
  modules : ∀ m, .module m ∈ C.modules → LowModule C m

theorem LowForm.inst {C : Circuit} (hL : LowForm C) {p : Path} {m : Module}
    (hp : C.Inst p (.module m)) : LowModule C m := hL.modules m hp.mem

/-- Instances have distinct names when all declarations have. -/
theorem Module.insts_names_nodup {m : Module} (h : m.declared.Nodup) :
    (m.insts.map (·.name)).Nodup := by
  refine List.Sublist.nodup ?_ ((List.nodup_append.mp h).2.1)
  unfold Module.insts
  rw [List.map_filterMap]
  -- instance names are some of the declared names
  induction m.leaves with
  | nil => exact .slnil
  | cons s ss ih =>
      rw [List.filterMap_cons, List.filterMap_cons]
      cases s <;> first | exact .cons_cons _ ih | exact .cons _ ih | exact ih

theorem LowForm.distinctInsts {C : Circuit} (hL : LowForm C) : C.DistinctInsts :=
  fun m hm => Module.insts_names_nodup (hL.modules m hm).nodup

/-- The signals of one name are what the module declares. -/
theorem IsSig.declared {C : Circuit} {m : Module} {n : String} (h : IsSig C m [n]) :
    n ∈ m.declared := by
  have hstmt : ∀ {s : Stmt}, s ∈ m.leaves → s.declName = some n → n ∈ m.declared :=
    fun hs hn => List.mem_append_right _ (List.mem_filterMap.mpr ⟨_, hs, hn⟩)
  generalize hx : [n] = x at h
  cases h with
  | port h =>
      cases hx
      exact List.mem_append_left _ (List.mem_map_of_mem h)
  | wire h =>
      cases hx
      exact hstmt h rfl
  | node h =>
      cases hx
      exact hstmt h rfl
  | reg h =>
      cases hx
      exact hstmt (Module.mem_regs.mp h) rfl
  | inst => cases hx
  | memIn h hs =>
      subst hx
      simp [DefMemory.inputSigs] at hs
  | memOut h hs =>
      subst hx
      simp [DefMemory.outputSigs] at hs

/-- A location whose text is a name without dot is that name. -/
theorem ref_of_serialize {loc : Expr} {n : String} (h : loc.serialize = some n)
    (hn : '.' ∉ n.toList) : ∃ t, loc = .ref n t := by
  cases loc with
  | ref n' t =>
      cases h
      exact ⟨t, rfl⟩
  | subField e f t =>
      simp only [Expr.serialize, Option.map_eq_some_iff] at h
      obtain ⟨x, _, rfl⟩ := h
      simp at hn
  | _ => cases h

/-- A location that drives a signal of one name is that name. -/
theorem ref_of_sig {loc : Expr} (h : loc.serialize.isSome) {n : String} (hs : loc.sig = [n]) :
    ∃ t, loc = .ref n t := by
  cases loc with
  | ref n' t =>
      cases hs
      exact ⟨t, rfl⟩
  | subField e f t =>
      -- the text of the record is a location too, so its signal has a name
      have he : e.sig = [] := by
        simp only [Expr.sig] at hs
        exact (List.append_eq_singleton_iff.mp hs).elim And.left fun h => by cases h.2
      have hes : e.serialize.isSome := by
        simpa [Expr.serialize] using h
      cases e with
      | ref => cases he
      | subField => simp [Expr.sig] at he
      | _ => cases hes
  | _ => cases h

/-! ## 2. Determined signals -/

/-- The signals that the state and the signals in `B` fix. -/
inductive Determined (C : Circuit) (B : Path → Sig → Prop) : Path → Sig → Prop where
  | base {p : Path} {s : Sig} (h : B p s) : Determined C B p s
  | node {p : Path} {m : Module} {n : String} {e : Expr} (hp : C.Inst p (.module m))
      (hs : .defNode n e ∈ m.leaves) (he : ∀ x ∈ e.refs, Determined C B p x) : Determined C B p [n]
  | connect {p : Path} {m : Module} {loc e : Expr} (hp : C.Inst p (.module m))
      (hs : .connect loc e ∈ m.leaves) (hr : ∀ r ∈ m.regs, loc.sig ≠ [r.name])
      (he : ∀ x ∈ e.refs, Determined C B p x) : Determined C B p loc.sig
  | reg {p : Path} {m : Module} {r : DefRegister} (hp : C.Inst p (.module m)) (hr : r ∈ m.regs)
      (he : r.reset.tpe = .asyncReset → ∀ x ∈ r.reset.refs ++ r.init.refs, Determined C B p x) :
      Determined C B p [r.name]
  | read {p : Path} {m : Module} {d : DefMemory} {r : String} (hp : C.Inst p (.module m))
      (hd : .defMemory d ∈ m.leaves) (hr : r ∈ d.readers)
      (he : d.readLatency = 0 → ∀ f ∈ ["addr", "en"], Determined C B p [d.name, r, f]) :
      Determined C B p [d.name, r, "data"]
  | readwrite {p : Path} {m : Module} {d : DefMemory} {r : String} (hp : C.Inst p (.module m))
      (hd : .defMemory d ∈ m.leaves) (hr : r ∈ d.readwriters)
      (he : d.readLatency = 0 → ∀ f ∈ ["addr", "en", "wmode"], Determined C B p [d.name, r, f]) :
      Determined C B p [d.name, r, "rdata"]
  | up {p : Path} {m : Module} {i : WDefInstance} {d : DefModule} {q : Port}
      (hp : C.Inst p (.module m)) (hi : i ∈ m.insts) (hf : C.find i.module = some d)
      (hq : q ∈ d.ports) (he : Determined C B (p ++ [i.name]) [q.name]) :
      Determined C B p [i.name, q.name]
  | down {p : Path} {m : Module} {i : WDefInstance} {d : DefModule} {q : Port}
      (hp : C.Inst p (.module m)) (hi : i ∈ m.insts) (hf : C.find i.module = some d)
      (hq : q ∈ d.ports) (he : Determined C B p [i.name, q.name]) :
      Determined C B (p ++ [i.name]) [q.name]

/-- The states hold the same values in every register and memory of the circuit. -/
structure State.Agree (C : Circuit) (st st' : State) : Prop where
  reg : ∀ p m, C.Inst p (.module m) → ∀ r ∈ m.regs, st.reg p r.name = st'.reg p r.name
  mem : ∀ p m, C.Inst p (.module m) → ∀ d, .defMemory d ∈ m.leaves →
    st.mem p d.name = st'.mem p d.name

namespace DefMemory

/-- What a port reads depends on its address, its enable and its write mode. -/
theorem readData_congr {d : DefMemory} {s : MemState} {v w : Sig → Int} {port : String}
    (h : d.readLatency = 0 → v [d.name, port, "addr"] = w [d.name, port, "addr"] ∧
      v [d.name, port, "en"] = w [d.name, port, "en"] ∧
      (port ∉ d.readers → v [d.name, port, "wmode"] = w [d.name, port, "wmode"])) :
    d.readData s (d.inputs v) port = d.readData s (d.inputs w) port := by
  unfold readData
  cases hl : d.readLatency with
  | succ n => rfl
  | zero =>
      obtain ⟨ha, he, hw⟩ := h hl
      simp only [List.getElem?_cons_zero, inputs, List.lookup_append, Dict.lookup_map_self]
      -- the first port of the name, among readers, then writers, then readwriters
      by_cases hr : port ∈ d.readers
      · simp [hr, ha, he]
      · by_cases hwr : port ∈ d.writers
        · simp [hr, hwr]
        · by_cases hrw : port ∈ d.readwriters
          · simp [hr, hwr, hrw, ha, he, hw hr]
          · simp [hr, hwr, hrw]

end DefMemory

theorem DefRegister.current_congr {r : DefRegister} {v w : Sig → Int} {x : Int}
    (h : r.reset.tpe = .asyncReset → ∀ s ∈ r.reset.refs ++ r.init.refs, v s = w s) :
    r.current v x = r.current w x := by
  unfold DefRegister.current
  by_cases ht : r.reset.tpe = .asyncReset
  · rw [eval_congr fun s hs => h ht s (List.mem_append_left _ hs),
      eval_congr fun s hs => h ht s (List.mem_append_right _ hs)]
  · simp only [ht, false_and, if_false]

/-- **Determined signals are determined**: two settled valuations of states that agree, with the
    same base, agree on them. -/
theorem Determined.eq {C : Circuit} {B : Path → Sig → Prop} {st st' : State} {V W : Valuation}
    (hV : C.Settled st V) (hW : C.Settled st' W) (hst : State.Agree C st st')
    (hB : ∀ p s, B p s → V p s = W p s) {p : Path} {s : Sig} (h : Determined C B p s) :
    V p s = W p s := by
  induction h with
  | base h => exact hB _ _ h
  | node hp hs _ ih => exact (hV _ _ hp _ hs).trans ((eval_congr ih).trans (hW _ _ hp _ hs).symm)
  | @connect p m loc e hp hs hr _ ih =>
      have h₁ : V p loc.sig = loc.tpe.clip (eval (V p) e) := hV _ _ hp _ hs hr
      have h₂ : W p loc.sig = loc.tpe.clip (eval (W p) e) := hW _ _ hp _ hs hr
      rw [h₁, h₂, eval_congr ih]
  | @reg p m r hp hr _ ih =>
      have hs := Module.mem_regs.mp hr
      have h₁ : V p [r.name] = r.current (V p) (st.reg p r.name) := hV _ _ hp _ hs
      have h₂ : W p [r.name] = r.current (W p) (st'.reg p r.name) := hW _ _ hp _ hs
      rw [h₁, h₂, hst.reg p m hp r hr]
      exact DefRegister.current_congr ih
  | @read p m d r hp hd hr _ ih =>
      refine ((hV _ _ hp _ hd).1 r hr).trans (Eq.trans ?_ ((hW _ _ hp _ hd).1 r hr).symm)
      rw [hst.mem p m hp d hd]
      refine DefMemory.readData_congr fun h0 => ⟨ih h0 "addr" (by simp), ih h0 "en" (by simp), ?_⟩
      exact fun hn => absurd hr hn
  | @readwrite p m d r hp hd hr _ ih =>
      refine ((hV _ _ hp _ hd).2 r hr).trans (Eq.trans ?_ ((hW _ _ hp _ hd).2 r hr).symm)
      rw [hst.mem p m hp d hd]
      exact DefMemory.readData_congr fun h0 => ⟨ih h0 "addr" (by simp), ih h0 "en" (by simp),
        fun _ => ih h0 "wmode" (by simp)⟩
  | up hp hi hf hq _ ih =>
      have hs := Module.mem_insts.mp hi
      exact (hV _ _ hp _ hs _ hf _ hq).trans (ih.trans (hW _ _ hp _ hs _ hf _ hq).symm)
  | down hp hi hf hq _ ih =>
      have hs := Module.mem_insts.mp hi
      exact (hV _ _ hp _ hs _ hf _ hq).symm.trans (ih.trans (hW _ _ hp _ hs _ hf _ hq))

/-! ## 3. Runs -/

/-- A register takes one value at the clock edge. -/
theorem DefRegister.Next.eq {leaves : List Stmt} {r : DefRegister} {v w : Sig → Int} {x y : Int}
    (hx : r.Next leaves v x) (hy : r.Next leaves w y)
    (hr : ∀ e ∈ [r.clock, r.reset, r.init], eval v e = eval w e) (hv : v [r.name] = w [r.name])
    (hc : ∀ loc e, .connect loc e ∈ leaves → loc.sig = [r.name] → eval v e = eval w e) : x = y := by
  unfold DefRegister.Next at hx hy
  have h₁ := hr r.clock (by simp)
  have h₂ := hr r.reset (by simp)
  have h₃ := hr r.init (by simp)
  rw [h₁, h₂, h₃] at hx
  by_cases hk : eval w r.clock = 0
  · rw [if_pos hk] at hx hy
    rw [hx, hy, hv]
  · rw [if_neg hk] at hx hy
    by_cases hrs : eval w r.reset ≠ 0
    · rw [if_pos hrs] at hx hy
      rw [hx, hy]
    · rw [if_neg hrs] at hx hy
      by_cases hex : ∃ loc e, .connect loc e ∈ leaves ∧ loc.sig = [r.name]
      · obtain ⟨loc, e, hm, hs⟩ := hex
        rw [hx.1 loc e hm hs, hy.1 loc e hm hs, hc loc e hm hs]
      · have hno : ∀ loc e, .connect loc e ∈ leaves → loc.sig ≠ [r.name] :=
          fun loc e hm hs => hex ⟨loc, e, hm, hs⟩
        rw [hx.2 hno, hy.2 hno, hv]

/-- The input ports of the top module. -/
def Circuit.TopInput (C : Circuit) (p : Path) (s : Sig) : Prop :=
  p = [] ∧ ∃ m q, C.find C.main = some (.module m) ∧ q ∈ m.ports ∧ q.direction = .input ∧
    s = [q.name]

/-- No combinational loop and nothing undriven: the top inputs determine every signal. -/
def Circuit.Combinational (C : Circuit) : Prop :=
  ∀ p m s, C.Inst p (.module m) → IsSig C m s → Determined C C.TopInput p s

section Runs

variable {C : Circuit} (hL : LowForm C)

include hL

/-- The clock edge of valuations that agree on every signal. -/
theorem next_agree {st st' st₁ st₁' : State} {V W : Valuation} (hst : State.Agree C st st')
    (hVW : ∀ p m, C.Inst p (.module m) → ∀ s, IsSig C m s → V p s = W p s) (hV : C.Next st V st₁)
    (hW : C.Next st' W st₁') : State.Agree C st₁ st₁' := by
  refine ⟨fun p m hp r hr => ?_, fun p m hp d hd => ?_⟩
  · have heval : ∀ s ∈ m.leaves, ∀ e ∈ s.exprs, eval (V p) e = eval (W p) e := fun s hs e he =>
      eval_congr fun x hx => hVW p m hp x ((hL.inst hp).resolved s hs e he x hx)
    refine DefRegister.Next.eq (hV.reg p m hp r hr) (hW.reg p m hp r hr)
      (fun e he => heval _ (Module.mem_regs.mp hr) e he) (hVW p m hp _ (.reg hr)) ?_
    exact fun loc e hm _ => heval _ hm e (by simp [Stmt.exprs])
  · rw [hV.mem p m hp d hd, hW.mem p m hp d hd, hst.mem p m hp d hd,
      DefMemory.inputs_congr fun s hs => hVW p m hp s (.memIn hd hs)]

/-- **Runs are determined** by the initial state and the inputs. -/
theorem run_agree (hdet : C.Combinational) {st st' : Nat → State} {val val' : Nat → Valuation}
    (h : C.IsRun st val) (h' : C.IsRun st' val') (h0 : State.Agree C (st 0) (st' 0))
    (hin : ∀ t p s, C.TopInput p s → val t p s = val' t p s) (t : Nat) :
    State.Agree C (st t) (st' t) ∧
    ∀ p m, C.Inst p (.module m) → ∀ s, IsSig C m s → val t p s = val' t p s := by
  have hval : ∀ t, State.Agree C (st t) (st' t) →
      ∀ p m, C.Inst p (.module m) → ∀ s, IsSig C m s → val t p s = val' t p s :=
    fun t hst p m hp s hs =>
      (hdet p m s hp hs).eq (h.settled t) (h'.settled t) hst (hin t)
  induction t with
  | zero => exact ⟨h0, hval 0 h0⟩
  | succ t ih =>
      have hst := next_agree hL ih.1 ih.2 (h.next t) (h'.next t)
      exact ⟨hst, hval (t + 1) hst⟩

end Runs

end Difuzz.Firrtl
