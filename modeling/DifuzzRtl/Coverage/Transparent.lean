/-
  File:      DifuzzRtl/Coverage/Transparent.lean
  Subject:   The instrumented circuit runs like the original one while nothing resets it.

  The passes add statements and muxes in front of registers. Every equation of the original
  circuit is still among the equations of the instrumented one, except that a register connect
  goes through a mux on `metaReset`; so a valuation that settles the instrumented circuit settles
  the original one, and with `metaReset` low everywhere a clock edge of the one is a clock edge
  of the other.

  * `settled_of_instrumented` -- whatever `metaReset` is.
  * `metaReset_zero` -- a low `metaReset` at the top and low halts make it low everywhere.
  * `next_of_instrumented`, `run_of_instrumented` -- the simulation.
  * `instrumented_transparent` -- with the determinism of runs: the same values in every original
    signal, register and memory, at every cycle.
-/
import DifuzzRtl.Coverage.CovCount

namespace Difuzz.Coverage

open Firrtl

/-! ## 1. Names of the module and added names -/

namespace Parts

variable {cfg : Config} {C : Circuit} {m mm : Module} (P : Parts cfg C m mm)
  (hf : mm.declared.Nodup)

include P hf

/-- What a pass declares, the module had not declared. -/
theorem added_not_declared {n : String} (hn : Declares P.cov n ∨ Declares P.asserts n) :
    n ∉ m.declared := by
  rw [P.declared_eq] at hf
  obtain ⟨hp, hd, hports⟩ := List.nodup_append.mp hf
  obtain ⟨hmc, _, hca⟩ := List.nodup_append.mp hd
  intro hm
  rcases List.mem_append.mp hm with hm | hm
  · refine hports n (List.mem_append_left _ hm) n ?_ rfl
    rcases hn with hn | hn
    · exact List.mem_append_left _ (List.mem_append_right _ (mem_filterMap_declName.mpr hn))
    · exact List.mem_append_right _ (mem_filterMap_declName.mpr hn)
  · rcases hn with hn | hn
    · exact (List.nodup_append.mp hmc).2.2 n hm n (mem_filterMap_declName.mpr hn) rfl
    · exact hca n (List.mem_append_left _ hm) n (mem_filterMap_declName.mpr hn) rfl

/-- A register of the instrumented module is an old one, or its name is new. -/
theorem mem_mm_regs {r : DefRegister} (hr : r ∈ mm.regs) : r ∈ m.regs ∨ r.name ∉ m.declared := by
  have hs := (P.mem_leaves_iff (by intro _ _ h; cases h)).mp (Module.mem_regs.mp hr)
  rcases P.mem_old.mp hs with hs | hs | hs
  · exact .inl (Module.mem_regs.mpr hs)
  · exact .inr (P.added_not_declared hf (.inl ⟨_, hs, rfl⟩))
  · exact .inr (P.added_not_declared hf (.inr ⟨_, hs, rfl⟩))

end Parts

/-- A connect of the module drives a name of the module, or a field. -/
theorem user_loc {C : Circuit} {m : Module} (hm : LowModule C m) {loc e : Expr}
    (hs : .connect loc e ∈ m.leaves) {n : String} (hn : loc.sig = [n]) : n ∈ m.declared := by
  obtain ⟨t, rfl⟩ := ref_of_sig (hm.locations loc e hs) hn
  have hsig := hm.resolved _ hs (.ref n t) (by simp [Stmt.exprs]) [n] (by simp [Expr.refs])
  exact hsig.declared

namespace Parts

variable {cfg : Config} {C : Circuit} {m mm : Module} (P : Parts cfg C m mm)
  (hL : LowForm C) (hm : .module m ∈ C.modules) (hf : mm.declared.Nodup)

include P hL hm hf

/-- **A connect of the module** is still there, or it drives one of the module's registers and
    is muxed with the reset. -/
theorem user_connect {loc e : Expr} (hs : .connect loc e ∈ m.leaves) :
    .connect loc e ∈ mm.leaves ∨
    (∃ r ∈ m.regs, loc.sig = [r.name]) ∧
      ∃ w, .connect loc (.mux InstrReset.metaReset (.uintLit 0 w) e .unknown) ∈ mm.leaves := by
  by_cases hr : ∃ r ∈ P.regs, loc.serialize = some r.name
  · obtain ⟨r, hr, hser⟩ := hr
    right
    refine ⟨?_, P.mem_leaves_of_reg (P.mem_old.mpr (.inl hs)) hr hser⟩
    obtain ⟨t, rfl⟩ := ref_of_serialize hser (P.regs_no_dot hL hm hr)
    rcases P.mem_regs (hL.modules m hm).nodup hr with hu | ⟨_, ha⟩
    · exact ⟨r, hu, rfl⟩
    · -- the sticky register has a new name, which no statement of the module drives
      exact absurd (user_loc (hL.modules m hm) hs rfl) (P.added_not_declared hf (.inr ⟨_, ha, rfl⟩))
  · left
    refine P.mem_leaves_of_mem (P.mem_old.mpr (.inl hs)) fun loc' e' he r hr' hser => ?_
    cases he
    exact hr ⟨r, hr', hser⟩

/-- A connect of the instrumented module that drives an old register is one of the module's. -/
theorem connect_of_reg {loc e : Expr} (hs : .connect loc e ∈ mm.leaves) {r : DefRegister}
    (hr : r ∈ m.regs) (hl : loc.sig = [r.name]) : ∃ e', .connect loc e' ∈ m.leaves := by
  have hreg : r ∈ P.regs :=
    List.mem_append_left _ ((P.mem_info_regs (hL.modules m hm).nodup).mpr hr)
  have hold : ∀ e', .connect loc e' ∈ P.old → .connect loc e' ∈ m.leaves := by
    intro e' hs
    rcases P.mem_old.mp hs with hs | hs | hs
    · exact hs
    · rcases P.c.addedStmts_targets P.hcov _ _ hs with ⟨n, t, rfl, hn⟩ | ⟨port, field, t, rfl⟩
      · exact absurd (List.cons.inj hl).1 (P.cov_name_ne hL hm hf hreg hn)
      · exact absurd (congrArg List.length hl) (by simp [InstrCov.covField, Expr.sig])
    · obtain ⟨n, t, rfl, hn⟩ := InstrAssert.addedStmts_targets _ _ hs
      exact absurd (List.cons.inj hl).1 (P.assert_name_ne hf hr hn)
  rcases P.mem_leaves_inv hs with hs | ⟨loc', e', _, _, hs', _, _, he⟩ | ⟨i, _, he⟩
  · exact ⟨e, hold e hs⟩
  · cases he
    exact ⟨e', hold e' hs'⟩
  · cases he
    exact absurd (congrArg List.length hl) (by simp [Expr.sig])

end Parts

/-! ## 2. The simulation -/

section Simulation

variable {cfg : Config} {C C' : Circuit} (hL : LowForm C) (hex : execute cfg C = some C')
  (hf : Fresh C')

include hex in
/-- The ports of a module are ports of the instrumented module. -/
theorem ports_subset {n : String} {d : DefModule} (hd : C.find n = some d) :
    ∃ d', C'.find n = some d' ∧ ∀ q ∈ d.ports, q ∈ d'.ports := by
  obtain ⟨d', hd', hins⟩ := find_of_find hex hd
  refine ⟨d', hd', ?_⟩
  cases d with
  | ext e =>
      rw [ext_of_instrumented hins]
      exact fun q hq => hq
  | module m =>
      obtain ⟨mm, rfl, ⟨P⟩⟩ := parts_of_instrumented hins
      intro q hq
      show q ∈ mm.ports
      rw [P.ports_eq]
      simp only [List.append_assoc]
      exact List.mem_append_left _ hq

include hL hex hf

/-- **What settles the instrumented circuit settles the original one.** -/
theorem settled_of_instrumented {st : State} {V : Valuation} (h : C'.Settled st V) :
    C.Settled st V := by
  intro p m hp s hs
  obtain ⟨mm, hp', ⟨P⟩⟩ := parts_of_inst hex hp
  have hfm := hf mm hp'.mem
  have keep : (∀ loc e, s ≠ .connect loc e) → s.Holds C' mm.regs st V p := fun hn =>
    h p mm hp' s ((P.mem_leaves_iff hn).mpr (P.mem_old.mpr (.inl hs)))
  cases s with
  | connect loc e =>
      intro hr
      rcases P.user_connect hL hp.mem hfm hs with hs' | ⟨⟨r, hrm, hl⟩, _⟩
      · refine h p mm hp' _ hs' fun r hrm => ?_
        rcases P.mem_mm_regs hfm hrm with hu | hnew
        · exact hr r hu
        · exact fun hl => hnew (user_loc (hL.inst hp) hs hl)
      · exact absurd hl (hr r hrm)
  | defInstance i =>
      intro d hd q hq
      obtain ⟨d', hd', hsub⟩ := ports_subset hex hd
      exact keep (fun _ _ h => nomatch h) d' hd' q (hsub q hq)
  | defNode n e => exact keep fun _ _ h => nomatch h
  | defRegister r => exact keep fun _ _ h => nomatch h
  | defMemory d => exact keep fun _ _ h => nomatch h
  | attach es => exact keep fun _ _ h => nomatch h
  | defWire => trivial
  | block => trivial
  | isInvalid => trivial
  | stop => trivial
  | print => trivial
  | empty => trivial

/-- `metaReset` and the halts of every instance are low. -/
structure Quiet (C : Circuit) (V : Valuation) : Prop where
  top : V [] ["metaReset"] = 0
  halts : ∀ p m i, C.Inst p (.module m) → i ∈ m.insts → V p [InstrReset.haltName i] = 0

omit hL hf in
/-- The reset of an instance is the OR of the reset above it and its halt input. -/
theorem metaReset_child {st : State} {V : Valuation} (h : C'.Settled st V) {p : Path} {m m' : Module}
    {i : WDefInstance} (hp : C.Inst p (.module m)) (hi : i ∈ m.insts)
    (hfi : C.find i.module = some (.module m')) :
    V (p ++ [i.name]) ["metaReset"] =
      if eval (V p) InstrReset.metaReset = 1 ∨
        eval (V p) (.ref (InstrReset.haltName i) (.uint 1)) = 1 then 1 else 0 := by
  obtain ⟨mm, hp', ⟨P⟩⟩ := parts_of_inst hex hp
  obtain ⟨d', hd', hins⟩ := find_of_find hex hfi
  obtain ⟨mm', rfl, ⟨P'⟩⟩ := parts_of_instrumented hins
  have hport : InstrReset.metaResetPort ∈ mm'.ports := by
    rw [P'.ports_eq]
    simp
  have hlink : V p [i.name, "metaReset"] = V (p ++ [i.name]) ["metaReset"] :=
    h p mm hp' _ (Module.mem_insts.mp (P.mem_insts.mpr hi)) _ hd' _ hport
  have hcon : V p [i.name, "metaReset"] = eval (V p) (.doPrim2 .or InstrReset.metaReset
      (.ref (InstrReset.haltName i) (.uint 1)) [] (.uint 1)) :=
    h p mm hp' _ (P.mem_leaves_resetCon (P.mem_info_insts.mpr hi)) fun r _ hl =>
      absurd (congrArg List.length hl) (by simp [Expr.sig])
  rw [← hlink, hcon]
  exact clip_or_bit (clip_bit _) (clip_bit _)

omit hL hf in
/-- **A low reset at the top is low everywhere.** -/
theorem metaReset_zero {st : State} {V : Valuation} (h : C'.Settled st V) (hq : Quiet C V)
    {p : Path} {m : Module} (hp : C.Inst p (.module m)) : V p ["metaReset"] = 0 := by
  generalize hd : DefModule.module m = d at hp
  induction hp generalizing m with
  | top => exact hq.top
  | @sub p m₀ i d₀ hp hi hfi ih =>
      subst hd
      rw [metaReset_child hex h hp hi hfi]
      have h₁ : eval (V p) InstrReset.metaReset = 0 := by
        simp [eval, InstrReset.metaReset, ih rfl]
      have h₂ : eval (V p) (.ref (InstrReset.haltName i) (.uint 1)) = 0 := by
        simp [eval, hq.halts p m₀ i hp hi]
      rw [h₁, h₂]
      rfl

/-- **A quiet clock edge of the instrumented circuit is one of the original circuit.** -/
theorem next_of_instrumented {st st' : State} {V : Valuation} (hset : C'.Settled st V)
    (hq : Quiet C V) (h : C'.Next st V st') : C.Next st V st' := by
  refine ⟨fun p m hp r hr => ?_, fun p m hp d hd => ?_⟩
  · obtain ⟨mm, hp', ⟨P⟩⟩ := parts_of_inst hex hp
    have hfm := hf mm hp'.mem
    have hr' : r ∈ mm.regs := Module.mem_regs.mpr ((P.mem_leaves_iff (by intro _ _ h; cases h)).mpr
      (P.mem_old.mpr (.inl (Module.mem_regs.mp hr))))
    have hn := h.reg p mm hp' r hr'
    unfold DefRegister.Next at hn ⊢
    split at hn
    · rename_i hc
      rw [if_pos hc]
      exact hn
    · rename_i hc
      rw [if_neg hc]
      split at hn
      · rename_i hrs
        rw [if_pos hrs]
        exact hn
      · rename_i hrs
        rw [if_neg hrs]
        refine ⟨fun loc e hs hl => ?_, fun hno => hn.2 fun loc e hs hl => ?_⟩
        · rcases P.user_connect hL hp.mem hfm hs with hs' | ⟨_, w, hs'⟩
          · exact hn.1 loc e hs' hl
          · -- the mux passes the old value on
            rw [hn.1 loc _ hs' hl]
            have h0 : eval (V p) InstrReset.metaReset = 0 := by
              simp [InstrReset.metaReset, eval, metaReset_zero hex hset hq hp]
            simp [eval, h0]
        · obtain ⟨e', hs'⟩ := P.connect_of_reg hL hp.mem hfm hs hr hl
          exact hno loc e' hs' hl
  · obtain ⟨mm, hp', ⟨P⟩⟩ := parts_of_inst hex hp
    exact h.mem p mm hp' d ((P.mem_leaves_iff (by intro _ _ h; cases h)).mpr
      (P.mem_old.mpr (.inl hd)))

/-- **Simulation**: a quiet run of the instrumented circuit is a run of the original one. -/
theorem run_of_instrumented {st : Nat → State} {val : Nat → Valuation} (h : C'.IsRun st val)
    (hq : ∀ t, Quiet C (val t)) : C.IsRun st val where
  settled t := settled_of_instrumented hL hex hf (h.settled t)
  next t := next_of_instrumented hL hex hf (h.settled t) (hq t) (h.next t)

/-- **Instrumentation does not change the design.** A run of the original circuit, and a run of
    the instrumented one from the same registers and memories on the same inputs, with
    `metaReset` and all halts low: at every cycle and in every instance they have the same values
    of all ports, wires, nodes, registers and memories the circuit had. -/
theorem instrumented_transparent (hdet : C.Combinational) {st st' : Nat → State}
    {val val' : Nat → Valuation} (h : C.IsRun st val) (h' : C'.IsRun st' val')
    (hq : ∀ t, Quiet C (val' t)) (h0 : State.Agree C (st 0) (st' 0))
    (hin : ∀ t p s, C.TopInput p s → val t p s = val' t p s) (t : Nat) :
    State.Agree C (st t) (st' t) ∧
    ∀ p m, C.Inst p (.module m) → ∀ s, IsSig C m s → val t p s = val' t p s :=
  run_agree hL hdet h (run_of_instrumented hL hex hf h' hq) h0 hin t

end Simulation

namespace Demo

def plainLeaf (r : Int) : Sig → Int
  | ["clock"] => 1
  | ["r"] => r
  | _ => 0

def plainTop : Sig → Int
  | ["low", q] => plainLeaf 0 [q]
  | ["high", q] => plainLeaf 1 [q]
  | ["clock"] => 1
  | _ => 0

/-- The run of the original circuit: the registers hold what they start with. -/
def plainVal (_ : Nat) : Valuation
  | [] => plainTop
  | p => plainLeaf (start p)

def plainState (t : Nat) : State := ⟨fun p n => plainVal t p [n], fun _ _ => ⟨fun _ => 0, []⟩⟩

theorem plain_settled (t : Nat) : circuit.Settled (plainState t) (plainVal t) := by
  intro p m hp s hs
  rcases inst_circuit hp with ⟨rfl, rfl⟩ | ⟨hpath, rfl⟩
  · have hinput : ∀ i ∈ [low, high], ∀ q v, q = "clock" ∧ v = .clock ∨ q = "reset" ∧ v = .uint 1 →
        plainVal t [] [i.name, q] = GType.clip v (GType.clip v (plainVal t [] [q])) := by
      intro i hi q v hq
      rcases List.mem_pair.mp hi with rfl | rfl <;> rcases hq with ⟨rfl, rfl⟩ | ⟨rfl, rfl⟩ <;> rfl
    rcases mem_top hs with rfl | rfl | h | h
    · exact fun _ _ q _ => rfl
    · exact fun _ _ q _ => rfl
    · obtain ⟨q, v, rfl, hq⟩ := mem_inputs h
      exact fun _ => hinput low (by decide) q v hq
    · obtain ⟨q, v, rfl, hq⟩ := mem_inputs h
      exact fun _ => hinput high (by decide) q v hq
  · rcases mem_leaf hs with rfl | rfl | rfl
    · rcases hpath with rfl | rfl <;> rfl
    · exact fun h => absurd rfl (h reg (List.mem_singleton_self _))
    · trivial

/-- The top module has nothing but its instances and their inputs. -/
theorem top_stmt {s : Stmt} (h : s ∈ top.leaves) :
    (∃ i, s = .defInstance i) ∨ ∃ loc e, s = .connect loc e := by
  rcases mem_top h with h | h | h | h
  · exact .inl ⟨_, h⟩
  · exact .inl ⟨_, h⟩
  · obtain ⟨_, _, h, _⟩ := mem_inputs h
    exact .inr ⟨_, _, h⟩
  · obtain ⟨_, _, h, _⟩ := mem_inputs h
    exact .inr ⟨_, _, h⟩

theorem no_mem {p : Path} {m : Module} (hp : circuit.Inst p (.module m)) (d : DefMemory) :
    .defMemory d ∉ m.leaves := by
  intro hd
  rcases inst_circuit hp with ⟨rfl, rfl⟩ | ⟨_, rfl⟩
  · rcases top_stmt hd with ⟨_, h⟩ | ⟨_, _, h⟩ <;> cases h
  · rcases mem_leaf hd with h | h | h <;> cases h

theorem plain_next (t : Nat) : circuit.Next (plainState t) (plainVal t) (plainState (t + 1)) := by
  refine ⟨fun p m hp r hr => ?_, fun p m hp d hd => absurd hd (no_mem hp d)⟩
  rcases inst_circuit hp with ⟨rfl, rfl⟩ | ⟨hpath, rfl⟩
  · cases hr
  · cases List.mem_singleton.mp hr
    have hclk : eval (plainVal t p) reg.clock = 1 := by
      rcases hpath with rfl | rfl <;> rfl
    have hrst : eval (plainVal t p) reg.reset = 0 := rfl
    unfold DefRegister.Next
    rw [hclk, hrst, if_neg (by decide), if_neg (by decide)]
    refine ⟨fun loc e hm _ => ?_, fun _ => rfl⟩
    rcases mem_leaf hm with h | h | h <;> cases h
    rcases hpath with rfl | rfl <;> rfl

theorem plain_isRun : circuit.IsRun plainState plainVal := ⟨plain_settled, plain_next⟩

theorem quiet (t : Nat) : Quiet circuit (val 0 t) := by
  refine ⟨rfl, fun p m i hp hi => ?_⟩
  rcases inst_circuit hp with ⟨rfl, rfl⟩ | ⟨_, rfl⟩
  · rcases List.mem_pair.mp (show i ∈ [low, high] from hi) with rfl | rfl <;> rfl
  · cases hi

theorem topInput {q : Port} (hq : q ∈ ports) : circuit.TopInput [] [q.name] := by
  have hdir : ∀ q ∈ ports, q.direction = .input := by decide
  exact ⟨rfl, top, q, rfl, hq, hdir q hq, rfl⟩

/-- The inputs of the leaves come from above. -/
theorem determined_input {i : WDefInstance} (hi : i ∈ [low, high]) {q : Port} (hq : q ∈ ports) :
    Determined circuit circuit.TopInput [] [i.name, q.name] := by
  have hcon : .connect (.subField (.ref i.name .unknown) q.name q.tpe) (.ref q.name q.tpe) ∈
      top.leaves := by
    rcases List.mem_pair.mp hi with rfl | rfl <;> rcases List.mem_pair.mp hq with rfl | rfl <;>
      simp [top, inputs, bit, Module.leaves, Stmt.leavesList, Stmt.leaves]
  refine .connect inst_top hcon (fun r hr => (by cases hr)) fun x hx => ?_
  cases List.mem_singleton.mp hx
  exact .base (topInput hq)

theorem combinational : circuit.Combinational := by
  intro p m s hp hs
  rcases inst_circuit hp with ⟨rfl, rfl⟩ | ⟨hpath, rfl⟩
  · cases hs with
    | port hq => exact .base (topInput hq)
    | reg hr => cases hr
    | @inst i d q hi hd hq =>
        have hleaf : circuit.find i.module = some (.module leaf) := by
          rcases List.mem_pair.mp hi with rfl | rfl <;> rfl
        rw [hleaf] at hd
        cases hd
        exact determined_input hi hq
    | wire h => rcases top_stmt h with ⟨_, h⟩ | ⟨_, _, h⟩ <;> cases h
    | node h => rcases top_stmt h with ⟨_, h⟩ | ⟨_, _, h⟩ <;> cases h
    | memIn h => exact absurd h (no_mem hp _)
    | memOut h => exact absurd h (no_mem hp _)
  · cases hs with
    | port hq =>
        rcases hpath with rfl | rfl
        · exact .down (i := low) inst_top (by decide) rfl hq (determined_input (by decide) hq)
        · exact .down (i := high) inst_top (by decide) rfl hq (determined_input (by decide) hq)
    | reg hr =>
        refine .reg hp hr fun h => ?_
        cases List.mem_singleton.mp hr
        cases h
    | inst hi => cases hi
    | wire h => rcases mem_leaf h with h | h | h <;> cases h
    | node h => rcases mem_leaf h with h | h | h <;> cases h
    | memIn h => exact absurd h (no_mem hp _)
    | memOut h => exact absurd h (no_mem hp _)

end Demo

/-- The leaves of the instrumented circuit hold their registers as those of the original one do. -/
theorem instrumented_transparent_demo :
    State.Agree Demo.circuit (Demo.plainState 0) (Demo.state 0 0) ∧
      ∀ t, Demo.plainVal t ["low"] ["r"] = Demo.val 0 t ["low"] ["r"] ∧
        Demo.plainVal t ["high"] ["r"] = Demo.val 0 t ["high"] ["r"] := by
  have hstart : State.Agree Demo.circuit (Demo.plainState 0) (Demo.state 0 0) := by
    refine ⟨fun p m hp r hr => ?_, fun p m hp d hd => absurd hd (Demo.no_mem hp d)⟩
    rcases Demo.inst_circuit hp with ⟨rfl, rfl⟩ | ⟨hpath, rfl⟩
    · cases hr
    · cases List.mem_singleton.mp hr
      rcases hpath with rfl | rfl <;> rfl
  have hin : ∀ t p s, Demo.circuit.TopInput p s → Demo.plainVal t p s = Demo.val 0 t p s := by
    intro t p s h
    obtain ⟨rfl, m, q, hm, hq, _, rfl⟩ := h
    cases Option.some.inj hm
    rcases List.mem_pair.mp (show q ∈ Demo.ports from hq) with rfl | rfl <;> rfl
  have h := instrumented_transparent Demo.lowForm Demo.execute_eq Demo.fresh Demo.combinational
    Demo.plain_isRun (Demo.isRun (.inl rfl)) Demo.quiet hstart hin
  exact ⟨hstart, fun t => ⟨(h t).2 ["low"] Demo.leaf Demo.inst_low ["r"] (.reg (r := Demo.reg) (by decide)),
    (h t).2 ["high"] Demo.leaf Demo.inst_high ["r"] (.reg (r := Demo.reg) (by decide))⟩⟩

end Difuzz.Coverage
