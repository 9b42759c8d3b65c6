/-
  File:      DifuzzRtl/Coverage/MetaAssert.lean
  Subject:   An assertion failure is never lost and never invented.

  In one instance, the assertion logic takes the OR of the enables of the module's `stop`
  statements and of the `metaAssert` outputs below. A module with a clock and a reset holds it in
  a sticky register, one cycle late; another one hands it on at once. Along a path of instances
  the delays add up.

  * `latency` -- how many modules on the way down have a clock and a reset.
  * `Asserted` -- what the OR of an instance takes in.
  * `reduceTree_or` -- the tree of ORs is 1 iff one of its operands is.
  * `Parts.topOr_iff`, `Parts.port_*`, `Parts.reg_next` -- one instance in one cycle.
  * `assert_by_iff` -- one instance along a run: its output has been 1 by cycle `t` iff the OR was
    1 early enough.
  * `metaAssert_iff` -- the whole hierarchy, by induction along it.
-/
import DifuzzRtl.Coverage.Transparent

namespace Difuzz.Coverage

open Firrtl

/-! ## 1. Clocked modules -/

/-- The module has a port named `clock` and a port with "reset" in its name. -/
def Clocked (m : Module) : Prop :=
  (∃ q ∈ m.ports, q.name = "clock") ∧ ∃ q ∈ m.ports, "reset".toList <:+: q.name.toList

instance (m : Module) : Decidable (Clocked m) := by
  unfold Clocked
  infer_instance

/-- A loop that keeps the last name of each of two kinds. -/
theorem lastNames_foldl {R : String → Prop} [DecidablePred R] (hno : ¬ R "clock") (ps : List Port)
    (acc : Option String × Option String) :
    ((ps.foldl (fun acc p => if p.name = "clock" then (some p.name, acc.2)
      else if R p.name then (acc.1, some p.name) else acc) acc).1.isSome ↔
        acc.1.isSome ∨ ∃ q ∈ ps, q.name = "clock") ∧
    ((ps.foldl (fun acc p => if p.name = "clock" then (some p.name, acc.2)
      else if R p.name then (acc.1, some p.name) else acc) acc).2.isSome ↔
        acc.2.isSome ∨ ∃ q ∈ ps, R q.name) := by
  induction ps generalizing acc with
  | nil => simp
  | cons q ps ih =>
      rw [List.foldl_cons, (ih _).1, (ih _).2]
      by_cases hc : q.name = "clock"
      · simp [hc, hno]
      · by_cases hr : R q.name
        · simp [hc, hr]
        · simp [hc, hr]

/-- `hasClockAndReset` finds both ports when they are there, in any order. -/
theorem hasClockReset_iff {m : Module} : InstrAssert.hasClockReset m = true ↔ Clocked m := by
  have h := lastNames_foldl (R := fun n => "reset".toList <:+: n.toList) (by decide) m.ports
    (none, none)
  unfold InstrAssert.hasClockReset InstrAssert.clockAndReset Clocked
  rw [Bool.and_eq_true, h.1, h.2]
  simp only [Option.isSome_none, Bool.false_eq_true, false_or]

/-- The port of the coverage pass is neither. -/
theorem clocked_covModule {m : Module} {c : InstrCov} {cov : List Stmt} :
    Clocked (covModule m c cov) ↔ Clocked m := by
  have h₁ : ¬ c.covSumPort.name = "clock" := by
    show ¬ "io_covSum" = "clock"
    decide
  have h₂ : ¬ "reset".toList <:+: c.covSumPort.name.toList := by
    show ¬ "reset".toList <:+: "io_covSum".toList
    decide
  unfold Clocked covModule
  simp only [List.mem_append, List.mem_singleton, or_and_right, exists_or, exists_eq_left, h₁, h₂,
    or_false]

/-- The cycles a module holds an assertion back. -/
def delay (m : Module) : Nat := if Clocked m then 1 else 0

/-- The cycles on the way from the instance at the end of the path up to the module: the number
    of modules on it, both included, that are clocked. -/
def latency (C : Circuit) : Module → Path → Nat
  | m, [] => delay m
  | m, n :: p =>
      match (m.insts.find? fun i => i.name == n).bind fun i => C.find i.module with
      | some (.module m') => delay m + latency C m' p
      | _ => delay m

theorem latency_cons {C : Circuit} (hd : C.DistinctInsts) {m m' : Module}
    (hm : .module m ∈ C.modules) {i : WDefInstance} (hi : i ∈ m.insts)
    (hf : C.find i.module = some (.module m')) (p : Path) :
    latency C m (i.name :: p) = delay m + latency C m' p := by
  have hfind : m.insts.find? (fun j => j.name == i.name) = some i := by
    cases hj : m.insts.find? (fun j => j.name == i.name) with
    | none =>
        have := List.find?_eq_none.mp hj i hi
        simp at this
    | some j =>
        have hn : j.name = i.name := by simpa using List.find?_some hj
        rw [hd.inst_inj hm (List.mem_of_find?_eq_some hj) hi hn]
  simp only [latency, hfind, Option.bind_some, hf]

/-! ## 2. The tree of ORs -/

/-- **The OR of bits**: the result of the tree is a bit, and it is 1 iff an operand is. -/
theorem reduceTree_or {wire : Nat → String} {fuel : Nat} {refs : List Expr} {id : Nat} {r : Expr}
    {ss : List Stmt} (h : reduceTree .or 1 wire fuel refs id = some (r, ss)) {v : Sig → Int}
    (hv : ∀ loc e, .connect loc e ∈ ss → v loc.sig = loc.tpe.clip (eval v e))
    (hb : ∀ e ∈ refs, ∃ n, e = .ref n (.uint 1)) :
    (∃ n, r = .ref n (.uint 1)) ∧ (eval v r = 1 ↔ ∃ e ∈ refs, eval v e = 1) := by
  -- what a wire gets from two bits
  have wired : ∀ {n a b : String}, v [n] = (GType.uint 1).clip (eval v
      (.doPrim2 .or (.ref a (.uint 1)) (.ref b (.uint 1)) [] (.uint 1))) →
      (eval v (.ref n (.uint 1)) = 1 ↔
        eval v (.ref a (.uint 1)) = 1 ∨ eval v (.ref b (.uint 1)) = 1) := by
    intro n a b hn
    have hor : eval v (.doPrim2 .or (.ref a (.uint 1)) (.ref b (.uint 1)) [] (.uint 1)) =
        if eval v (.ref a (.uint 1)) = 1 ∨ eval v (.ref b (.uint 1)) = 1 then 1 else 0 :=
      clip_or_bit (clip_bit _) (clip_bit _)
    have hval : eval v (.ref n (.uint 1)) = (GType.uint 1).clip (v [n]) := rfl
    rw [hval, hn, hor]
    split
    · rename_i hc
      exact ⟨fun _ => hc, fun _ => rfl⟩
    · rename_i hc
      exact ⟨fun h => absurd h (by decide), fun h => absurd h hc⟩
  revert hv hb
  refine reduceTree_ind (P := fun refs _ r ss =>
    (∀ loc e, .connect loc e ∈ ss → v loc.sig = loc.tpe.clip (eval v e)) →
    (∀ e ∈ refs, ∃ n, e = .ref n (.uint 1)) →
    (∃ n, r = .ref n (.uint 1)) ∧ (eval v r = 1 ↔ ∃ e ∈ refs, eval v e = 1)) ?_ ?_ ?_ h
  · intro r id _ hb
    exact ⟨hb r (List.mem_singleton_self r), by simp⟩
  · intro a b id hv hb
    obtain ⟨na, rfl⟩ := hb a (by simp)
    obtain ⟨nb, rfl⟩ := hb b (by simp)
    refine ⟨⟨_, rfl⟩, (wired (hv _ _ (List.mem_cons_of_mem _ List.mem_cons_self))).trans ?_⟩
    simp
  · intro refs id r₁ s₁ r₂ s₂ _ ih₁ ih₂ hv hb
    obtain ⟨⟨n₁, rfl⟩, h₁⟩ := ih₁ (fun loc e hs => hv loc e (by simp [hs]))
      fun e he => hb e (List.mem_of_mem_take he)
    obtain ⟨⟨n₂, rfl⟩, h₂⟩ := ih₂ (fun loc e hs => hv loc e (by simp [hs]))
      fun e he => hb e (List.mem_of_mem_drop he)
    have hw := hv (.ref (wire id) (.uint 1)) (.doPrim2 .or (.ref n₁ (.uint 1)) (.ref n₂ (.uint 1)) []
      (.uint 1)) (by simp)
    refine ⟨⟨_, rfl⟩, (wired hw).trans ?_⟩
    rw [h₁, h₂]
    -- the operands are those of the two halves
    have hsplit : ∀ e, e ∈ refs ↔ e ∈ refs.take (refs.length / 2) ∨ e ∈ refs.drop (refs.length / 2) := by
      intro e
      rw [← List.mem_append, List.take_append_drop]
    simp only [hsplit, or_and_right, exists_or]

/-! ## 3. One instance in one cycle -/

/-- What the OR of an instance takes in: an enabled `stop`, or an assertion below. -/
def Asserted (C : Circuit) (V : Valuation) (p : Path) (m : Module) : Prop :=
  (∃ s ∈ m.stops, eval (V p) s.en = 1) ∨
  ∃ i m', i ∈ m.insts ∧ C.find i.module = some (.module m') ∧ V (p ++ [i.name]) ["metaAssert"] = 1

/-- The enables of `stop` statements are single bits, and there are no external modules. -/
structure Assertable (C : Circuit) : Prop where
  enables : ∀ m, .module m ∈ C.modules → ∀ s ∈ m.stops, s.en.isBit = true
  noExt : ∀ d ∈ C.modules, d.isExt = false

theorem Assertable.module_of {C : Circuit} (hC : Assertable C) (hL : LowForm C) {p : Path}
    {m : Module} (hp : C.Inst p (.module m)) {i : WDefInstance} (hi : i ∈ m.insts) :
    ∃ m', C.find i.module = some (.module m') := by
  obtain ⟨d, hd⟩ := (hL.inst hp).instances i hi
  cases d with
  | ext e => cases hC.noExt _ (Circuit.find_mem hd)
  | module m' => exact ⟨m', hd⟩

namespace Parts

variable {cfg : Config} {C C' : Circuit} {m mm : Module} (P : Parts cfg C m mm)

/-- The operands of the OR. -/
theorem mem_orRefs {e : Expr} :
    e ∈ InstrAssert.orRefs cfg.order P.info.insts (covModule m P.c P.cov) ↔
      (∃ s k, m.stops[k]? = some s ∧ e = .ref (InstrAssert.stopEnName k) s.en.tpe) ∨
      ∃ i ∈ m.insts, e = .ref (InstrAssert.wireName i) (.uint 1) := by
  unfold InstrAssert.orRefs InstrAssert.stopEns
  rw [P.stops_covModule]
  simp only [List.mem_append, List.map_map, List.mem_map, Function.comp_apply, SetOrder.mem_toSeq,
    Prod.exists, List.mem_zipIdx_iff_getElem?, P.mem_info_insts]
  refine or_congr ⟨fun h => ?_, fun h => ?_⟩ ⟨fun h => ?_, fun h => ?_⟩
  · obtain ⟨s, k, hk, he⟩ := h
    exact ⟨s, k, hk, he.symm⟩
  · obtain ⟨s, k, hk, he⟩ := h
    exact ⟨s, k, hk, he.symm⟩
  · obtain ⟨i, hi, he⟩ := h
    exact ⟨i, hi, he.symm⟩
  · obtain ⟨i, hi, he⟩ := h
    exact ⟨i, hi, he.symm⟩

section Cycle

variable (hL : LowForm C) (hm : .module m ∈ C.modules) (hf : mm.declared.Nodup) {p : Path}
  (hp : C'.Inst p (.module mm)) {st : State} {V : Valuation} (hset : C'.Settled st V)

include hL hm hf hp hset

/-- A wire of the assertion logic. -/
theorem assert_wire {n : String} {t : GType} {e : Expr} (hw : .defWire n t ∈ P.asserts)
    (hc : .connect (.ref n t) e ∈ P.asserts) : V p [n] = t.clip (eval (V p) e) := by
  have hwm : .defWire n t ∈ mm.leaves :=
    (P.mem_leaves_iff (by intro _ _ h; cases h)).mpr (P.mem_old.mpr (.inr (.inr hw)))
  have hcm : .connect (.ref n t) e ∈ mm.leaves := by
    refine P.mem_leaves_of_mem (P.mem_old.mpr (.inr (.inr hc))) fun loc e' he r hr hser => ?_
    cases he
    cases hser
    -- a register of this name would be declared twice
    rcases P.mem_regs (hL.modules m hm).nodup hr with hu | ⟨_, ha⟩
    · exact P.assert_name_ne hf hu (.inr ⟨_, hw, rfl⟩) rfl
    · have ham := (P.mem_leaves_iff (by intro _ _ h; cases h)).mpr (P.mem_old.mpr (.inr (.inr ha)))
      exact absurd (Module.stmt_unique hf hwm ham rfl rfl) (by intro h; cases h)
  exact hset p mm hp _ hcm (Module.reg_ne_of_decl hf hwm rfl fun _ h => nomatch h)

/-- The port takes what is connected to it. -/
theorem assert_port {e : Expr} (hc : .connect (.ref "metaAssert" (.uint 1)) e ∈ P.asserts) :
    V p ["metaAssert"] = (GType.uint 1).clip (eval (V p) e) := by
  refine hset p mm hp _ (P.mem_leaves_of_assert hL hm hf hc fun loc e' he hser => ?_) ?_
  · cases he
    have hlen := congrArg String.length (Option.some.inj hser)
    rw [String.length_append] at hlen
    have h₁ : "metaAssert".length = 10 := rfl
    have h₂ : "_metaAssert".length = 11 := rfl
    omega
  · refine Module.reg_ne_of_port hf (q := InstrAssert.assertPort) ?_
    rw [P.ports_eq]
    simp

include P in
theorem port_bit : V p ["metaAssert"] = 0 ∨ V p ["metaAssert"] = 1 := by
  rcases P.asserts_cases with ⟨_, hc, _⟩ | ⟨_, _, _, hc, _⟩ | ⟨_, _, _, _, _, _, hc, _⟩
  all_goals
    rw [P.assert_port hL hm hf hp hset hc]
    exact clip_bit _

end Cycle

end Parts

section Links

variable {cfg : Config} {C C' : Circuit} (hL : LowForm C) (hex : execute cfg C = some C')
  (hf : Fresh C') {p : Path} {m mm : Module} (hp : C.Inst p (.module m))
  (hp' : C'.Inst p (.module mm)) (P : Parts cfg C m mm) {st : State} {V : Valuation}
  (hset : C'.Settled st V)

include hL hex hf hp hp' P hset

/-- The wire of an instance shows the port below. -/
theorem wire_value {i : WDefInstance} {m' : Module} (hi : i ∈ m.insts)
    (hfi : C.find i.module = some (.module m')) :
    eval (V p) (.ref (InstrAssert.wireName i) (.uint 1)) = V (p ++ [i.name]) ["metaAssert"] := by
  obtain ⟨mm₁, hs, ⟨P'⟩⟩ := parts_of_inst hex (.sub hp hi hfi)
  have hmem : ∀ {s : Stmt}, s ∈ InstrAssert.addedStmts cfg.order P.info.insts
      (covModule m P.c P.cov) → s ∈ P.asserts := fun hs => hs
  have hwire : .defWire (InstrAssert.wireName i) (.uint 1) ∈ P.asserts := hmem (by
    simp only [InstrAssert.addedStmts, List.mem_append, SetOrder.mem_toSeq, List.mem_map]
    exact .inl (.inl (.inl (.inr ⟨i, P.mem_info_insts.mpr hi, rfl⟩))))
  have hcon : .connect (.ref (InstrAssert.wireName i) (.uint 1))
      (.subField (.ref i.name .unknown) "metaAssert" .unknown) ∈ P.asserts := hmem (by
    simp only [InstrAssert.addedStmts, List.mem_append, SetOrder.mem_toSeq, List.mem_map]
    exact .inl (.inl (.inr ⟨i, P.mem_info_insts.mpr hi, rfl⟩)))
  have hval := P.assert_wire hL hp.mem (hf mm hp'.mem) hp' hset hwire hcon
  obtain ⟨d', hd', hins⟩ := find_of_find hex hfi
  obtain ⟨mm₂, rfl, ⟨P₂⟩⟩ := parts_of_instrumented hins
  have hlink : V p [i.name, "metaAssert"] = V (p ++ [i.name]) ["metaAssert"] := by
    refine hset p mm hp' _ (Module.mem_insts.mp (P.mem_insts.mpr hi)) _ hd' InstrAssert.assertPort ?_
    show InstrAssert.assertPort ∈ mm₂.ports
    rw [P₂.ports_eq]
    simp
  have hbit := P'.port_bit hL (Circuit.find_mem hfi) (hf mm₁ hs.mem) hs hset
  have heval : eval (V p) (.ref (InstrAssert.wireName i) (.uint 1)) =
      (GType.uint 1).clip ((GType.uint 1).clip (V p [i.name, "metaAssert"])) := by
    show (GType.uint 1).clip (V p [InstrAssert.wireName i]) = _
    rw [hval]
    rfl
  rw [heval, hlink]
  rcases hbit with h | h <;> rw [h] <;> rfl

omit hL hex hf hp in
/-- The node of a `stop` shows its enable. -/
theorem stop_value {s : Stop} {k : Nat} (hk : m.stops[k]? = some s) (hb : s.en.isBit = true) :
    eval (V p) (.ref (InstrAssert.stopEnName k) s.en.tpe) = eval (V p) s.en := by
  have hnode : .defNode (InstrAssert.stopEnName k) s.en ∈ mm.leaves := by
    refine (P.mem_leaves_iff (by intro _ _ h; cases h)).mpr (P.mem_old.mpr (.inr (.inr ?_)))
    show _ ∈ InstrAssert.addedStmts cfg.order P.info.insts (covModule m P.c P.cov)
    unfold InstrAssert.addedStmts InstrAssert.stopEns
    rw [P.stops_covModule]
    simp only [List.mem_append, List.map_map, List.mem_map, Function.comp_apply, Prod.exists]
    exact .inl (.inl (.inl (.inl ⟨s, k, List.mem_zipIdx_iff_getElem?.mpr hk, rfl⟩)))
  have hval : V p [InstrAssert.stopEnName k] = eval (V p) s.en := hset p mm hp' _ hnode
  have heval : eval (V p) (.ref (InstrAssert.stopEnName k) s.en.tpe) =
      (GType.uint 1).clip (eval (V p) s.en) := by
    rw [← hval, Expr.tpe_of_isBit hb]
    rfl
  rw [heval]
  rcases eval_isBit (v := V p) hb with h | h <;> rw [h] <;> rfl

/-- **The OR of an instance is 1 iff something is asserted.** -/
theorem topOr_iff (hC : Assertable C) :
    (P.topOr = none → ¬ Asserted C V p m) ∧
    ∀ top, P.topOr = some top →
      (∃ n, top = .ref n (.uint 1)) ∧ (eval (V p) top = 1 ↔ Asserted C V p m) := by
  have hbit : ∀ {s : Stop}, s ∈ m.stops → s.en.isBit = true := fun hs => hC.enables m hp.mem _ hs
  have hrefs : ∀ e ∈ InstrAssert.orRefs cfg.order P.info.insts (covModule m P.c P.cov),
      ∃ n, e = .ref n (.uint 1) := by
    intro e he
    rcases P.mem_orRefs.mp he with ⟨s, k, hk, rfl⟩ | ⟨i, _, rfl⟩
    · exact ⟨_, by rw [Expr.tpe_of_isBit (hbit (List.mem_of_getElem? hk))]⟩
    · exact ⟨_, rfl⟩
  -- the operands are the enables and the assertions below
  have hany : (∃ e ∈ InstrAssert.orRefs cfg.order P.info.insts (covModule m P.c P.cov),
      eval (V p) e = 1) ↔ Asserted C V p m := by
    refine ⟨fun h => ?_, fun h => ?_⟩
    · obtain ⟨e, he, h1⟩ := h
      rcases P.mem_orRefs.mp he with ⟨s, k, hk, rfl⟩ | ⟨i, hi, rfl⟩
      · have hs := List.mem_of_getElem? hk
        rw [stop_value hp' P hset hk (hbit hs)] at h1
        exact .inl ⟨s, hs, h1⟩
      · obtain ⟨m', hfi⟩ := hC.module_of hL hp hi
        rw [wire_value hL hex hf hp hp' P hset hi hfi] at h1
        exact .inr ⟨i, m', hi, hfi, h1⟩
    · rcases h with ⟨s, hs, h1⟩ | ⟨i, m', hi, hfi, h1⟩
      · obtain ⟨k, hk⟩ := List.mem_iff_getElem?.mp hs
        refine ⟨_, P.mem_orRefs.mpr (.inl ⟨s, k, hk, rfl⟩), ?_⟩
        rw [stop_value hp' P hset hk (hbit hs), h1]
      · refine ⟨_, P.mem_orRefs.mpr (.inr ⟨i, hi, rfl⟩), ?_⟩
        rw [wire_value hL hex hf hp hp' P hset hi hfi, h1]
  unfold Parts.topOr InstrAssert.makeOr
  cases hred : reduceTree .or 1 (fun i => m.name ++ "_or" ++ toString i)
      (InstrAssert.orRefs cfg.order P.info.insts (covModule m P.c P.cov)).length
      (InstrAssert.orRefs cfg.order P.info.insts (covModule m P.c P.cov)) 0 with
  | none =>
      refine ⟨fun _ h => ?_, fun top h => (nomatch h)⟩
      obtain ⟨e, he, _⟩ := hany.mpr h
      obtain ⟨r, ss, hsome⟩ := reduceTree_isSome .or 1 (fun i => m.name ++ "_or" ++ toString i) 0
        (List.ne_nil_of_mem he) (Nat.le_refl _)
      rw [hred] at hsome
      cases hsome
  | some x =>
      obtain ⟨r, ss⟩ := x
      refine ⟨fun h => (nomatch h), fun top h => ?_⟩
      cases h
      have hss : ∀ s ∈ ss, s ∈ P.asserts := by
        intro s hs
        show s ∈ InstrAssert.addedStmts cfg.order P.info.insts (covModule m P.c P.cov)
        have hor : (InstrAssert.makeOr (covModule m P.c P.cov).name
            (InstrAssert.orRefs cfg.order P.info.insts (covModule m P.c P.cov)) 0).2 = ss := by
          unfold InstrAssert.makeOr
          have hname : (covModule m P.c P.cov).name = m.name := rfl
          rw [hname, hred]
        unfold InstrAssert.addedStmts
        rw [hor]
        simp only [List.mem_append]
        exact .inl (.inr hs)
      have hor := reduceTree_or hred (v := V p) (fun loc e hs => by
        obtain ⟨n, t, rfl, hw⟩ := reduceTree_targets hred loc e hs
        exact P.assert_wire hL hp.mem (hf mm hp'.mem) hp' hset (hss _ hw) (hss _ hs)) hrefs
      exact ⟨hor.1, hor.2.trans hany⟩

end Links

/-! ## 4. One instance along a run -/

/-- A run with `metaReset` and the halts low, in which the clock of every clocked module ticks,
    and whose assertion registers are 0 at first. -/
structure AssertRun (C C' : Circuit) (st : Nat → State) (val : Nat → Valuation) : Prop where
  run : C'.IsRun st val
  quiet : ∀ t, Quiet C (val t)
  ticks : ∀ t p m, C.Inst p (.module m) → Clocked m → val t p ["clock"] = 1
  start : ∀ p m, C.Inst p (.module m) → (st 0).reg p (m.name ++ "_metaAssert") = 0

section Run

variable {cfg : Config} {C C' : Circuit} (hL : LowForm C) (hex : execute cfg C = some C')
  (hf : Fresh C') (hC : Assertable C) {st : Nat → State} {val : Nat → Valuation}
  (hr : AssertRun C C' st val) {p : Path} {m : Module} (hp : C.Inst p (.module m))

include hL hex hf hC hr hp

/-- Without a register the port is the OR. -/
theorem assert_now (hc : ¬ Clocked m) (t : Nat) :
    val t p ["metaAssert"] = 1 ↔ Asserted C (val t) p m := by
  obtain ⟨mm, hp', ⟨P⟩⟩ := parts_of_inst hex hp
  have hset := hr.run.settled t
  have hno : InstrAssert.hasClockReset (covModule m P.c P.cov) ≠ true := fun h =>
    hc (clocked_covModule.mp (hasClockReset_iff.mp h))
  obtain ⟨hnone, hsome⟩ := topOr_iff hL hex hf hp hp' P hset hC
  have hport : ∀ {e : Expr}, .connect (.ref "metaAssert" (.uint 1)) e ∈ P.asserts →
      val t p ["metaAssert"] = (GType.uint 1).clip (eval (val t p) e) := fun h =>
    P.assert_port hL hp.mem (hf mm hp'.mem) hp' hset h
  rcases P.asserts_cases with ⟨htop, hcon, _⟩ | ⟨top, htop, _, hcon, _⟩ | ⟨_, _, hcr, _⟩
  · rw [hport hcon]
    refine ⟨fun h => ?_, fun h => absurd h (hnone htop)⟩
    simp [eval] at h
  · obtain ⟨⟨n, rfl⟩, hiff⟩ := hsome top htop
    rw [hport hcon, ← hiff]
    have hbit : (GType.uint 1).clip (eval (val t p) (.ref n (.uint 1))) =
        eval (val t p) (.ref n (.uint 1)) :=
      Int.emod_emod_of_dvd _ (Int.dvd_refl _)
    rw [hbit]
  · exact absurd hcr hno

/-- **The sticky register**: the port is 1 from the cycle after the first assertion on. -/
theorem assert_sticky (hc : Clocked m) (t : Nat) :
    val t p ["metaAssert"] = 1 ↔ ∃ s < t, Asserted C (val s) p m := by
  obtain ⟨mm, hp', ⟨P⟩⟩ := parts_of_inst hex hp
  have hfm := hf mm hp'.mem
  have hport : ∀ t {e : Expr}, .connect (.ref "metaAssert" (.uint 1)) e ∈ P.asserts →
      val t p ["metaAssert"] = (GType.uint 1).clip (eval (val t p) e) := fun t _ h =>
    P.assert_port hL hp.mem hfm hp' (hr.run.settled t) h
  have hyes : InstrAssert.hasClockReset (covModule m P.c P.cov) = true :=
    hasClockReset_iff.mpr (clocked_covModule.mpr hc)
  rcases P.asserts_cases with ⟨htop, hcon, _⟩ | ⟨_, _, hcr, _⟩ | ⟨top, htop, _, hreg, hdef, hcon, hpc, _⟩
  · -- nothing can be asserted, and nothing is connected
    rw [hport t hcon]
    refine ⟨fun h => ?_, fun h => ?_⟩
    · simp [eval] at h
    · obtain ⟨s, _, h⟩ := h
      exact absurd h ((topOr_iff hL hex hf hp hp' P (hr.run.settled s) hC).1 htop)
  · rw [hyes] at hcr
    cases hcr
  · have hreg' : .defRegister (InstrAssert.assertReg m) ∈ mm.leaves :=
      (P.mem_leaves_iff (by intro _ _ h; cases h)).mpr (P.mem_old.mpr (.inr (.inr hdef)))
    obtain ⟨w, hmux⟩ := P.mem_leaves_of_reg (P.mem_old.mpr (.inr (.inr hcon))) hreg rfl
    let R : Expr := .ref (m.name ++ "_metaAssert") (.uint 1)
    have hshow : ∀ t, eval (val t p) R = (GType.uint 1).clip ((st t).reg p (m.name ++ "_metaAssert")) := by
      intro t
      have hcur : val t p [m.name ++ "_metaAssert"] = (st t).reg p (m.name ++ "_metaAssert") :=
        (hr.run.settled t p mm hp' _ hreg').trans (addedRegister_current ..)
      show (GType.uint 1).clip (val t p [m.name ++ "_metaAssert"]) = _
      rw [hcur]
    -- one clock edge ORs into the register
    have hstep : ∀ t, eval (val (t + 1) p) R = 1 ↔
        eval (val t p) R = 1 ∨ Asserted C (val t) p m := by
      intro t
      obtain ⟨⟨n, hn⟩, hiff⟩ := (topOr_iff hL hex hf hp hp' P (hr.run.settled t) hC).2 top htop
      have htick : eval (val t p) (.ref "clock" .clock) ≠ 0 := by
        simp [eval, GType.clip, hr.ticks t p m hp hc]
      have hnext := addedRegister_next (hr.run.next t |>.reg p mm hp' _ (Module.mem_regs.mpr hreg'))
        htick hmux rfl
      have hzero : eval (val t p) InstrReset.metaReset = 0 := by
        simp [InstrReset.metaReset, eval, metaReset_zero hex (hr.run.settled t) (hr.quiet t) hp]
      have hor : eval (val t p) (.doPrim2 .or R top [] (.uint 1)) =
          if eval (val t p) R = 1 ∨ eval (val t p) top = 1 then 1 else 0 := by
        rw [hn]
        exact clip_or_bit (clip_bit _) (clip_bit _)
      have hval : (st (t + 1)).reg p (m.name ++ "_metaAssert") =
          (if eval (val t p) R = 1 ∨ eval (val t p) top = 1 then 1 else 0) % 2 ^ 1 := by
        refine hnext.trans ?_
        rw [← hor]
        simp only [eval, hzero, ne_eq, not_true_eq_false, if_false]
        rfl
      rw [hshow (t + 1), hval, ← hiff]
      split
      · rename_i h
        exact ⟨fun _ => h, fun _ => rfl⟩
      · rename_i h
        exact ⟨fun h1 => absurd h1 (by decide), fun h1 => absurd h1 h⟩
    have hrun : ∀ t, eval (val t p) R = 1 ↔ ∃ s < t, Asserted C (val s) p m := by
      intro t
      induction t with
      | zero =>
          rw [hshow 0, hr.start p m hp]
          refine ⟨fun h => absurd h (by decide), fun h => ?_⟩
          obtain ⟨s, hs, _⟩ := h
          omega
      | succ t ih =>
          rw [hstep t, ih]
          refine ⟨fun h => ?_, fun h => ?_⟩
          · rcases h with ⟨s, hs, h⟩ | h
            · exact ⟨s, by omega, h⟩
            · exact ⟨t, by omega, h⟩
          · obtain ⟨s, hs, h⟩ := h
            by_cases hst : s = t
            · subst hst
              exact .inr h
            · exact .inl ⟨s, by omega, h⟩
    rw [hport t hpc, ← hrun t]
    have hbit : (GType.uint 1).clip (eval (val t p) R) = eval (val t p) R :=
      Int.emod_emod_of_dvd _ (Int.dvd_refl _)
    rw [hbit]

/-- **When the output of an instance has been 1 by cycle `t`.** -/
theorem assert_by_iff (t : Nat) :
    (∃ t' ≤ t, val t' p ["metaAssert"] = 1) ↔ ∃ s, s + delay m ≤ t ∧ Asserted C (val s) p m := by
  unfold delay
  by_cases hc : Clocked m
  · rw [if_pos hc]
    simp only [assert_sticky hL hex hf hC hr hp hc]
    refine ⟨fun h => ?_, fun h => ?_⟩
    · obtain ⟨t', ht', s, hs, h⟩ := h
      exact ⟨s, by omega, h⟩
    · obtain ⟨s, hs, h⟩ := h
      exact ⟨s + 1, hs, s, by omega, h⟩
  · rw [if_neg hc]
    simp only [assert_now hL hex hf hC hr hp hc]
    exact ⟨fun h => h, fun h => h⟩

end Run

/-! ## 5. The hierarchy -/

section Hierarchy

variable {cfg : Config} {C C' : Circuit} (hL : LowForm C) (hex : execute cfg C = some C')
  (hf : Fresh C') (hC : Assertable C) (ha : C.Acyclic) {st : Nat → State} {val : Nat → Valuation}
  (hr : AssertRun C C' st val)

include hL hex hf hC ha hr

/-- The output of an instance has been 1 by cycle `t` iff a `stop` at or below it was enabled so
    early that the delays on the way fit in. -/
theorem assert_below {p : Path} {m : Module} (hp : C.Inst p (.module m)) (t : Nat) :
    (∃ t' ≤ t, val t' p ["metaAssert"] = 1) ↔
      ∃ q m' stop s, C.Inst (p ++ q) (.module m') ∧ stop ∈ m'.stops ∧
        eval (val s (p ++ q)) stop.en = 1 ∧ s + latency C m q ≤ t := by
  obtain ⟨rank, hrank⟩ := ha
  have hd := hL.distinctInsts
  induction hk : rank m.name using Nat.strong_induction_on generalizing p m t with
  | _ k ih =>
    -- the instances below have lower rank
    have hbelow : ∀ {i : WDefInstance} {m₁ : Module}, i ∈ m.insts →
        C.find i.module = some (.module m₁) → ∀ t, (∃ t' ≤ t, val t' (p ++ [i.name]) ["metaAssert"] = 1) ↔
        ∃ q m' stop s, C.Inst ((p ++ [i.name]) ++ q) (.module m') ∧ stop ∈ m'.stops ∧
          eval (val s ((p ++ [i.name]) ++ q)) stop.en = 1 ∧ s + latency C m₁ q ≤ t := by
      intro i m₁ hi hfi t
      refine ih (rank m₁.name) ?_ (.sub hp hi hfi) t rfl
      have hname : m₁.name = i.module := Circuit.find_name hfi
      rw [hname, ← hk]
      exact hrank m hp.mem i hi
    rw [assert_by_iff hL hex hf hC hr hp]
    refine ⟨fun h => ?_, fun h => ?_⟩
    · obtain ⟨s, hs, ⟨stop, hstop, h1⟩ | ⟨i, m₁, hi, hfi, h1⟩⟩ := h
      · refine ⟨[], m, stop, s, ?_, hstop, ?_, hs⟩
        · rwa [List.append_nil]
        · rwa [List.append_nil]
      · obtain ⟨q, m', stop, s', hq, hstop, h2, hle⟩ := (hbelow hi hfi s).mp ⟨s, Nat.le_refl s, h1⟩
        rw [List.append_assoc] at hq h2
        refine ⟨i.name :: q, m', stop, s', hq, hstop, h2, ?_⟩
        rw [latency_cons hd hp.mem hi hfi]
        omega
    · obtain ⟨q, m', stop, s, hq, hstop, h1, hle⟩ := h
      cases q with
      | nil =>
          rw [List.append_nil] at hq h1
          cases hq.unique hd hp
          exact ⟨s, hle, .inl ⟨stop, hstop, h1⟩⟩
      | cons n q =>
          obtain ⟨i, m₁, hi, rfl, hfi⟩ := hp.step_module hd hq
          rw [latency_cons hd hp.mem hi hfi] at hle
          have heq : p ++ i.name :: q = (p ++ [i.name]) ++ q := by simp
          rw [heq] at hq h1
          obtain ⟨t', ht', h2⟩ := (hbelow hi hfi (s + latency C m₁ q)).mpr
            ⟨q, m', stop, s, hq, hstop, h1, Nat.le_refl _⟩
          exact ⟨t', by omega, .inr ⟨i, m₁, hi, hfi, h2⟩⟩

/-- **An assertion failure is never lost and never invented.** In every run of an instrumented
    circuit with a clocked top module, with `metaReset` low and the assertion registers 0 at
    first: the `metaAssert` output of the top module is 1 in cycle `t` iff in some instance, at
    the path `p`, a `stop` was enabled in a cycle `s` with `s + latency p ≤ t`. -/
theorem metaAssert_iff {top : Module} (htop : C.find C.main = some (.module top))
    (hc : Clocked top) (t : Nat) :
    val t [] ["metaAssert"] = 1 ↔
      ∃ p m stop s, C.Inst p (.module m) ∧ stop ∈ m.stops ∧ eval (val s p) stop.en = 1 ∧
        s + latency C top p ≤ t := by
  have hp : C.Inst [] (.module top) := .top htop
  refine Iff.trans ?_ (assert_below hL hex hf hC ha hr hp t)
  -- the register of the top module is sticky
  have hsticky := assert_sticky hL hex hf hC hr hp hc
  refine ⟨fun h => ⟨t, Nat.le_refl t, h⟩, fun h => ?_⟩
  obtain ⟨t', ht', h⟩ := h
  obtain ⟨s, hs, h⟩ := (hsticky t').mp h
  exact (hsticky t).mpr ⟨s, by omega, h⟩

end Hierarchy

namespace Demo

theorem assertable : Assertable circuit where
  enables m hm s hs := by
    rcases List.mem_pair.mp hm with h | h <;> cases h
    · cases List.mem_singleton.mp (show s ∈ [⟨1, .ref "clock" .clock, clear⟩] from hs)
      rfl
    · cases hs
  noExt d hd := by
    rcases List.mem_pair.mp hd with rfl | rfl <;> rfl

theorem assertRun : AssertRun circuit result (state 0) (val 0) where
  run := isRun (.inl rfl)
  quiet := quiet
  ticks t p m hp _ := by
    rcases inst_circuit hp with ⟨rfl, rfl⟩ | ⟨rfl | rfl, rfl⟩ <;> rfl
  start p m hp := by
    rcases inst_circuit hp with ⟨rfl, rfl⟩ | ⟨rfl | rfl, rfl⟩ <;> rfl

end Demo

/-- The `stop` of `low` is enabled from cycle 0 on, and two clocked modules are on the way. -/
theorem metaAssert_iff_demo :
    (∀ t, Demo.val 0 t [] ["metaAssert"] = 1 ↔
      ∃ p m stop s, Demo.circuit.Inst p (.module m) ∧ stop ∈ m.stops ∧
        eval (Demo.val 0 s p) stop.en = 1 ∧ s + latency Demo.circuit Demo.top p ≤ t) ∧
    latency Demo.circuit Demo.top ["low"] = 2 ∧
    Demo.val 0 1 [] ["metaAssert"] = 0 ∧ Demo.val 0 2 [] ["metaAssert"] = 1 :=
  ⟨metaAssert_iff Demo.lowForm Demo.execute_eq Demo.fresh Demo.assertable Demo.acyclic
    Demo.assertRun rfl (by decide), rfl, rfl, rfl⟩

end Difuzz.Coverage
