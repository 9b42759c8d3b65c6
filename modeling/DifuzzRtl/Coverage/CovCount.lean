/-
  File:      DifuzzRtl/Coverage/CovCount.lean
  Subject:   `io_covSum` counts the distinct states of a whole subtree.

  * `seen`, `Counts` -- the abstract counter: a sum and a bitmap that record the distinct values
    of a sequence. `Counts.step`: reading the bit of the current value before writing it, and
    adding one when it was clear, keeps the record.
  * `MapFacts` -- what the coverage logic of one instance does in one cycle of a run: the read
    port sees the bit of the state register, the sum and the bitmap take the step of the counter.
    The reset pass does not touch this logic, whatever `metaReset` does.
  * `makeSum_value` -- the adder chain: modulo `2^covSumSize` the port is the module's own sum
    plus the ports of its instances.
  * `covSum_counts` -- the result, by adding up along the hierarchy.
-/
import DifuzzRtl.Coverage.Structure
import Mathlib.Algebra.BigOperators.Ring.Finset
import Mathlib.Algebra.Order.BigOperators.Group.List
import Mathlib.Algebra.Order.Ring.Int
import Mathlib.Tactic.Positivity

namespace Difuzz.Coverage

open Firrtl

/-! ## 1. Counting distinct values -/

/-- The values of a sequence before `t`. -/
def seen (xs : Nat → Int) (t : Nat) : Finset Int := (Finset.range t).image xs

theorem seen_succ (xs : Nat → Int) (t : Nat) : seen xs (t + 1) = insert (xs t) (seen xs t) := by
  unfold seen
  rw [Finset.range_add_one, Finset.image_insert]

theorem seen_mono (xs : Nat → Int) {s t : Nat} (h : s ≤ t) : seen xs s ⊆ seen xs t :=
  Finset.image_subset_image (Finset.range_mono h)

/-- `sum` and `cells` record the values before `t`: how many there are, and which. -/
structure Counts (size : Nat) (xs : Nat → Int) (t : Nat) (sum : Int) (cells : Nat → Int) :
    Prop where
  sum : sum = ((seen xs t).card : Int) % 2 ^ size
  cells : ∀ a : Nat, cells a = if (a : Int) ∈ seen xs t then 1 else 0

theorem Counts.zero {size : Nat} {xs : Nat → Int} {sum : Int} {cells : Nat → Int} (hs : sum = 0)
    (hc : ∀ a, cells a = 0) : Counts size xs 0 sum cells where
  sum := by simp [hs, seen]
  cells a := by simp [hc, seen]

/-- **One step**: add one when the bit of the current value is clear, then set it. -/
theorem Counts.step {size : Nat} {xs : Nat → Int} {t : Nat} {sum : Int} {cells : Nat → Int}
    (h : Counts size xs t sum cells) (hx : 0 ≤ xs t) :
    Counts size xs (t + 1) ((if cells (xs t).toNat ≠ 0 then sum else sum + 1) % 2 ^ size)
      (Function.update cells (xs t).toNat 1) where
  sum := by
    have hn : ((xs t).toNat : Int) = xs t := Int.toNat_of_nonneg hx
    rw [seen_succ, h.cells, hn]
    by_cases hm : xs t ∈ seen xs t
    · rw [Finset.insert_eq_of_mem hm, if_pos hm, if_pos (by decide), h.sum]
      exact Int.emod_emod_of_dvd _ (Int.dvd_refl _)
    · rw [Finset.card_insert_of_notMem hm, if_neg hm, if_neg (by decide), h.sum]
      push_cast
      rw [Int.emod_add_emod]
  cells a := by
    rw [seen_succ, Function.update_apply]
    by_cases ha : a = (xs t).toNat
    · have hax : (a : Int) = xs t := by omega
      rw [if_pos ha, if_pos (Finset.mem_insert.mpr (.inl hax))]
    · have hax : (a : Int) ≠ xs t := by omega
      rw [if_neg ha, h.cells]
      simp only [Finset.mem_insert, hax, false_or]

/-! ## 2. The coverage logic of one instance -/

/-- The coverage pass constructed for a module. -/
def covOf (cfg : Config) (C : Circuit) (m : Module) : Option InstrCov := do
  let info ← ModuleInfo.ofModule cfg.order (.module m)
  InstrCov.new cfg.order info cfg.maxStateSize (cfg.rnd m.name) m.name (extModules C)
    cfg.covSumSize

theorem Parts.covOf_eq {cfg : Config} {C : Circuit} {m mm : Module} (P : Parts cfg C m mm) :
    covOf cfg C m = some P.c := by
  unfold covOf
  rw [P.hinfo]
  exact P.hc

/-- The module gets a coverage map: it has a clock and tracked state. -/
def InstrCov.hasMap (c : InstrCov) (m : Module) : Bool :=
  (InstrCov.clockName m).isSome && decide (c.regStateSize ≠ 0)

/-- Every state has a cell. -/
theorem InstrCov.lt_covMapSize {c : InstrCov} (hsz : c.regStateSize ≠ 0) (h30 : c.regStateSize ≤ 30)
    {x : Int} (hlt : x < 2 ^ c.regStateSize) : x < (c.covMapSize : Int) := by
  rw [InstrCov.covMapSize_eq hsz h30]
  exact_mod_cast hlt

/-- A register that a pass adds shows its state. -/
theorem addedRegister_current (info : Info) (name : String) (width : Nat) (clk : String)
    (v : Sig → Int) (x : Int) : (addedRegister info name width clk).current v x = x := by
  simp [addedRegister, DefRegister.current, Expr.tpe]

/-- A register that a pass adds takes what is connected to it when its clock ticks. -/
theorem addedRegister_next {info : Info} {name : String} {width : Nat} {clk : String}
    {leaves : List Stmt} {v : Sig → Int} {x : Int}
    (h : (addedRegister info name width clk).Next leaves v x)
    (hclk : eval v (.ref clk .clock) ≠ 0) {loc e : Expr} (hc : .connect loc e ∈ leaves)
    (hs : loc.sig = [name]) : x = eval v e % 2 ^ width := by
  unfold DefRegister.Next at h
  have h0 : eval v (addedRegister info name width clk).reset = 0 := by
    simp [addedRegister, eval]
  have hc' : ¬ eval v (addedRegister info name width clk).clock = 0 := hclk
  rw [if_neg hc', h0, if_neg (by decide)] at h
  exact h.1 loc e hc hs

/-- One cycle of the coverage logic: `x` is the state register, `sum` and `cells` the sum
    register and the coverage map. -/
structure MapFacts (c : InstrCov) (p : Path) (st st' : State) (v : Sig → Int) : Prop where
  state : v [c.regStateName] = st.reg p c.regStateName
  sum : v [c.covSumName] = st.reg p c.covSumName
  range : st'.reg p c.regStateName = st.reg p c.regStateName ∨
    ∃ y, st'.reg p c.regStateName = y % 2 ^ c.regStateSize
  step : 0 ≤ st.reg p c.regStateName → st.reg p c.regStateName < 2 ^ c.regStateSize →
    c.regStateSize ≤ 30 →
    (∀ a, (st.mem p c.covMapName).cells a = 0 ∨ (st.mem p c.covMapName).cells a = 1) →
    (st'.mem p c.covMapName).cells = Function.update (st.mem p c.covMapName).cells
      (st.reg p c.regStateName).toNat 1 ∧
    st'.reg p c.covSumName = (if (st.mem p c.covMapName).cells (st.reg p c.regStateName).toNat ≠ 0
      then st.reg p c.covSumName else st.reg p c.covSumName + 1) % 2 ^ c.covSumSize

namespace Parts

variable {cfg : Config} {C C' : Circuit} {m mm : Module} (P : Parts cfg C m mm)

/-- The statements of a module with a coverage map. -/
theorem cov_eq {clk : String} (hclk : InstrCov.clockName m = some clk)
    (hsz : P.c.regStateSize ≠ 0) : ∃ stc, P.c.stateConnect = some stc ∧ P.cov =
      [.defRegister (P.c.regState clk), .defMemory P.c.covMap, .defRegister (P.c.covSum clk)] ++
        stc ++ P.c.readConnect clk ++ P.c.writeConnect clk ++ P.c.makeSum P.c.insts P.c.covSumRef := by
  rcases InstrCov.addedStmts_cases P.hcov with ⟨clk', stc, hclk', _, hst, e⟩ | ⟨hno, _⟩
  · rw [hclk] at hclk'
    cases hclk'
    exact ⟨stc, hst, e⟩
  · rcases hno with h | h
    · rw [hclk] at h
      cases h
    · exact absurd h hsz

theorem makeSum_mem_cov : ∀ s ∈ P.c.makeSum P.c.insts P.c.covSumRef, s ∈ P.cov := by
  intro s hs
  rcases InstrCov.addedStmts_cases P.hcov with ⟨_, _, _, _, _, e⟩ | ⟨_, e⟩
  · rw [e]
    exact List.mem_append_right _ hs
  · rw [e]
    exact List.mem_append_right _ hs

section Run

variable (hL : LowForm C) (hm : .module m ∈ C.modules) (hf : mm.declared.Nodup) {p : Path}
  (hp : C'.Inst p (.module mm)) {st st' : State} {V : Valuation} (hset : C'.Settled st V)

include hL hm hf hp hset

/-- A connect of the coverage pass fixes its signal, unless it drives a register. -/
theorem cov_connect {loc e : Expr} (hs : .connect loc e ∈ P.cov)
    (hr : ∀ r ∈ mm.regs, loc.sig ≠ [r.name]) : V p loc.sig = loc.tpe.clip (eval (V p) e) :=
  hset p mm hp _ (P.mem_leaves_of_cov hL hm hf hs) hr

/-- A port of the coverage map is given what is connected to it. -/
theorem cov_field {port f : String} {t : GType} {e : Expr}
    (hs : .connect (P.c.covField port f t) e ∈ P.cov) :
    V p [P.c.covMapName, port, f] = t.clip (eval (V p) e) :=
  P.cov_connect hL hm hf hp hset hs fun r _ h => by simp [InstrCov.covField, Expr.sig] at h

section Tick

variable {clk : String} (hclk : InstrCov.clockName m = some clk) (hsz : P.c.regStateSize ≠ 0)

include hclk hsz

theorem state_shown : V p [P.c.regStateName] = st.reg p P.c.regStateName := by
  obtain ⟨stc, _, hcov⟩ := P.cov_eq hclk hsz
  have hs := P.mem_leaves_of_cov hL hm hf (s := .defRegister (P.c.regState clk)) (by simp [hcov])
  exact (hset p mm hp _ hs).trans (addedRegister_current ..)

theorem sum_shown : V p [P.c.covSumName] = st.reg p P.c.covSumName := by
  obtain ⟨stc, _, hcov⟩ := P.cov_eq hclk hsz
  have hs := P.mem_leaves_of_cov hL hm hf (s := .defRegister (P.c.covSum clk)) (by simp [hcov])
  exact (hset p mm hp _ hs).trans (addedRegister_current ..)

variable (h0 : 0 ≤ st.reg p P.c.regStateName)
  (hlt : st.reg p P.c.regStateName < 2 ^ P.c.regStateSize)

include h0 hlt

/-- Both ports have the state as their address. -/
theorem map_addr {q : String}
    (hs : .connect (P.c.covField q "addr" (.uint P.c.regStateSize))
      (.ref P.c.regStateName (.uint P.c.regStateSize)) ∈ P.cov) :
    V p [P.c.covMapName, q, "addr"] = st.reg p P.c.regStateName := by
  have hx : eval (V p) (.ref P.c.regStateName (.uint P.c.regStateSize)) =
      st.reg p P.c.regStateName := by
    simp only [eval, GType.clip, P.state_shown hL hm hf hp hset hclk hsz]
    exact Int.emod_eq_of_lt h0 hlt
  rw [P.cov_field hL hm hf hp hset hs, hx]
  exact Int.emod_eq_of_lt h0 hlt

variable (h30 : P.c.regStateSize ≤ 30)

include h30

/-- **The read port** shows the bit of the state. -/
theorem map_read : V p [P.c.covMapName, "read", "data"] =
    (st.mem p P.c.covMapName).cells (st.reg p P.c.regStateName).toNat := by
  obtain ⟨stc, _, hcov⟩ := P.cov_eq hclk hsz
  have hmap := P.mem_leaves_of_cov hL hm hf (s := .defMemory P.c.covMap) (by simp [hcov])
  have haddr := P.map_addr hL hm hf hp hset hclk hsz h0 hlt (q := "read")
    (by simp [hcov, InstrCov.readConnect])
  have hen : V p [P.c.covMapName, "read", "en"] = 1 :=
    P.cov_field hL hm hf hp hset (t := .uint 1) (e := .uintLit 1 1)
      (by simp [hcov, InstrCov.readConnect])
  have hread : V p [P.c.covMapName, "read", "data"] = P.c.covMap.readData
      (st.mem p P.c.covMapName) (P.c.covMap.inputs (V p)) "read" :=
    (hset p mm hp _ hmap).1 "read" (List.mem_singleton_self _)
  rw [hread]
  simp only [DefMemory.readData, DefMemory.inputs, InstrCov.covMap, List.map_cons, List.map_nil,
    List.cons_append, List.nil_append, List.getElem?_cons_zero, List.lookup_cons, beq_self_eq_true,
    haddr, hen]
  rw [if_pos ⟨by decide, trivial, h0, InstrCov.lt_covMapSize hsz h30 hlt⟩]

variable (hnext : C'.Next st V st') (htick : V p [clk] = 1)

include hnext htick

/-- **The write port** sets the bit of the state. -/
theorem map_next : (st'.mem p P.c.covMapName).cells =
    Function.update (st.mem p P.c.covMapName).cells (st.reg p P.c.regStateName).toNat 1 := by
  obtain ⟨stc, _, hcov⟩ := P.cov_eq hclk hsz
  have hmap := P.mem_leaves_of_cov hL hm hf (s := .defMemory P.c.covMap) (by simp [hcov])
  have haddr := P.map_addr hL hm hf hp hset hclk hsz h0 hlt (q := "write")
    (by simp [hcov, InstrCov.writeConnect])
  have one : ∀ {f : String}, .connect (P.c.covField "write" f (.uint 1)) (.uintLit 1 1) ∈ P.cov →
      V p [P.c.covMapName, "write", f] = 1 := fun hs => P.cov_field hL hm hf hp hset hs
  have hen := one (f := "en") (by simp [hcov, InstrCov.writeConnect])
  have hmask := one (f := "mask") (by simp [hcov, InstrCov.writeConnect])
  have hdata := one (f := "data") (by simp [hcov, InstrCov.writeConnect])
  have hwclk : V p [P.c.covMapName, "write", "clk"] = 1 := by
    rw [P.cov_field hL hm hf hp hset (t := .clock) (e := .ref clk .clock)
      (by simp [hcov, InstrCov.writeConnect])]
    simp [eval, GType.clip, htick]
  have hwrite : st'.mem p P.c.covMapName = P.c.covMap.next (st.mem p P.c.covMapName)
      (P.c.covMap.inputs (V p)) := hnext.mem p mm hp _ hmap
  rw [hwrite]
  show P.c.covMap.store (P.c.covMap.store _ ⟨_, _, _, 0, 0, 0⟩)
    ⟨V p [P.c.covMapName, "write", "addr"], V p [P.c.covMapName, "write", "en"],
      V p [P.c.covMapName, "write", "clk"], V p [P.c.covMapName, "write", "mask"],
      V p [P.c.covMapName, "write", "data"], 1⟩ = _
  rw [haddr, hdata, DefMemory.store_of_write _ hen hwclk hmask h0
    (InstrCov.lt_covMapSize hsz h30 hlt), DefMemory.store_of_read rfl]
  rfl

/-- **The sum** counts the state if its bit is clear. -/
theorem sum_next (hbits : ∀ a, (st.mem p P.c.covMapName).cells a = 0 ∨
      (st.mem p P.c.covMapName).cells a = 1) :
    st'.reg p P.c.covSumName =
      (if (st.mem p P.c.covMapName).cells (st.reg p P.c.regStateName).toNat ≠ 0
        then st.reg p P.c.covSumName else st.reg p P.c.covSumName + 1) % 2 ^ P.c.covSumSize := by
  obtain ⟨stc, _, hcov⟩ := P.cov_eq hclk hsz
  have hsum := P.mem_leaves_of_cov hL hm hf (s := .defRegister (P.c.covSum clk)) (by simp [hcov])
  have hcon := P.mem_leaves_of_cov hL hm hf (s := .connect P.c.covSumRef
    (.mux (P.c.covField "read" "data" (.uint 1)) P.c.covSumRef
      (.doPrim2 .add P.c.covSumRef (.uintLit 1 1) [] (.uint P.c.covSumSize)) .unknown))
    (by simp [hcov, InstrCov.readConnect])
  have htick' : eval (V p) (.ref clk .clock) ≠ 0 := by
    simp [eval, GType.clip, htick]
  have hbit : eval (V p) (P.c.covField "read" "data" (.uint 1)) =
      (st.mem p P.c.covMapName).cells (st.reg p P.c.regStateName).toNat := by
    show (GType.uint 1).clip (V p [P.c.covMapName, "read", "data"]) = _
    rw [P.map_read hL hm hf hp hset hclk hsz h0 hlt h30]
    rcases hbits (st.reg p P.c.regStateName).toNat with h | h <;> rw [h] <;> rfl
  refine (addedRegister_next (hnext.reg p mm hp _ (Module.mem_regs.mpr hsum)) htick' hcon rfl).trans ?_
  simp only [eval, hbit, InstrCov.covSumRef, GType.clip,
    P.sum_shown hL hm hf hp hset hclk hsz, primEval2]
  by_cases hc : (st.mem p P.c.covMapName).cells (st.reg p P.c.regStateName).toNat = 0
  · rw [if_neg (by simpa using hc), if_neg (by simpa using hc)]
    simp
  · rw [if_pos hc, if_pos hc]
    exact Int.emod_emod_of_dvd _ (Int.dvd_refl _)

end Tick

/-- **One cycle of the coverage logic.** -/
theorem mapFacts {clk : String} (hclk : InstrCov.clockName m = some clk)
    (hsz : P.c.regStateSize ≠ 0) (hnext : C'.Next st V st') (htick : V p [clk] = 1) :
    MapFacts P.c p st st' (V p) where
  state := P.state_shown hL hm hf hp hset hclk hsz
  sum := P.sum_shown hL hm hf hp hset hclk hsz
  range := by
    obtain ⟨stc, _, hcov⟩ := P.cov_eq hclk hsz
    have hs := P.mem_leaves_of_cov hL hm hf (s := .defRegister (P.c.regState clk)) (by simp [hcov])
    have hn := hnext.reg p mm hp _ (Module.mem_regs.mpr hs)
    exact hn.range.imp (fun h => h.trans (P.state_shown hL hm hf hp hset hclk hsz)) id
  step h0 hlt h30 hbits :=
    ⟨P.map_next hL hm hf hp hset hclk hsz h0 hlt h30 hnext htick,
      P.sum_next hL hm hf hp hset hclk hsz h0 hlt h30 hnext htick hbits⟩

end Run

end Parts

/-! ## 3. The adder chain -/

/-- **The adder chain**: the port is, modulo `2^covSumSize`, the start value plus the ports of the
    instances. -/
theorem InstrCov.makeSum_value (c : InstrCov) {v : Sig → Int} (insts : List WDefInstance) (e : Expr)
    (h : ∀ loc e', .connect loc e' ∈ c.makeSum insts e → v loc.sig = loc.tpe.clip (eval v e')) :
    ∃ x, v ["io_covSum"] = x % 2 ^ c.covSumSize ∧
      x ≡ eval v e + (insts.map fun i => v [i.name, "io_covSum"]).sum [ZMOD 2 ^ c.covSumSize] := by
  induction insts generalizing e with
  | nil =>
      refine ⟨eval v e, h _ _ (List.mem_singleton_self _), ?_⟩
      simp
  | cons i insts ih =>
      obtain ⟨x, hx, hmod⟩ := ih (.ref (i.name ++ "_sum") (.uint c.covSumSize)) fun loc e' hs =>
        h loc e' (List.mem_cons_of_mem _ (List.mem_cons_of_mem _ hs))
      refine ⟨x, hx, hmod.trans ?_⟩
      have hw : v [i.name ++ "_sum"] = (eval v e + v [i.name, "io_covSum"]) % 2 ^ c.covSumSize % 2 ^ c.covSumSize :=
        h _ _ (List.mem_cons_of_mem _ List.mem_cons_self)
      simp only [eval, GType.clip, hw, List.map_cons, List.sum_cons]
      rw [← add_assoc]
      refine Int.ModEq.add_right _ ?_
      simp [Int.ModEq]

section Sum

variable {cfg : Config} {C C' : Circuit} {m mm : Module}

theorem mem_extModules_iff (hL : LowForm C) {n : String} {d : DefModule} (hd : C.find n = some d) :
    n ∈ extModules C ↔ d.isExt = true := by
  have hn := Circuit.find_name hd
  unfold extModules
  rw [List.mem_map]
  constructor
  · intro hx
    obtain ⟨d', hd', hn'⟩ := hx
    obtain ⟨hmem, hext⟩ := List.mem_filter.mp hd'
    have : d' = d := List.inj_on_of_nodup_map hL.names hmem (Circuit.find_mem hd) (hn'.trans hn.symm)
    rwa [← this]
  · intro h
    exact ⟨d, List.mem_filter.mpr ⟨Circuit.find_mem hd, h⟩, hn⟩

/-- The instances the adder chain goes through are the children of the hierarchy. -/
theorem Parts.insts_perm (P : Parts cfg C m mm) (hL : LowForm C) (hm : .module m ∈ C.modules) :
    P.c.insts.Perm ((C.children m).map (·.1)) := by
  have hnd : ((C.children m).map (·.1)).Nodup := by
    have hi : m.insts.Nodup := List.Nodup.of_map _ (hL.distinctInsts m hm)
    refine hi.sublist ?_
    unfold Circuit.children
    rw [List.map_filterMap]
    induction m.insts with
    | nil => exact .slnil
    | cons i l ih =>
        rw [List.filterMap_cons]
        cases hfi : C.find i.module with
        | none => exact .cons _ ih
        | some d =>
            cases d with
            | ext e => exact .cons _ ih
            | module m' => exact .cons_cons _ ih
  rw [List.perm_ext_iff_of_nodup P.c_insts_nodup hnd]
  intro i
  rw [P.mem_c_insts, List.mem_map]
  constructor
  · intro h'
    obtain ⟨hi, hext⟩ := h'
    obtain ⟨d, hd⟩ := (hL.modules m hm).instances i hi
    cases d with
    | ext e => exact absurd ((mem_extModules_iff hL hd).mpr rfl) hext
    | module m' => exact ⟨(i, m'), Circuit.mem_children.mpr ⟨hi, hd⟩, rfl⟩
  · intro hex
    obtain ⟨⟨j, m'⟩, hx, rfl⟩ := hex
    obtain ⟨hi, hd⟩ := Circuit.mem_children.mp hx
    exact ⟨hi, fun h => by cases (mem_extModules_iff hL hd).mp h⟩

/-- The port of an instance, seen from above. -/
theorem covSum_of_child (hex : execute cfg C = some C') {st : State} {V : Valuation}
    (hset : C'.Settled st V) {p : Path} (hp : C'.Inst p (.module mm)) (P : Parts cfg C m mm)
    {x : WDefInstance × Module} (hx : x ∈ C.children m) :
    V p [x.1.name, "io_covSum"] = V (p ++ [x.1.name]) ["io_covSum"] := by
  obtain ⟨hi, hd⟩ := Circuit.mem_children.mp hx
  obtain ⟨d', hd', hins⟩ := find_of_find hex hd
  obtain ⟨mm', rfl, ⟨P'⟩⟩ := parts_of_instrumented hins
  have hlink := hset p mm hp _ (Module.mem_insts.mp (P.mem_insts.mpr hi)) _ hd' P'.c.covSumPort
  refine hlink ?_
  show P'.c.covSumPort ∈ mm'.ports
  rw [P'.ports_eq]
  simp

/-- **The port of one instance**: its own sum plus the ports below. -/
theorem Parts.covSum_port (P : Parts cfg C m mm) (hL : LowForm C) (hm : .module m ∈ C.modules)
    (hex : execute cfg C = some C') (hf : mm.declared.Nodup) {p : Path}
    (hp : C'.Inst p (.module mm)) {st : State} {V : Valuation} (hset : C'.Settled st V) :
    ∃ x, V p ["io_covSum"] = x % 2 ^ cfg.covSumSize ∧
      x ≡ eval (V p) P.c.covSumRef +
        ((C.children m).map fun x => V (p ++ [x.1.name]) ["io_covSum"]).sum
        [ZMOD 2 ^ cfg.covSumSize] := by
  have hval := P.c.makeSum_value (v := V p) P.c.insts P.c.covSumRef fun loc e hs => by
    refine P.cov_connect hL hm hf hp hset (P.makeSum_mem_cov _ hs) ?_
    -- the chain drives wires and the port
    obtain ⟨n, t, rfl, hn⟩ := P.c.makeSum_targets _ _ loc e hs
    rcases hn with rfl | ⟨s, hs', hd⟩
    · refine Module.reg_ne_of_port hf (q := P.c.covSumPort) ?_
      rw [P.ports_eq]
      simp
    · refine Module.reg_ne_of_decl hf (P.mem_leaves_of_cov hL hm hf (P.makeSum_mem_cov s hs')) hd ?_
      rintro r rfl
      cases P.c.makeSum_wiring _ _ _ hs'
  rw [P.c_covSumSize] at hval
  obtain ⟨x, hx, hmod⟩ := hval
  refine ⟨x, hx, hmod.trans (Int.ModEq.add_left _ ?_)⟩
  rw [((P.insts_perm hL hm).map _).sum_eq, List.map_map]
  have hc : (C.children m).map ((fun i => V p [i.name, "io_covSum"]) ∘ (·.1)) =
      (C.children m).map fun x => V (p ++ [x.1.name]) ["io_covSum"] :=
    List.map_congr_left fun x hx => covSum_of_child hex hset hp P hx
  rw [hc]

end Sum

/-! ## 4. Whole runs -/

/-- The number of distinct values that the state register of the instance at `q` held before
    cycle `t`; without a coverage map there is none. -/
def distinctStates (cfg : Config) (C : Circuit) (val : Nat → Valuation) (t : Nat) (q : Path)
    (m : Module) : Nat :=
  match covOf cfg C m with
  | some c => if c.hasMap m then (seen (fun s => val s q [c.regStateName]) t).card else 0
  | none => 0

theorem distinctStates_mono {cfg : Config} {C : Circuit} {val : Nat → Valuation} {q : Path}
    {m : Module} {s t : Nat} (h : s ≤ t) :
    distinctStates cfg C val s q m ≤ distinctStates cfg C val t q m := by
  unfold distinctStates
  split
  · split
    · exact Finset.card_le_card (seen_mono _ h)
    · exact Nat.le_refl _
  · exact Nat.le_refl _

/-- A run of an instrumented circuit on one clock, with sums and coverage maps zero at first. -/
structure CovRun (cfg : Config) (C C' : Circuit) (st : Nat → State) (val : Nat → Valuation) :
    Prop where
  run : C'.IsRun st val
  ticks : ∀ t p m clk, C.Inst p (.module m) → InstrCov.clockName m = some clk → val t p [clk] = 1
  start : ∀ p m c, C.Inst p (.module m) → covOf cfg C m = some c → c.hasMap m = true →
    (st 0).reg p c.covSumName = 0 ∧ (∀ a, ((st 0).mem p c.covMapName).cells a = 0) ∧
    0 ≤ (st 0).reg p c.regStateName ∧ (st 0).reg p c.regStateName < 2 ^ c.regStateSize

section Count

variable {cfg : Config} {C C' : Circuit} (hL : LowForm C) (hf : Fresh C')
  (hsize : cfg.maxStateSize ≤ 30) {st : Nat → State} {val : Nat → Valuation}
  (hr : CovRun cfg C C' st val)

include hL hf hsize hr

/-- **The record of one instance**, along the whole run. -/
theorem counts_run {p : Path} {m mm : Module} (hp : C.Inst p (.module m))
    (hp' : C'.Inst p (.module mm)) (P : Parts cfg C m mm) (hmap : P.c.hasMap m = true) (t : Nat) :
    Counts cfg.covSumSize (fun s => val s p [P.c.regStateName]) t ((st t).reg p P.c.covSumName)
      ((st t).mem p P.c.covMapName).cells ∧
    0 ≤ (st t).reg p P.c.regStateName ∧ (st t).reg p P.c.regStateName < 2 ^ P.c.regStateSize := by
  have hsz : P.c.regStateSize ≠ 0 := by
    unfold InstrCov.hasMap at hmap
    simpa using (Bool.and_eq_true_iff.mp hmap).2
  obtain ⟨clk, hclk⟩ := Option.isSome_iff_exists.mp (Bool.and_eq_true_iff.mp hmap).1
  induction t with
  | zero =>
      obtain ⟨h1, h2, h3⟩ := hr.start p m P.c hp P.covOf_eq hmap
      exact ⟨.zero h1 h2, h3⟩
  | succ t ih =>
      obtain ⟨hc, h0, hlt⟩ := ih
      have hfacts := P.mapFacts hL hp.mem (hf mm hp'.mem) hp' (hr.run.settled t) hclk hsz
        (hr.run.next t) (hr.ticks t p m clk hp hclk)
      have hbits : ∀ a, ((st t).mem p P.c.covMapName).cells a = 0 ∨
          ((st t).mem p P.c.covMapName).cells a = 1 := by
        intro a
        rw [hc.cells]
        split
        · exact .inr rfl
        · exact .inl rfl
      obtain ⟨hcells, hsum⟩ := hfacts.step h0 hlt (Nat.le_trans P.c_regStateSize hsize) hbits
      have hstate := hfacts.state
      refine ⟨?_, ?_⟩
      · rw [hcells, hsum, P.c_covSumSize, ← hstate]
        refine hc.step ?_
        rw [hstate]
        exact h0
      · rcases hfacts.range with h | ⟨y, h⟩
        · rw [h]
          exact ⟨h0, hlt⟩
        · rw [h]
          exact ⟨Int.emod_nonneg _ (by positivity), Int.emod_lt_of_pos _ (by positivity)⟩

/-- What a module adds to the chain is its number of distinct states. -/
theorem covSumRef_value {p : Path} {m mm : Module} (hp : C.Inst p (.module m))
    (hp' : C'.Inst p (.module mm)) (P : Parts cfg C m mm) (t : Nat) :
    eval (val t p) P.c.covSumRef ≡ (distinctStates cfg C val t p m : Int)
      [ZMOD 2 ^ cfg.covSumSize] := by
  have hval : eval (val t p) P.c.covSumRef = val t p [P.c.covSumName] % 2 ^ cfg.covSumSize := by
    simp only [InstrCov.covSumRef, eval, GType.clip, P.c_covSumSize]
  unfold distinctStates
  rw [P.covOf_eq, hval]
  simp only
  by_cases hmap : P.c.hasMap m = true
  · rw [if_pos hmap]
    obtain ⟨hc, _⟩ := counts_run hL hf hsize hr hp hp' P hmap t
    have hsz : P.c.regStateSize ≠ 0 := by
      unfold InstrCov.hasMap at hmap
      simpa using (Bool.and_eq_true_iff.mp hmap).2
    obtain ⟨clk, hclk⟩ := Option.isSome_iff_exists.mp (Bool.and_eq_true_iff.mp hmap).1
    have hfacts := P.mapFacts hL hp.mem (hf mm hp'.mem) hp' (hr.run.settled t) hclk hsz
      (hr.run.next t) (hr.ticks t p m clk hp hclk)
    rw [hfacts.sum, hc.sum]
    exact (Int.mod_modEq _ _).trans (Int.mod_modEq _ _)
  · rw [if_neg hmap]
    -- the sum is a wire held at zero
    have hno : P.cov = InstrCov.addedStmts.noCoverage P.c := by
      rcases InstrCov.addedStmts_cases P.hcov with ⟨clk, _, hclk, hsz, _⟩ | ⟨_, e⟩
      · refine absurd ?_ hmap
        unfold InstrCov.hasMap
        rw [hclk]
        simpa using hsz
      · exact e
    have hwire : .defWire P.c.covSumName (.uint P.c.covSumSize) ∈ P.cov := by
      rw [hno]
      exact List.mem_append_left _ List.mem_cons_self
    have hcon : .connect P.c.covSumRef (.uintLit 0 P.c.covSumSize) ∈ P.cov := by
      rw [hno]
      exact List.mem_append_left _ (List.mem_cons_of_mem _ List.mem_cons_self)
    have hfm := hf mm hp'.mem
    have h0 : val t p [P.c.covSumName] = 0 := by
      have := P.cov_connect hL hp.mem hfm hp' (hr.run.settled t) hcon
        (Module.reg_ne_of_decl hfm (P.mem_leaves_of_cov hL hp.mem hfm hwire) rfl fun r h => by cases h)
      refine this.trans ?_
      simp [eval]
    rw [h0]
    simp

/-- **Coverage counts distinct states over whole runs and hierarchies.** In every run on one
    clock, whatever the other inputs and `metaReset` do, the `io_covSum` output of an instance
    is, modulo `2^covSumSize`, the number of distinct states of its subtree, added up over the
    instances; and it does not decrease as long as that number stays below `2^covSumSize`. -/
theorem covSum_counts (ha : C.Acyclic) (hex : execute cfg C = some C') {p : Path} {m : Module}
    (hp : C.Inst p (.module m)) :
    ∃ L, C.IsSubtree p L ∧
      (∀ t, val t p ["io_covSum"] =
        ((L.map fun x => distinctStates cfg C val t x.1 x.2).sum : Int) % 2 ^ cfg.covSumSize) ∧
      ∀ s t, s ≤ t →
        (L.map fun x => distinctStates cfg C val t x.1 x.2).sum < 2 ^ cfg.covSumSize →
        val s p ["io_covSum"] ≤ val t p ["io_covSum"] := by
  obtain ⟨L, hsub, hadd⟩ := Circuit.exists_subtree hL.distinctInsts ha hp
  have hval : ∀ t, val t p ["io_covSum"] =
      (((L.map fun x => distinctStates cfg C val t x.1 x.2).sum : Nat) : Int) %
        2 ^ cfg.covSumSize := by
    intro t
    have hstep : ∀ q m', C.Inst q (.module m') → ∃ x, val t q ["io_covSum"] = x % 2 ^ cfg.covSumSize ∧
        x ≡ (distinctStates cfg C val t q m' : Int) +
          ((C.children m').map fun x => val t (q ++ [x.1.name]) ["io_covSum"]).sum
          [ZMOD 2 ^ cfg.covSumSize] := by
      intro q m' hq
      obtain ⟨mm, hq', ⟨P⟩⟩ := parts_of_inst hex hq
      obtain ⟨x, hx, hmod⟩ := P.covSum_port hL hq.mem hex (hf mm hq'.mem) hq' (hr.run.settled t)
      exact ⟨x, hx, hmod.trans (Int.ModEq.add_right _
        (covSumRef_value hL hf hsize hr hq hq' P t))⟩
    have hsum := hadd (2 ^ cfg.covSumSize) (fun q m' => (distinctStates cfg C val t q m' : Int))
      (fun q _ => val t q ["io_covSum"]) fun q m' hq => by
        obtain ⟨x, hx, hmod⟩ := hstep q m' hq
        rw [hx]
        exact (Int.mod_modEq _ _).trans hmod
    obtain ⟨x, hx, _⟩ := hstep p m hp
    have hred : val t p ["io_covSum"] % 2 ^ cfg.covSumSize = val t p ["io_covSum"] := by
      rw [hx]
      exact Int.emod_emod_of_dvd _ (Int.dvd_refl _)
    rw [Nat.cast_list_sum, List.map_map, ← hred]
    exact hsum
  refine ⟨L, hsub, fun t => ?_, fun s t hst hlt => ?_⟩
  · rw [hval t, Nat.cast_list_sum, List.map_map]
  · have hle : (L.map fun x => distinctStates cfg C val s x.1 x.2).sum ≤
        (L.map fun x => distinctStates cfg C val t x.1 x.2).sum :=
      List.sum_le_sum fun x _ => distinctStates_mono hst
    have hs : val s p ["io_covSum"] = ((L.map fun x => distinctStates cfg C val s x.1 x.2).sum : Nat) := by
      rw [hval s]
      exact Int.emod_eq_of_lt (Int.natCast_nonneg _) (by exact_mod_cast lt_of_le_of_lt hle hlt)
    have ht : val t p ["io_covSum"] = ((L.map fun x => distinctStates cfg C val t x.1 x.2).sum : Nat) := by
      rw [hval t]
      exact Int.emod_eq_of_lt (Int.natCast_nonneg _) (by exact_mod_cast hlt)
    rw [hs, ht]
    exact_mod_cast hle

end Count

/-! ## 5. A circuit of three instances

A leaf holds its register under a mux, and has a `stop` that is enabled while it is clear. The top
module has two of them. In the run the register of `low` starts clear and that of `high` set,
everything else at zero; `x` is the `metaReset` input. -/

namespace Demo

def bit (n : String) : Expr := .ref n (.uint 1)

def reg : DefRegister := ⟨.noInfo, "r", .uint 1, .ref "clock" .clock, .uintLit 0 1, bit "r"⟩

def hold : Expr := .mux (bit "r") (.uintLit 1 1) (.uintLit 0 1) (.uint 1)

def clear : Expr := .doPrim1 .not (bit "r") [] (.uint 1)

def ports : List Port := [⟨"clock", .input, .clock⟩, ⟨"reset", .input, .uint 1⟩]

def leaf : Module where
  name := "Leaf"
  ports := ports
  body := [.defRegister reg, .connect (bit "r") hold, .stop ⟨1, .ref "clock" .clock, clear⟩]

def low : WDefInstance := ⟨"low", "Leaf"⟩

def high : WDefInstance := ⟨"high", "Leaf"⟩

/-- The inputs of an instance are those of the top module. -/
def inputs (i : WDefInstance) : List Stmt :=
  [.connect (.subField (.ref i.name .unknown) "clock" .clock) (.ref "clock" .clock),
   .connect (.subField (.ref i.name .unknown) "reset" (.uint 1)) (bit "reset")]

def top : Module where
  name := "Top"
  ports := ports
  body := [.defInstance low, .defInstance high] ++ inputs low ++ inputs high

def circuit : Circuit := ⟨[.module leaf, .module top], "Top"⟩

def config : Config := { order := .insertion, rnd := fun _ _ => 0 }

/-- What the analysis and the constructor answer for the leaf. -/
def leafInfo : ModuleInfo :=
  { ctrlRegs := [reg], muxSrcs := ⟨[(⟨bit "r", .uintLit 1 1, .uintLit 0 1, .uint 1⟩, ["r"])]⟩,
    insts := [], regs := [reg], vecRegs := [], dirInRegs := [reg] }

def pass : InstrCov := ⟨"Leaf", [], 30, 1, 1, [(.reg reg, 0)]⟩

/-- And for the top module, which has no register of its own. -/
def topInfo : ModuleInfo :=
  { ctrlRegs := [], muxSrcs := ⟨[]⟩, insts := [low, high], regs := [], vecRegs := [],
    dirInRegs := [] }

def topPass : InstrCov := ⟨"Top", [low, high], 30, 0, 0, []⟩

def leafCov : List Stmt :=
  [.defRegister (pass.regState "clock"), .defMemory pass.covMap, .defRegister (pass.covSum "clock"),
   .defWire ("r" ++ "_shl") (.uint 1),
   .connect (bit ("r" ++ "_shl")) (.doPrim1 .shl (bit "r") [0] (.uint 1)),
   .defWire ("r" ++ "_pad") (.uint 1), .connect (bit ("r" ++ "_pad")) (bit ("r" ++ "_shl")),
   .connect (bit pass.regStateName) (bit ("r" ++ "_pad"))] ++
  pass.readConnect "clock" ++ pass.writeConnect "clock" ++
  [.connect (.ref "io_covSum" (.uint 30)) pass.covSumRef]

def topCov : List Stmt :=
  [.defWire topPass.covSumName (.uint 30), .connect topPass.covSumRef (.uintLit 0 30)] ++
  topPass.makeSum [low, high] topPass.covSumRef

/-- The sticky bit of a module. -/
def sticky (m : Module) : Expr := bit (m.name ++ "_metaAssert")

def stuck (m : Module) (e : Expr) : Expr := .doPrim2 .or (sticky m) e [] (.uint 1)

def muxed (e : Expr) : Expr := .mux InstrReset.metaReset (.uintLit 0 1) e .unknown

/-- What drives the sticky bit and the port, before the reset pass (`id`) and after it. -/
def asserts (m : Module) (e : Expr) (f : Expr → Expr) : List Stmt :=
  [.defRegister (InstrAssert.assertReg m), .connect (sticky m) (f (stuck m e)),
   .connect (bit "metaAssert") (sticky m)]

def stopEn : Stmt := .defNode (InstrAssert.stopEnName 0) clear

/-- The assertion of an instance, on a wire. -/
def assertWire (i : WDefInstance) : Expr := bit (InstrAssert.wireName i)

def topOr : Expr := bit ("Top" ++ "_or" ++ toString 0)

def assertWires : List Stmt :=
  [.defWire (InstrAssert.wireName low) (.uint 1), .defWire (InstrAssert.wireName high) (.uint 1),
   .connect (assertWire low) (.subField (.ref "low" .unknown) "metaAssert" .unknown),
   .connect (assertWire high) (.subField (.ref "high" .unknown) "metaAssert" .unknown),
   .defWire ("Top" ++ "_or" ++ toString 0) (.uint 1),
   .connect topOr (.doPrim2 .or (assertWire low) (assertWire high) [] (.uint 1))]

def instrumentedLeaf : Module where
  name := "Leaf"
  ports := ports ++ [pass.covSumPort, InstrAssert.assertPort, InstrReset.metaResetPort]
  body := [.defRegister reg, .connect (bit "r") (muxed hold),
      .stop ⟨1, .ref "clock" .clock, clear⟩] ++ leafCov ++
    stopEn :: asserts leaf (bit (InstrAssert.stopEnName 0)) muxed

def instrumentedTop : Module where
  name := "Top"
  ports := ports ++ [topPass.covSumPort, InstrAssert.assertPort, InstrReset.metaResetPort,
    InstrReset.haltPort low, InstrReset.haltPort high]
  body := top.body ++ topCov ++ assertWires ++ asserts top topOr muxed ++
    [InstrReset.resetCon low, InstrReset.resetCon high]

def result : Circuit := ⟨[.module instrumentedLeaf, .module instrumentedTop], "Top"⟩

theorem leaf_info : ModuleInfo.ofModule config.order (.module leaf) = some leafInfo := by decide

theorem top_info : ModuleInfo.ofModule config.order (.module top) = some topInfo := by decide

theorem leaf_new : InstrCov.new config.order leafInfo config.maxStateSize (config.rnd leaf.name)
    leaf.name (extModules circuit) config.covSumSize = some pass := by decide

theorem top_new : InstrCov.new config.order topInfo config.maxStateSize (config.rnd top.name)
    top.name (extModules circuit) config.covSumSize = some topPass := by decide

theorem leaf_covPass : covPass config leafInfo (extModules circuit) (.module leaf) =
    some (.module (covModule leaf pass leafCov)) := by
  have hcov : pass.addedStmts leaf = some leafCov := rfl
  simp only [covPass, DefModule.name, leaf_new, Option.bind_eq_bind, Option.bind_some,
    InstrCov.instrument, hcov, Option.map_some]
  rfl

theorem top_covPass : covPass config topInfo (extModules circuit) (.module top) =
    some (.module (covModule top topPass topCov)) := by
  have hcov : topPass.addedStmts top = some topCov := rfl
  simp only [covPass, DefModule.name, top_new, Option.bind_eq_bind, Option.bind_some,
    InstrCov.instrument, hcov, Option.map_some]
  rfl

/-- A module after the assertion pass. -/
def asserted (m : Module) (ss : List Stmt) : Module :=
  { m with ports := m.ports ++ [InstrAssert.assertPort], body := m.body ++ ss }

theorem leaf_assert : InstrAssert.instrument config.order leafInfo.insts
      (.module (covModule leaf pass leafCov)) =
    (.module (asserted (covModule leaf pass leafCov)
      (stopEn :: asserts leaf (bit (InstrAssert.stopEnName 0)) id)),
      some (InstrAssert.assertReg leaf)) := by
  have hclock : InstrAssert.hasClockReset (covModule leaf pass leafCov) = true := by
    show InstrAssert.hasClockReset ⟨"Leaf", ports ++ [pass.covSumPort], []⟩ = true
    decide
  simp only [InstrAssert.instrument, InstrAssert.addedStmts, InstrAssert.conStmts,
    InstrAssert.newAssertReg, hclock]
  rfl

theorem top_assert : InstrAssert.instrument config.order topInfo.insts
      (.module (covModule top topPass topCov)) =
    (.module (asserted (covModule top topPass topCov) (assertWires ++ asserts top topOr id)),
      some (InstrAssert.assertReg top)) := by
  have hclock : InstrAssert.hasClockReset (covModule top topPass topCov) = true := by
    show InstrAssert.hasClockReset ⟨"Top", ports ++ [topPass.covSumPort], []⟩ = true
    decide
  simp only [InstrAssert.instrument, InstrAssert.addedStmts, InstrAssert.conStmts,
    InstrAssert.newAssertReg, hclock]
  rfl

theorem leaf_reset : InstrReset.instrument
      { leafInfo with assertReg := some (InstrAssert.assertReg leaf) }
      (.module (asserted (covModule leaf pass leafCov)
        (stopEn :: asserts leaf (bit (InstrAssert.stopEnName 0)) id))) =
    some (.module instrumentedLeaf) := by
  have hbody : InstrReset.addMetaResetList [reg, InstrAssert.assertReg leaf]
      ((covModule leaf pass leafCov).body ++
        stopEn :: asserts leaf (bit (InstrAssert.stopEnName 0)) id) =
      some instrumentedLeaf.body := rfl
  unfold InstrReset.instrument
  exact Option.map_eq_some_iff.mpr ⟨_, hbody, rfl⟩

theorem top_reset : InstrReset.instrument
      { topInfo with assertReg := some (InstrAssert.assertReg top) }
      (.module (asserted (covModule top topPass topCov) (assertWires ++ asserts top topOr id))) =
    some (.module instrumentedTop) := by
  have hbody : InstrReset.addMetaResetList [InstrAssert.assertReg top]
      ((covModule top topPass topCov).body ++ (assertWires ++ asserts top topOr id)) =
      some (top.body ++ topCov ++ assertWires ++ asserts top topOr muxed) := rfl
  unfold InstrReset.instrument
  exact Option.map_eq_some_iff.mpr ⟨_, hbody, rfl⟩

theorem execute_eq : execute config circuit = some result := by
  have hmods : circuit.modules = [.module leaf, .module top] := rfl
  simp only [execute, hmods, List.mapM_cons, List.mapM_nil, leaf_info, top_info,
    Option.bind_eq_bind, Option.bind_some, Option.pure_def, List.zip_cons_cons, List.zip_nil_left,
    leaf_covPass, top_covPass, Option.map_some, List.map_cons, List.map_nil, leaf_assert,
    top_assert, leaf_reset, top_reset]
  rfl

/-- The instances of such a circuit: the top module, and a leaf at each of two paths. -/
theorem inst_iff {C : Circuit} {l t : Module} (hC : C = ⟨[.module l, .module t], "Top"⟩)
    (hl : l.name = "Leaf") (ht : t.name = "Top") (hli : l.insts = []) (hti : t.insts = [low, high])
    {p : Path} {d : DefModule} (h : C.Inst p d) :
    (p = [] ∧ d = .module t) ∨ ((p = ["low"] ∨ p = ["high"]) ∧ d = .module l) := by
  subst hC
  induction h with
  | top hf =>
      simp [Circuit.find, DefModule.name, hl, ht] at hf
      exact .inl ⟨rfl, hf.symm⟩
  | @sub p m i d _ hi hf ih =>
      rcases ih with ⟨rfl, e⟩ | ⟨_, e⟩
      · cases e
        rw [hti, List.mem_cons, List.mem_singleton] at hi
        have hleaf : i.name = "low" ∨ i.name = "high" := hi.imp (congrArg _) (congrArg _)
        have hmod : i.module = "Leaf" := by
          rcases hi with rfl | rfl <;> rfl
        simp [Circuit.find, DefModule.name, hl, hmod] at hf
        exact .inr ⟨hleaf.imp (congrArg fun n => [n]) (congrArg fun n => [n]), hf.symm⟩
      · cases e
        rw [hli] at hi
        cases hi

theorem inst_circuit {p : Path} {m : Module} (hp : circuit.Inst p (.module m)) :
    (p = [] ∧ m = top) ∨ ((p = ["low"] ∨ p = ["high"]) ∧ m = leaf) :=
  (inst_iff (l := leaf) rfl rfl rfl rfl rfl hp).imp (And.imp_right DefModule.module.inj)
    (And.imp_right DefModule.module.inj)

theorem inst_result {p : Path} {m : Module} (hp : result.Inst p (.module m)) :
    (p = [] ∧ m = instrumentedTop) ∨ ((p = ["low"] ∨ p = ["high"]) ∧ m = instrumentedLeaf) :=
  (inst_iff (l := instrumentedLeaf) rfl rfl rfl rfl rfl hp).imp
    (And.imp_right DefModule.module.inj) (And.imp_right DefModule.module.inj)

theorem inst_top : circuit.Inst [] (.module top) := .top rfl

theorem inst_low : circuit.Inst ["low"] (.module leaf) :=
  .sub (i := low) inst_top (by decide) rfl

theorem inst_high : circuit.Inst ["high"] (.module leaf) :=
  .sub (i := high) inst_top (by decide) rfl

theorem mem_leaf {s : Stmt} (h : s ∈ leaf.leaves) : s = .defRegister reg ∨
    s = .connect (bit "r") hold ∨ s = .stop ⟨1, .ref "clock" .clock, clear⟩ := by
  have hleaves : leaf.leaves = leaf.body := rfl
  rw [hleaves] at h
  simpa only [leaf, List.mem_cons, List.not_mem_nil, or_false] using h

theorem mem_top {s : Stmt} (h : s ∈ top.leaves) :
    s = .defInstance low ∨ s = .defInstance high ∨ s ∈ inputs low ∨ s ∈ inputs high := by
  have hleaves : top.leaves = [.defInstance low, .defInstance high] ++ inputs low ++ inputs high := rfl
  rw [hleaves] at h
  simpa only [List.mem_append, List.mem_cons, List.not_mem_nil, or_false, or_assoc] using h

theorem mem_inputs {i : WDefInstance} {s : Stmt} (h : s ∈ inputs i) :
    ∃ q t, s = .connect (.subField (.ref i.name .unknown) q t) (.ref q t) ∧
      (q = "clock" ∧ t = .clock ∨ q = "reset" ∧ t = .uint 1) := by
  rcases List.mem_pair.mp h with rfl | rfl
  · exact ⟨"clock", .clock, rfl, .inl ⟨rfl, rfl⟩⟩
  · exact ⟨"reset", .uint 1, rfl, .inr ⟨rfl, rfl⟩⟩

theorem leaf_lowModule : LowModule circuit leaf := by
  refine ⟨by decide, by unfold LegalName; decide, ?_, by decide, fun loc e hs => ?_,
    fun i hi => (by cases hi)⟩
  · have hclock : IsSig circuit leaf ["clock"] :=
      .port (q := ⟨"clock", .input, .clock⟩) (by decide)
    have hr : IsSig circuit leaf ["r"] := .reg (r := reg) (by decide)
    intro s hs e he x hx
    rcases mem_leaf hs with rfl | rfl | rfl <;>
      simp [Stmt.exprs, reg, bit, hold, clear] at he <;>
      rcases he with rfl | rfl | rfl <;> simp [Expr.refs] at hx <;> subst hx <;> assumption
  · rcases mem_leaf hs with h | h | h <;> cases h
    rfl

/-- An input of a leaf: the port below, the same port above. -/
theorem isSig_input {i : WDefInstance} (hi : i ∈ [low, high]) {q : String} {t : GType}
    (hq : q = "clock" ∧ t = .clock ∨ q = "reset" ∧ t = .uint 1) :
    IsSig circuit top [q] ∧ IsSig circuit top [i.name, q] := by
  have hport : (⟨q, .input, t⟩ : Port) ∈ ports := by
    rcases hq with ⟨rfl, rfl⟩ | ⟨rfl, rfl⟩ <;> decide
  have hleaf : circuit.find i.module = some (.module leaf) := by
    rcases List.mem_pair.mp hi with rfl | rfl <;> rfl
  exact ⟨.port (q := ⟨q, .input, t⟩) hport,
    .inst (i := i) (d := .module leaf) (q := ⟨q, .input, t⟩) hi hleaf hport⟩

theorem top_lowModule : LowModule circuit top := by
  refine ⟨by decide, by unfold LegalName; decide, fun s hs => ?_, by decide, fun loc e hs => ?_,
    fun i hi => ⟨.module leaf, ?_⟩⟩
  · have hone : ∀ i ∈ [low, high], ∀ s ∈ inputs i, ∀ e ∈ s.exprs, ∀ x ∈ e.refs,
        IsSig circuit top x := by
      intro i hi s hs e he x hx
      obtain ⟨q, t, rfl, hq⟩ := mem_inputs hs
      obtain ⟨habove, hbelow⟩ := isSig_input hi hq
      rcases List.mem_pair.mp he with rfl | rfl <;> cases List.mem_singleton.mp hx
      · exact hbelow
      · exact habove
    rcases mem_top hs with rfl | rfl | h | h
    · exact fun e he => (by cases he)
    · exact fun e he => (by cases he)
    · exact hone low (by decide) s h
    · exact hone high (by decide) s h
  · rcases mem_top hs with h | h | h | h
    · cases h
    · cases h
    · obtain ⟨q, t, h, -⟩ := mem_inputs h
      cases h
      rfl
    · obtain ⟨q, t, h, -⟩ := mem_inputs h
      cases h
      rfl
  · rcases List.mem_pair.mp (show i ∈ [low, high] from hi) with rfl | rfl <;> rfl

theorem lowForm : LowForm circuit where
  names := by decide
  legal := by unfold LegalName; decide
  modules m hm := by
    rcases List.mem_pair.mp hm with h | h <;> cases h
    · exact leaf_lowModule
    · exact top_lowModule

theorem acyclic : circuit.Acyclic := by
  refine ⟨fun n => if n = "Top" then 1 else 0, fun m hm i hi => ?_⟩
  rcases List.mem_pair.mp hm with h | h <;> cases h
  · cases hi
  · rcases List.mem_pair.mp (show i ∈ [low, high] from hi) with rfl | rfl <;> decide

theorem fresh : Fresh result := by
  intro mm hm
  rcases List.mem_pair.mp hm with h | h <;> cases h <;> decide

/-- 0 in cycle 0 and 1 from then on. -/
def late (t : Nat) : Int := if t = 0 then 0 else 1

/-- The register of a leaf that starts with `r`. -/
def held (x r : Int) : Nat → Int
  | 0 => r
  | _ + 1 => if x = 0 then r else 0

/-- Its state word, the register of the cycle before. -/
def word (x r : Int) : Nat → Int
  | 0 => 0
  | t + 1 => held x r t

/-- Its map: the first cycle shows state 0, the second one `r`. -/
def cell (r : Int) : Nat → Nat → Int
  | 0, _ => 0
  | 1, a => if a = 0 then 1 else 0
  | _ + 2, a => if a = 0 then 1 else if a = 1 then r else 0

def sum (r : Int) (t : Nat) : Int := cell r t 0 + cell r t 1

/-- Its sticky bit: the `stop` is enabled while the register is clear, and `metaReset` is low. -/
def failed (x r : Int) (t : Nat) : Int := if x = 0 ∧ r = 0 then late t else 0

def leafValue (x r : Int) (t : Nat) : Sig → Int
  | ["clock"] | ["Leaf_cov", "read", "en"] | ["Leaf_cov", "read", "clk"]
  | ["Leaf_cov", "write", "mask"] | ["Leaf_cov", "write", "en"] | ["Leaf_cov", "write", "clk"]
  | ["Leaf_cov", "write", "data"] => 1
  | ["r"] | ["r_shl"] | ["r_pad"] => held x r t
  | ["stopEn0"] => 1 - held x r t
  | ["Leaf_state"] | ["Leaf_cov", "read", "addr"] | ["Leaf_cov", "write", "addr"] => word x r t
  | ["Leaf_cov", "read", "data"] => cell r t (word x r t).toNat
  | ["Leaf_covSum"] | ["io_covSum"] => sum r t
  | ["Leaf_metaAssert"] | ["metaAssert"] => failed x r t
  | ["metaReset"] => x
  | _ => 0

def topValue (x : Int) (t : Nat) : Sig → Int
  | ["low", q] => leafValue x 0 t [q]
  | ["high", q] => leafValue x 1 t [q]
  | ["clock"] => 1
  | ["low_sum"] => sum 0 t
  | ["high_sum"] | ["io_covSum"] => sum 0 t + sum 1 t
  | ["low_metaAssert_wire"] | ["Top_or0"] => failed x 0 t
  | ["Top_metaAssert"] | ["metaAssert"] => if t = 0 then 0 else failed x 0 (t - 1)
  | ["metaReset"] => x
  | _ => 0

/-- What the register of a leaf starts with. -/
def start : Path → Int
  | ["high"] => 1
  | _ => 0

def val (x : Int) (t : Nat) : Valuation
  | [] => topValue x t
  | p => leafValue x (start p) t

/-- The ports of a map in the cycles before, newest first. -/
def past (v : Nat → Sig → Int) : Nat → List (List (String × PortIn))
  | 0 => []
  | t + 1 => pass.covMap.inputs (v t) :: past v t

def state (x : Int) (t : Nat) : State where
  reg p n := val x t p [n]
  mem p _ := ⟨cell (start p) t, past (fun s => val x s p) t⟩

theorem leaves_leaf : instrumentedLeaf.leaves =
    [.defRegister reg, .connect (bit "r") (muxed hold), .stop ⟨1, .ref "clock" .clock, clear⟩] ++
      leafCov ++ stopEn :: asserts leaf (bit (InstrAssert.stopEnName 0)) muxed := rfl

theorem leaves_top : instrumentedTop.leaves =
    [.defInstance low, .defInstance high] ++ inputs low ++ inputs high ++ topCov ++ assertWires ++
      asserts top topOr muxed ++ [InstrReset.resetCon low, InstrReset.resetCon high] := rfl

theorem regs_leaf : instrumentedLeaf.regs =
    [reg, pass.regState "clock", pass.covSum "clock", InstrAssert.assertReg leaf] := rfl

theorem regs_top : instrumentedTop.regs = [InstrAssert.assertReg top] := rfl

theorem leaf_settled {x : Int} (hx : x = 0 ∨ x = 1) (t : Nat) {p : Path}
    (hp : p = ["low"] ∨ p = ["high"]) :
    ∀ s ∈ instrumentedLeaf.leaves, s.Holds result instrumentedLeaf.regs (state x t) (val x t) p := by
  rw [leaves_leaf]
  -- a connect of a register says nothing about the cycle
  have hreg : reg ∈ instrumentedLeaf.regs := by simp [regs_leaf]
  have hst : pass.regState "clock" ∈ instrumentedLeaf.regs := by simp [regs_leaf]
  have hsum : pass.covSum "clock" ∈ instrumentedLeaf.regs := by simp [regs_leaf]
  have has : InstrAssert.assertReg leaf ∈ instrumentedLeaf.regs := by simp [regs_leaf]
  simp only [leafCov, stopEn, asserts, List.cons_append, List.nil_append,
    List.forall_mem_cons, InstrCov.readConnect, InstrCov.writeConnect, List.not_mem_nil,
    false_imp_iff, implies_true, and_true]
  rcases hx with rfl | rfl <;> rcases hp with rfl | rfl <;> rcases t with _ | _ | t
  all_goals
    refine ⟨rfl, fun h => absurd rfl (h _ hreg), trivial, rfl, ⟨fun r hr => ?_, fun r hr => ?_⟩,
      rfl, trivial, fun _ => rfl, trivial, fun _ => rfl, fun h => absurd rfl (h _ hst),
      fun _ => rfl, fun _ => rfl, fun _ => rfl, fun h => absurd rfl (h _ hsum), fun _ => rfl,
      fun _ => rfl, fun _ => rfl, fun _ => rfl, fun _ => rfl, fun _ => rfl, rfl, rfl,
      fun h => absurd rfl (h _ has), fun _ => rfl⟩
    · cases List.mem_singleton.mp hr
      rfl
    · cases hr

theorem top_settled {x : Int} (hx : x = 0 ∨ x = 1) (t : Nat) :
    ∀ s ∈ instrumentedTop.leaves, s.Holds result instrumentedTop.regs (state x t) (val x t) [] := by
  rw [leaves_top]
  have has : InstrAssert.assertReg top ∈ instrumentedTop.regs := by simp [regs_top]
  -- a port of an instance has the value of the port of the leaf
  have hport : ∀ i ∈ [low, high], ∀ m, result.find i.module = some m → ∀ q ∈ m.ports,
      val x t [] [i.name, q.name] = val x t [i.name] [q.name] := by
    intro i hi m _ q _
    rcases List.mem_pair.mp hi with rfl | rfl <;> rfl
  -- of two bits that are ORed, the second one is 0 throughout
  have hor := fun y (hy : y = 0 ∨ y = 1) (w : GType) =>
    (congrArg w.clip (clip_or_bit hy (.inl rfl : (0 : Int) = 0 ∨ _))).symm
  simp only [inputs, topCov, assertWires, asserts, InstrCov.makeSum,
    List.cons_append, List.nil_append, List.forall_mem_cons, List.not_mem_nil, false_imp_iff,
    implies_true, and_true]
  rcases hx with rfl | rfl <;> rcases t with _ | _ | t
  all_goals
    refine ⟨hport low (by decide), hport high (by decide), fun _ => rfl, fun _ => rfl, fun _ => rfl,
      fun _ => rfl, trivial, fun _ => rfl, trivial, fun _ => rfl, trivial, fun _ => rfl,
      fun _ => rfl, trivial, trivial, fun _ => rfl, fun _ => rfl, trivial, fun _ => ?_, rfl,
      fun h => absurd rfl (h _ has), fun _ => rfl, fun _ => ?_, fun _ => ?_⟩
    · first | exact hor 0 (.inl rfl) (.uint 1) | exact hor 1 (.inr rfl) (.uint 1)
    · first | exact hor 0 (.inl rfl) .unknown | exact hor 1 (.inr rfl) .unknown
    · first | exact hor 0 (.inl rfl) .unknown | exact hor 1 (.inr rfl) .unknown

theorem settled {x : Int} (hx : x = 0 ∨ x = 1) (t : Nat) : result.Settled (state x t) (val x t) := by
  intro p m hp
  rcases inst_result hp with ⟨rfl, rfl⟩ | ⟨hpath, rfl⟩
  · exact top_settled hx t
  · exact leaf_settled hx t hpath

/-- The connects of a module. -/
def connects (m : Module) : List (Expr × Expr) :=
  m.body.filterMap fun | .connect loc e => some (loc, e) | _ => none

/-- No signal is driven twice. -/
theorem connects_unique : ∀ m ∈ [instrumentedLeaf, instrumentedTop], ∀ a ∈ connects m,
    ∀ b ∈ connects m, a.1.sig = b.1.sig → a.2 = b.2 := by
  decide

theorem next_of_connect {m : Module} (hm : m ∈ [instrumentedLeaf, instrumentedTop])
    {v : Sig → Int} {r : DefRegister} (loc e : Expr) {y : Int} (hc : eval v r.clock = 1)
    (h0 : eval v r.reset = 0) (hs : .connect loc e ∈ m.leaves) (hr : loc.sig = [r.name])
    (hy : y = r.tpe.clip (eval v e)) : r.Next m.leaves v y := by
  have hmem : ∀ {loc e}, .connect loc e ∈ m.leaves → (loc, e) ∈ connects m := by
    intro loc e h
    have hleaves : m.leaves = m.body := by
      rcases List.mem_pair.mp hm with rfl | rfl <;> rfl
    rw [hleaves] at h
    exact List.mem_filterMap.mpr ⟨_, h, rfl⟩
  unfold DefRegister.Next
  rw [hc, h0, if_neg (by decide), if_neg (by decide)]
  refine ⟨fun loc' e' hs' hr' => ?_, fun hno => absurd hr (hno loc e hs)⟩
  have he : e' = e := connects_unique m hm _ (hmem hs') _ (hmem hs) (hr'.trans hr.symm)
  rw [he]
  exact hy

theorem leaf_next_reg {x : Int} (hx : x = 0 ∨ x = 1) (t : Nat) {p : Path}
    (hp : p = ["low"] ∨ p = ["high"]) {r : DefRegister} (hr : r ∈ instrumentedLeaf.regs) :
    r.Next instrumentedLeaf.leaves (val x t p) ((state x (t + 1)).reg p r.name) := by
  have hm : instrumentedLeaf ∈ [instrumentedLeaf, instrumentedTop] := List.mem_cons_self
  have hclock : eval (val x t p) (.ref "clock" .clock) = 1 := by
    rcases hp with rfl | rfl <;> rfl
  rw [regs_leaf] at hr
  simp only [List.mem_cons, List.not_mem_nil, or_false] at hr
  rcases hr with rfl | rfl | rfl | rfl
  · refine next_of_connect hm (bit "r") (muxed hold) hclock rfl ?_ rfl ?_
    · simp [leaves_leaf]
    · rcases hx with rfl | rfl <;> rcases hp with rfl | rfl <;> cases t <;> rfl
  · refine next_of_connect hm (bit pass.regStateName) (bit ("r" ++ "_pad")) hclock rfl ?_ rfl ?_
    · simp [leaves_leaf, leafCov]
    · rcases hx with rfl | rfl <;> rcases hp with rfl | rfl <;> cases t <;> rfl
  · refine next_of_connect hm pass.covSumRef (.mux (pass.covField "read" "data" (.uint 1))
      pass.covSumRef (.doPrim2 .add pass.covSumRef (.uintLit 1 1) [] (.uint pass.covSumSize))
      .unknown) hclock rfl ?_ rfl ?_
    · simp [leaves_leaf, leafCov, InstrCov.readConnect]
    · rcases hx with rfl | rfl <;> rcases hp with rfl | rfl <;> rcases t with _ | _ | t <;> rfl
  · refine next_of_connect hm (sticky leaf) (muxed (stuck leaf (bit (InstrAssert.stopEnName 0))))
      hclock rfl ?_ rfl ?_
    · simp [leaves_leaf, asserts]
    · have hset := (congrArg (GType.uint 1).clip (clip_or_bit (.inr rfl) (.inr rfl))).symm
      have hclear := (congrArg (GType.uint 1).clip (clip_or_bit (.inl rfl) (.inl rfl))).symm
      rcases hx with rfl | rfl
      · rcases hp with rfl | rfl <;> rcases t with _ | _ | t
        all_goals first | rfl | exact hset | exact hclear
      · rcases hp with rfl | rfl <;> rfl

theorem leaf_next_mem {x : Int} (hx : x = 0 ∨ x = 1) (t : Nat) {p : Path}
    (hp : p = ["low"] ∨ p = ["high"]) :
    (state x (t + 1)).mem p pass.covMap.name =
      pass.covMap.next ((state x t).mem p pass.covMap.name) (pass.covMap.inputs (val x t p)) := by
  have hins : pass.covMap.inputs (val x t p) =
      [("read", ⟨word x (start p) t, 1, 1, 0, 0, 0⟩),
       ("write", ⟨word x (start p) t, 1, 1, 1, 1, 1⟩)] := by
    rcases hp with rfl | rfl <;> rfl
  -- the state is one of the two cells
  have hword : word x (start p) t = 0 ∨ word x (start p) t = 1 := by
    rcases hx with rfl | rfl <;> rcases hp with rfl | rfl <;> rcases t with _ | _ | t
    all_goals first | exact .inl rfl | exact .inr rfl
  have hlt : word x (start p) t < pass.covMap.depth := by
    show _ < (2 : Int)
    omega
  have hcells : pass.covMap.store (pass.covMap.store (cell (start p) t)
      ⟨word x (start p) t, 1, 1, 0, 0, 0⟩) ⟨word x (start p) t, 1, 1, 1, 1, 1⟩ =
      cell (start p) (t + 1) := by
    rw [DefMemory.store_of_write _ rfl rfl rfl (by omega) hlt, DefMemory.store_of_read rfl]
    funext a
    rw [Function.update_apply]
    rcases hx with rfl | rfl <;> rcases hp with rfl | rfl <;> rcases t with _ | _ | t <;>
      rcases a with _ | _ | a <;> rfl
  unfold DefMemory.next
  rw [hins]
  exact congrArg₂ MemState.mk hcells.symm (congrArg (· :: past (fun s => val x s p) t) hins)

theorem next {x : Int} (hx : x = 0 ∨ x = 1) (t : Nat) :
    result.Next (state x t) (val x t) (state x (t + 1)) := by
  refine ⟨fun p m hp r hr => ?_, fun p m hp d hd => ?_⟩
  · rcases inst_result hp with ⟨rfl, rfl⟩ | ⟨hpath, rfl⟩
    · cases List.mem_singleton.mp (show r ∈ [InstrAssert.assertReg top] from hr)
      refine next_of_connect (List.mem_cons_of_mem _ (List.mem_singleton_self _)) (sticky top)
        (muxed (stuck top topOr)) rfl rfl ?_ rfl ?_
      · simp [leaves_top, asserts]
      · have hset := (congrArg (GType.uint 1).clip (clip_or_bit (.inr rfl) (.inr rfl))).symm
        rcases hx with rfl | rfl
        · rcases t with _ | _ | t
          all_goals first | rfl | exact hset
        · cases t <;> rfl
    · exact leaf_next_reg hx t hpath hr
  · rcases inst_result hp with ⟨rfl, rfl⟩ | ⟨hpath, rfl⟩
    · rw [leaves_top] at hd
      simp [inputs, topCov, assertWires, asserts, InstrCov.makeSum, InstrReset.resetCon] at hd
    · have hd : d = pass.covMap := by
        rw [leaves_leaf] at hd
        simpa [leafCov, stopEn, asserts, InstrCov.readConnect, InstrCov.writeConnect] using hd
      subst hd
      exact leaf_next_mem hx t hpath

theorem isRun {x : Int} (hx : x = 0 ∨ x = 1) : result.IsRun (state x) (val x) :=
  ⟨settled hx, next hx⟩

theorem covRun {x : Int} (hx : x = 0 ∨ x = 1) : CovRun config circuit result (state x) (val x) where
  run := isRun hx
  ticks t p m clk hp hclk := by
    rcases inst_circuit hp with ⟨rfl, rfl⟩ | ⟨rfl | rfl, rfl⟩ <;> cases hclk <;> rfl
  start p m c hp hc hmap := by
    rcases inst_circuit hp with ⟨rfl, rfl⟩ | ⟨hpath, rfl⟩
    · -- the top module has no map
      have hcov : covOf config circuit top = some topPass := by decide
      rw [hcov] at hc
      cases hc
      cases hmap
    · have hcov : covOf config circuit leaf = some pass := by decide
      rw [hcov] at hc
      cases hc
      rcases hpath with rfl | rfl
      all_goals
        refine ⟨rfl, fun a => rfl, Int.le_refl 0, ?_⟩
        show (0 : Int) < 2 ^ 1
        decide

end Demo

/-- Under a constant `metaReset`: the two leaves see one state and two states. -/
theorem covSum_counts_demo :
    ∃ L, Demo.circuit.IsSubtree [] L ∧
      (∀ t, Demo.val 1 t [] ["io_covSum"] =
        ((L.map fun x => distinctStates Demo.config Demo.circuit (Demo.val 1) t x.1 x.2).sum : Int) %
          2 ^ 30) ∧
      (∀ s t, s ≤ t →
        (L.map fun x => distinctStates Demo.config Demo.circuit (Demo.val 1) t x.1 x.2).sum < 2 ^ 30 →
        Demo.val 1 s [] ["io_covSum"] ≤ Demo.val 1 t [] ["io_covSum"]) ∧
      Demo.val 1 1 [] ["io_covSum"] = 2 ∧ Demo.val 1 2 [] ["io_covSum"] = 3 := by
  obtain ⟨L, hL, hval, hmono⟩ := covSum_counts Demo.lowForm Demo.fresh (by decide)
    (Demo.covRun (.inr rfl)) Demo.acyclic Demo.execute_eq Demo.inst_top
  exact ⟨L, hL, hval, hmono, rfl, rfl⟩

end Difuzz.Coverage
