/-
  File:      DifuzzRtl/Coverage/DirectInputs.lean
  Subject:   Which registers are taken for registers fed by the input ports.

  A register is left out of the coverage as a direct input when nothing but ports, and registers
  fed by ports, stands behind its edges. For a register behind whose edges nothing stands, that is
  no condition at all.

  * `Reaches`, `Resets` -- what stands behind the next value of a register, and behind its reset.
  * `mem_ctrlRegSrcs` -- the sources the ledger collects are these, the register left out.
  * `mem_findDirInRegs` -- the registers it returns.
  * `dirInRegs_receive_iff` -- when all of them receive an input.
-/
import DifuzzRtl.Coverage.Influence
import DifuzzRtl.Coverage.Selection

namespace Difuzz.Coverage

open Firrtl

/-! ## 1. What stands behind a register -/

/-- The name of a port. -/
def IsPort (m : Module) (x : String) : Prop := ∃ p ∈ m.ports, p.name = x

/-- `x` reaches the next value of the register, the expression connected to it, through nodes and
    wires. -/
def Reaches (names : Expr → List String) (m : Module) (x : String) (r : DefRegister) : Prop :=
  ∃ loc e n, .connect loc e ∈ m.leaves ∧ findName loc = some r.name ∧ n ∈ names e ∧
    Relation.ReflTransGen (FeedsBy names m) x n

/-- `x` reaches the reset of the register. -/
def Resets (m : Module) (x : String) (r : DefRegister) : Prop :=
  ∃ n ∈ findNames r.reset, Relation.ReflTransGen (ValueFeeds m) x n

/-- The register takes values from ports and itself only, the reset included. -/
def PortFed (m : Module) (r : DefRegister) : Prop :=
  ∀ x, IsSource m x → Reaches findNames m x r ∨ Resets m x r → x = r.name ∨ IsPort m x

/-- The register receives an input: a port reaches its next value, or that of one other register
    that reaches it and is fed by ports and itself only. -/
def ReceivesInput (names : Expr → List String) (m : Module) (r : DefRegister) : Prop :=
  ∃ p, IsPort m p ∧ (Reaches names m p r ∨
    ∃ r' ∈ m.regs, r' ≠ r ∧ PortFed m r' ∧ Reaches names m r'.name r ∧ Reaches names m p r')

/-- The register takes a value from something other than itself. -/
def TakesValue (m : Module) (r : DefRegister) : Prop :=
  ∃ x, IsSource m x ∧ x ≠ r.name ∧ Reaches findNames m x r

/-- A name the analysis accepts behind a register. -/
def Accepted (m : Module) (ctrlRegs : List DefRegister) (x : String) : Prop :=
  IsPort m x ∨ ∃ r ∈ ctrlRegs, PortFed m r ∧ r.name = x

/-- Nothing but accepted names and the register itself stands behind its reset. -/
def AcceptedReset (m : Module) (ctrlRegs : List DefRegister) (r : DefRegister) : Prop :=
  ∀ x, IsSource m x → Resets m x r → x = r.name ∨ Accepted m ctrlRegs x

theorem feeds_of_valueFeeds {m : Module} {x y : String} (h : ValueFeeds m x y) : Feeds m x y := by
  cases h with
  | node h hx => exact .node h (findNames_subset _ hx)
  | wire hw h hl hx => exact .wire hw h hl (findNames_subset _ hx)

/-- A value path is a path. -/
theorem Reaches.all {m : Module} {x : String} {r : DefRegister} (h : Reaches findNames m x r) :
    Reaches allNames m x r := by
  obtain ⟨loc, e, n, hc, hl, hn, hp⟩ := h
  exact ⟨loc, e, n, hc, hl, findNames_subset n hn,
    Relation.ReflTransGen.mono (fun _ _ => feeds_of_valueFeeds) x n hp⟩

theorem IsPort.isSource {m : Module} {x : String} (h : IsPort m x) : IsSource m x := .inl h

theorem reg_isSource {m : Module} {r : DefRegister} (h : r ∈ m.regs) : IsSource m r.name :=
  .inr (.inl ⟨r, Module.mem_regs.mp h, rfl⟩)

section Ledger

variable {m : Module} (hm : Analysable m) (σ : SetOrder)

include hm

/-- Registers have distinct names. -/
theorem regs_name_inj {r r' : DefRegister} (hr : r ∈ m.regs) (hr' : r' ∈ m.regs)
    (h : r.name = r'.name) : r = r' := by
  have hn : Node.defRegister r = .defRegister r' :=
    node_unique hm.referenced (mem_nodesOf_reg.mpr hr) (mem_nodesOf_reg.mpr hr') h
  cases hn
  rfl

/-- A register is no port. -/
theorem reg_not_port {r : DefRegister} (hr : r ∈ m.regs) : ¬ IsPort m r.name := by
  intro h
  obtain ⟨p, hp, e⟩ := h
  have hpn : Node.port p ∈ nodesOf m := List.mem_append_left _ (List.mem_map_of_mem hp)
  have hn : Node.port p = .defRegister r :=
    node_unique hm.referenced hpn (mem_nodesOf_reg.mpr hr) e
  cases hn

/-- An edge into a register comes from its reset or from what is connected to it. -/
theorem edge_reg {r : DefRegister} (hr : r ∈ m.regs) {n : String} :
    Edge m n r.name ↔ n ∈ findNames r.reset ∨
      ∃ loc e, .connect loc e ∈ m.leaves ∧ findName loc = some r.name ∧ n ∈ findNames e := by
  have hreg : ∀ {s v}, s ∈ m.leaves → Node.ofStmt s = some v → v.name = r.name →
      v = .defRegister r := fun hs hv hn =>
    node_unique hm.referenced (mem_nodesOf_stmt hs hv) (mem_nodesOf_reg.mpr hr) hn
  constructor
  · intro h
    obtain ⟨s, hs, he⟩ := h
    cases s <;> simp only [findEdge, List.not_mem_nil] at he
    · -- a register: it is the one of that name
      split at he
      · rename_i r' hu
        have e := hreg hs rfl (List.mem_singleton.mp he).symm
        cases e
        exact .inl (isUsed_iff.mp hu)
      · cases he
    · -- a node has another name
      split at he
      · rename_i n' e' hu
        have e := hreg hs rfl (List.mem_singleton.mp he).symm
        cases e
      · cases he
    · split at he
      · rename_i loc e hu
        exact .inr ⟨loc, e, hs, by simpa using he, isUsed_iff.mp hu⟩
      · cases he
  · intro h
    rcases h with hn | ⟨loc, e, hc, hl, hn⟩
    · exact ⟨_, Module.mem_regs.mp hr, by simp [findEdge, isUsed_iff.mpr hn]⟩
    · exact ⟨_, hc, by simp [findEdge, isUsed_iff.mpr hn, hl]⟩

/-- **The sources behind a register**: the search answers with what reaches its next value or its
    reset, the register left out. -/
theorem mem_ctrlRegSrcs {r : DefRegister} (hr : r ∈ m.regs) :
    ∃ l, (GraphLedger.parseModule (.module m)).ctrlRegSrcs σ r = some l ∧
      ∀ x, x ∈ l ↔ x ≠ r.name ∧ IsSource m x ∧ (Reaches findNames m x r ∨ Resets m x r) := by
  have hsrc : ∀ {n}, n ∈ (GraphLedger.parseModule (.module m)).sources r.name ↔
      Edge m n r.name := by
    intro n
    unfold GraphLedger.sources
    rw [List.mem_filter, mem_keys hm.referenced, decide_eq_true_iff]
    constructor
    · exact fun h => List.mem_flatMap.mp h.2
    · exact fun h => ⟨edge_declared hm.referenced h, List.mem_flatMap.mpr h⟩
  obtain ⟨ls, hls⟩ := exists_mapM_iff.mpr fun n hn => by
    obtain ⟨l, hl, _⟩ := mem_findSrcs hm.referenced σ (edge_declared hm.referenced (hsrc.mp hn))
    exact ⟨l, hl⟩
  have hall := forall₂_of_mapM hls
  -- what one search behind an edge found
  have hfound : ∀ {n l}, n ∈ (GraphLedger.parseModule (.module m)).sources r.name →
      (GraphLedger.parseModule (.module m)).findSrcs σ n = some l →
      ∀ x, x ∈ l ↔ Relation.ReflTransGen (ValueFeeds m) x n ∧ IsSource m x := by
    intro n l hn hl x
    obtain ⟨l', hl', hx⟩ :=
      mem_findSrcs hm.referenced σ (edge_declared hm.referenced (hsrc.mp hn))
    rw [hl] at hl'
    cases hl'
    rw [hx, through_eq hm, mem_source hm.referenced]
  refine ⟨_, by unfold GraphLedger.ctrlRegSrcs; rw [hls]; rfl, fun x => ?_⟩
  rw [List.mem_filter, decide_eq_true_iff, and_comm]
  refine and_congr_right fun _ => ?_
  constructor
  · intro hx
    obtain ⟨l, hl, hx⟩ := List.mem_flatten.mp hx
    obtain ⟨n, hn, e⟩ := Forall₂.mem_right hall hl
    obtain ⟨hp, hs⟩ := (hfound hn e x).mp hx
    refine ⟨hs, ?_⟩
    rcases (edge_reg hm hr).mp (hsrc.mp hn) with hn | ⟨loc, e, hc, hl, hn⟩
    · exact .inr ⟨n, hn, hp⟩
    · exact .inl ⟨loc, e, n, hc, hl, hn, hp⟩
  · intro h'
    obtain ⟨hs, hx⟩ := h'
    obtain ⟨n, hn, hp⟩ : ∃ n, Edge m n r.name ∧ Relation.ReflTransGen (ValueFeeds m) x n := by
      rcases hx with ⟨loc, e, n, hc, hl, hn, hp⟩ | ⟨n, hn, hp⟩
      · exact ⟨n, (edge_reg hm hr).mpr (.inr ⟨loc, e, hc, hl, hn⟩), hp⟩
      · exact ⟨n, (edge_reg hm hr).mpr (.inl hn), hp⟩
    obtain ⟨l, hl, e⟩ := Forall₂.mem_left hall (hsrc.mpr hn)
    exact List.mem_flatten.mpr ⟨l, hl, (hfound (hsrc.mpr hn) e x).mpr ⟨hp, hs⟩⟩

/-! ## 2. The registers returned -/

/-- **The registers returned** are the control registers behind which nothing but accepted names
    and the register itself stands. -/
theorem mem_findDirInRegs {ctrlRegs : List DefRegister} (hc : ∀ r ∈ ctrlRegs, r ∈ m.regs) :
    ∃ dirs, (GraphLedger.parseModule (.module m)).findDirInRegs σ ctrlRegs = some dirs ∧
      ∀ r, r ∈ dirs ↔ r ∈ ctrlRegs ∧ ∀ x, IsSource m x →
        Reaches findNames m x r ∨ Resets m x r → x = r.name ∨ Accepted m ctrlRegs x := by
  obtain ⟨pairs, hpairs⟩ : ∃ pairs, (ctrlRegs.mapM fun r =>
      ((GraphLedger.parseModule (.module m)).ctrlRegSrcs σ r).map fun srcs => (r, srcs)) =
        some pairs := by
    refine exists_mapM_iff.mpr fun r hr => ?_
    obtain ⟨l, hl, _⟩ := mem_ctrlRegSrcs hm σ (hc r hr)
    exact ⟨(r, l), by rw [hl]; rfl⟩
  have hall := forall₂_of_mapM hpairs
  -- a register stands in the pairs with what is behind it
  have hpair : ∀ {x}, x ∈ pairs → x.1 ∈ ctrlRegs ∧ ∀ y, y ∈ x.2 ↔
      y ≠ x.1.name ∧ IsSource m y ∧ (Reaches findNames m y x.1 ∨ Resets m y x.1) := by
    intro x hx
    obtain ⟨r, hr, e⟩ := Forall₂.mem_right hall hx
    obtain ⟨l, hl, hmem⟩ := mem_ctrlRegSrcs hm σ (hc r hr)
    rw [hl] at e
    cases e
    exact ⟨hr, hmem⟩
  have hreg : ∀ {r}, r ∈ ctrlRegs → ∃ l, (r, l) ∈ pairs := by
    intro r hr
    obtain ⟨x, hx, e⟩ := Forall₂.mem_left hall hr
    obtain ⟨l, _, rfl⟩ := Option.map_eq_some_iff.mp e
    exact ⟨l, hx⟩
  have hports : ∀ {y}, y ∈ (GraphLedger.parseModule (.module m)).portNames ↔ IsPort m y :=
    List.mem_map
  -- a condition on the sources of a pair is one on what is behind its register
  have hcond : ∀ {x}, x ∈ pairs → ∀ {P : String → Prop}, (∀ y ∈ x.2, P y) ↔
      ∀ y, IsSource m y → Reaches findNames m y x.1 ∨ Resets m y x.1 → y = x.1.name ∨ P y := by
    intro x hx P
    constructor
    · intro h y hs hy
      by_cases hn : y = x.1.name
      · exact .inl hn
      · exact .inr (h y (((hpair hx).2 y).mpr ⟨hn, hs, hy⟩))
    · intro h y hy
      obtain ⟨hn, hs, hy⟩ := ((hpair hx).2 y).mp hy
      exact (h y hs hy).resolve_left hn
  have hfirst : ∀ {y}, y ∈ ((pairs.filter fun x => x.2.all fun s =>
        s ∈ (GraphLedger.parseModule (.module m)).portNames).map (·.1)).map (·.name) ↔
      ∃ r ∈ ctrlRegs, PortFed m r ∧ r.name = y := by
    intro y
    simp only [List.mem_map, List.mem_filter, List.all_eq_true, decide_eq_true_iff, hports]
    constructor
    · intro hex
      obtain ⟨r, ⟨x, ⟨hx, hp⟩, rfl⟩, rfl⟩ := hex
      exact ⟨x.1, (hpair hx).1, (hcond hx).mp hp, rfl⟩
    · intro hex
      obtain ⟨r, hr, hp, rfl⟩ := hex
      obtain ⟨l, hl⟩ := hreg hr
      exact ⟨r, ⟨(r, l), ⟨hl, (hcond hl).mpr hp⟩, rfl⟩, rfl⟩
  refine ⟨_, by unfold GraphLedger.findDirInRegs; rw [hpairs]; rfl, fun r => ?_⟩
  rw [List.mem_map]
  simp only [List.mem_filter, List.all_eq_true, Bool.or_eq_true, decide_eq_true_iff, hports,
    hfirst]
  constructor
  · intro hex
    obtain ⟨x, ⟨hx, hp⟩, rfl⟩ := hex
    exact ⟨(hpair hx).1, (hcond hx).mp hp⟩
  · intro h'
    obtain ⟨hr, hp⟩ := h'
    obtain ⟨l, hl⟩ := hreg hr
    exact ⟨(r, l), ⟨hl, (hcond hl).mpr hp⟩, rfl⟩

/-- The analysis of the selects answers, with registers of the module. -/
theorem findMuxSrcs_regs :
    ∃ cs, (GraphLedger.parseModule (.module m)).findMuxSrcs σ = some cs ∧
      ∀ r ∈ cs.defRegister, r ∈ m.regs := by
  obtain ⟨d, hd, _⟩ := muxSrcs_spec hm.referenced σ
  refine ⟨_, by unfold GraphLedger.findMuxSrcs; rw [hd]; rfl, fun r hr => ?_⟩
  obtain ⟨v, hv, e⟩ := List.mem_filterMap.mp hr
  cases v <;> simp at e
  subst e
  obtain ⟨x, _, hx⟩ := List.mem_filterMap.mp hv
  exact mem_nodesOf_reg.mp (parseModule_get?_inv hm.nodup hx).1

end Ledger

section Accepted

variable {m : Module} {ctrlRegs : List DefRegister} {r : DefRegister}

/-- A register with an accepted name behind its next value receives an input if a port reaches
    the next value of every accepted register. -/
theorem receivesInput_of_accepted (hc : ∀ r ∈ ctrlRegs, r ∈ m.regs) {names : Expr → List String}
    (hsub : ∀ {x r}, Reaches findNames m x r → Reaches names m x r) {x : String}
    (hn : x ≠ r.name) (hx : Reaches findNames m x r) (ha : Accepted m ctrlRegs x)
    (hfed : ∀ r' ∈ ctrlRegs, PortFed m r' → ∃ p, IsPort m p ∧ Reaches names m p r') :
    ReceivesInput names m r := by
  rcases ha with hp | ⟨r', hr', hfr, rfl⟩
  · exact ⟨x, hp, .inl (hsub hx)⟩
  · obtain ⟨p, hp, hpr⟩ := hfed r' hr' hfr
    exact ⟨p, hp, .inr ⟨r', hc r' hr', fun e => hn (e ▸ rfl), hfr, hsub hx, hpr⟩⟩

/-- What a register fed by ports only takes values from is a port. -/
theorem portFed_takes (hfed : PortFed m r) (h : TakesValue m r) :
    ∃ p, IsPort m p ∧ Reaches findNames m p r := by
  obtain ⟨x, hs, hn, hx⟩ := h
  exact ⟨x, (hfed x hs (.inl hx)).resolve_left hn, hx⟩

/-- The reset of a register fed by ports only is accepted. -/
theorem PortFed.acceptedReset (h : PortFed m r) : AcceptedReset m ctrlRegs r :=
  fun x hs hx => (h x hs (.inr hx)).imp_right .inl

end Accepted

/-- **Direct inputs that receive an input.** For every LowForm module, whatever the iteration
    orders, the analysis answers. Every register it returns receives an input iff every control
    register with an accepted reset takes a value from something other than itself. If selects
    count as ways for an input, then it is enough that a port reaches the next value of every
    control register with an accepted reset that takes no value from elsewhere. -/
theorem dirInRegs_receive_iff {m : Module} (hm : Analysable m) (σ : SetOrder) :
    ∃ cs dirs, (GraphLedger.parseModule (.module m)).findMuxSrcs σ = some cs ∧
      (GraphLedger.parseModule (.module m)).findDirInRegs σ cs.defRegister = some dirs ∧
      ((∀ r ∈ dirs, ReceivesInput findNames m r) ↔
        ∀ r ∈ cs.defRegister, AcceptedReset m cs.defRegister r → TakesValue m r) ∧
      ((∀ r ∈ cs.defRegister, AcceptedReset m cs.defRegister r → ¬ TakesValue m r →
          ∃ p, IsPort m p ∧ Reaches allNames m p r) →
        ∀ r ∈ dirs, ReceivesInput allNames m r) := by
  obtain ⟨cs, hcs, hregs⟩ := findMuxSrcs_regs hm σ
  obtain ⟨dirs, hdirs, hmem⟩ := mem_findDirInRegs hm σ hregs
  refine ⟨cs, dirs, hcs, hdirs, ⟨fun h r hr hrst => ?_, fun h r hr => ?_⟩, fun h r hr => ?_⟩
  · -- without a value from elsewhere the register is returned, and nothing reaches it
    by_contra hno
    have hnone : ∀ x, IsSource m x → Reaches findNames m x r → x = r.name := by
      intro x hs hx
      by_contra hn
      exact hno ⟨x, hs, hn, hx⟩
    obtain ⟨p, hp, hrec⟩ := h r ((hmem r).mpr ⟨hr, fun x hs hx =>
      hx.elim (fun hx => .inl (hnone x hs hx)) fun hx => hrst x hs hx⟩)
    rcases hrec with hx | ⟨r', hr', hne, _, hx, _⟩
    · exact reg_not_port hm (hregs r hr) (hnone p hp.isSource hx ▸ hp)
    · exact hne (regs_name_inj hm hr' (hregs r hr) (hnone _ (reg_isSource hr') hx))
  · obtain ⟨hr, hall⟩ := (hmem r).mp hr
    obtain ⟨x, hs, hn, hx⟩ := h r hr fun y hs hy => hall y hs (.inr hy)
    refine receivesInput_of_accepted hregs id hn hx ((hall x hs (.inl hx)).resolve_left hn) ?_
    exact fun r' hr' hfed => portFed_takes hfed (h r' hr' (hfed.acceptedReset))
  · obtain ⟨hr, hall⟩ := (hmem r).mp hr
    by_cases ht : TakesValue m r
    · obtain ⟨x, hs, hn, hx⟩ := ht
      refine receivesInput_of_accepted hregs Reaches.all hn hx
        ((hall x hs (.inl hx)).resolve_left hn) fun r' hr' hfed => ?_
      by_cases ht' : TakesValue m r'
      · obtain ⟨p, hp, hx⟩ := portFed_takes hfed ht'
        exact ⟨p, hp, hx.all⟩
      · exact h r' hr' (hfed.acceptedReset) ht'
    · obtain ⟨p, hp, hx⟩ := h r hr (fun y hs hy => hall y hs (.inr hy)) ht
      exact ⟨p, hp, .inl hx⟩

/-- A register loaded from a port, and one loaded from that register; both feed a select. -/
def loadDemo : Module where
  name := "LoadDemo"
  ports := [⟨"clock", .input, .clock⟩, ⟨"in", .input, .uint 4⟩, ⟨"out", .output, .uint 1⟩]
  body :=
    [.defRegister (reg "a"), .defRegister (reg "b"),
     .connect (word "a") (word "in"), .connect (word "b") (word "a"),
     .connect (.ref "out" (.uint 1)) (.mux sel (.uintLit 1 1) (.uintLit 0 1) (.uint 1))]
where
  word (n : String) : Expr := .ref n (.uint 4)
  sel : Expr := .doPrim2 .eq (word "a") (word "b") [] (.uint 1)
  reg (n : String) : DefRegister :=
    ⟨.noInfo, n, .uint 4, .ref "clock" .clock, .uintLit 0 1, word n⟩

/-- A counter of four bits without a reset: it reads itself and a constant, and feeds a select. -/
def countDemo : Module where
  name := "CountDemo"
  ports := [⟨"clock", .input, .clock⟩, ⟨"out", .output, .uint 1⟩]
  body :=
    [.defRegister count, .connect word next,
     .connect (.ref "out" (.uint 1)) (.mux sel (.uintLit 1 1) (.uintLit 0 1) (.uint 1))]
where
  word : Expr := .ref "count" (.uint 4)
  next : Expr :=
    .doPrim1 .tail (.doPrim2 .add word (.uintLit 1 4) [] (.uint 5)) [1] (.uint 4)
  sel : Expr := .doPrim1 .andr word [] (.uint 1)
  count : DefRegister :=
    ⟨.noInfo, "count", .uint 4, .ref "clock" .clock, .uintLit 0 1, word⟩

theorem loadDemo_analysable : Analysable loadDemo where
  nodup := by decide
  resolved := by decide
  commaFree := by decide
  nodes := by
    intro loc e h n e' h'
    simp [Module.leaves, Stmt.leavesList, Stmt.leaves, loadDemo] at h'

/-- Both registers are returned, and receive the port. -/
theorem dirInRegs_loadDemo :
    ∃ dirs, (GraphLedger.parseModule (.module loadDemo)).findDirInRegs .insertion
        [loadDemo.reg "a", loadDemo.reg "b"] = some dirs ∧
      loadDemo.reg "a" ∈ dirs ∧ loadDemo.reg "b" ∈ dirs ∧
      ∀ r ∈ dirs, ReceivesInput findNames loadDemo r := by
  obtain ⟨cs, dirs, hcs, hd, hiff, -⟩ := dirInRegs_receive_iff loadDemo_analysable .insertion
  have hc : (GraphLedger.parseModule (.module loadDemo)).findMuxSrcs .insertion =
      some ⟨[loadDemo.reg "a", loadDemo.reg "b"], [], [], []⟩ := by rfl
  rw [hc] at hcs
  cases hcs
  have hdirs : (GraphLedger.parseModule (.module loadDemo)).findDirInRegs .insertion
      [loadDemo.reg "a", loadDemo.reg "b"] =
        some [loadDemo.reg "a", loadDemo.reg "b"] := by rfl
  have hda : dirs = [loadDemo.reg "a", loadDemo.reg "b"] :=
    Option.some.inj (hd.symm.trans hdirs)
  refine ⟨dirs, hd, by simp [hda], by simp [hda], hiff.mpr fun r hr _ => ?_⟩
  rcases List.mem_pair.mp hr with rfl | rfl
  · refine ⟨"in", .inl ⟨⟨"in", .input, .uint 4⟩, by decide, rfl⟩, by decide, loadDemo.word "a",
      loadDemo.word "in", "in", ?_, rfl, by decide, .refl⟩
    simp [Module.leaves, Stmt.leavesList, Stmt.leaves, loadDemo]
  · refine ⟨"a", reg_isSource (r := loadDemo.reg "a") (by decide), by decide, loadDemo.word "b",
      loadDemo.word "a", "a", ?_, rfl, by decide, .refl⟩
    simp [Module.leaves, Stmt.leavesList, Stmt.leaves, loadDemo]

/-- **A counter is taken for a direct input**: the register that reads only itself and a constant
    is a control register, it is returned, and with its four bits it is taken out of the coverage;
    no port reaches its next value, whatever operands are followed. -/
theorem dirInRegs_countDemo :
    (∃ info, ModuleInfo.ofModule .insertion (.module countDemo) = some info ∧
      countDemo.count ∈ info.ctrlRegs ∧ countDemo.count ∈ info.dirInRegs ∧
      countDemo.count ∈ Selection.dirInRegs info) ∧
    ¬ ReceivesInput findNames countDemo countDemo.count ∧
    ¬ ReceivesInput allNames countDemo countDemo.count := by
  have hno : ∀ {names : Expr → List String}, names countDemo.next = ["count"] →
      ∀ {x}, Reaches names countDemo x countDemo.count → x = "count" := by
    intro names hn x hx
    obtain ⟨loc, e, n, hc, hl, hmem, hp⟩ := hx
    have he : e = countDemo.next := by
      simp [Module.leaves, Stmt.leavesList, Stmt.leaves, countDemo] at hc
      rcases hc with ⟨_, he⟩ | ⟨rfl, _⟩
      · exact he
      · exact absurd hl (by decide)
    rw [he, hn, List.mem_singleton] at hmem
    subst hmem
    -- no step leads into the register
    rcases Relation.ReflTransGen.cases_tail hp with e | ⟨y, _, hs⟩
    · exact e.symm
    · cases hs with
      | node h _ => simp [Module.leaves, Stmt.leavesList, Stmt.leaves, countDemo] at h
      | wire h _ _ _ => simp [Module.leaves, Stmt.leavesList, Stmt.leaves, countDemo] at h
  have hrec : ∀ {names : Expr → List String}, names countDemo.next = ["count"] →
      ¬ ReceivesInput names countDemo countDemo.count := by
    intro names hn hx
    obtain ⟨p, ⟨q, hq, rfl⟩, hp | ⟨r', hr', hne, _, hp, _⟩⟩ := hx
    · have hports : ∀ q ∈ countDemo.ports, q.name ≠ "count" := by decide
      exact hports q hq (hno hn hp)
    · have hregs : ∀ r' ∈ countDemo.regs, r' = countDemo.count := by decide
      exact hne (hregs r' hr')
  exact ⟨⟨_, rfl, by decide, by decide, by decide⟩, hrec rfl, hrec rfl⟩

end Difuzz.Coverage
