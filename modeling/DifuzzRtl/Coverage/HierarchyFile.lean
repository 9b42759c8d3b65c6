/-
  File:      DifuzzRtl/Coverage/HierarchyFile.lean
  Subject:   What the transform records of every module (`moduleInfo.saveCovResult`), and the
             hierarchy file that `regCoverage.execute` writes from it
             (coverage/registerCov.scala).

  The file lists the size of the coverage map and the instances of every module; a script adds
  code that saves and restores every map it lists. The size is that of the planned map, whether
  or not the module gets one.

  * `saveCovResult`, `records` -- the figures of one module, and what is kept of all of them.
  * `hierarchy`, `mem_hierarchy` -- the entries of the file: one for each module.
  * `Parts.mem_memories` -- the memories of an instrumented module.
  * `hierarchy_describes_iff` -- when the file describes the emitted circuit.
-/
import DifuzzRtl.Coverage.Names
import DifuzzRtl.Firrtl.Elaboration

namespace Difuzz.Coverage

open Firrtl

/-! ## 1. The figures of a module -/

/-- The name of an operation, as FIRRTL writes it. -/
def PrimOp.serialize : PrimOp → String
  | .add => "add" | .sub => "sub" | .mul => "mul" | .div => "div" | .rem => "rem"
  | .lt => "lt" | .leq => "leq" | .gt => "gt" | .geq => "geq" | .eq => "eq" | .neq => "neq"
  | .pad => "pad" | .asUInt => "asUInt" | .asSInt => "asSInt" | .asClock => "asClock"
  | .asAsyncReset => "asAsyncReset"
  | .shl => "shl" | .shr => "shr" | .dshl => "dshl" | .dshr => "dshr"
  | .cvt => "cvt" | .neg => "neg" | .not => "not"
  | .and => "and" | .or => "or" | .xor => "xor" | .andr => "andr" | .orr => "orr"
  | .xorr => "xorr"
  | .cat => "cat" | .bits => "bits" | .head => "head" | .tail => "tail"

/-- `BigInt.toString(16)`. -/
def hexText (x : Int) : String :=
  (if x < 0 then "-" else "") ++ String.ofList (Nat.toDigits 16 x.natAbs)

/-- `Expression.serialize`. -/
def Expr.serializeAll : Expr → String
  | .ref n _ => n
  | .subField e f _ => Expr.serializeAll e ++ "." ++ f
  | .uintLit x w => "UInt<" ++ toString w ++ ">(\"h" ++ hexText x ++ "\")"
  | .sintLit x w => "SInt<" ++ toString w ++ ">(\"h" ++ hexText x ++ "\")"
  | .mux c t f _ => "mux(" ++ Expr.serializeAll c ++ ", " ++ Expr.serializeAll t ++ ", " ++
      Expr.serializeAll f ++ ")"
  | .validIf c e _ => "validif(" ++ Expr.serializeAll c ++ ", " ++ Expr.serializeAll e ++ ")"
  | .doPrim1 op a cs _ => PrimOp.serialize op ++ "(" ++
      ", ".intercalate (Expr.serializeAll a :: cs.map toString) ++ ")"
  | .doPrim2 op a b cs _ => PrimOp.serialize op ++ "(" ++
      ", ".intercalate (Expr.serializeAll a :: Expr.serializeAll b :: cs.map toString) ++ ")"

/-- A Scala `Int`: 32 bits, two's complement. -/
def scalaInt (x : Int) : Int := x.bmod (2 ^ 32)

/-- The figures of a module. -/
structure CovResult where
  covSize : Nat
  regNum : Nat
  ctrlRegNum : Nat
  muxNum : Nat
  muxCtrlNum : Nat
  regBitWidth : Int
  ctrlRegBitWidth : Int
  ctrlBitWidth : Int
  deriving DecidableEq

/-- The bits of registers; one of other than integer type throws. -/
def bitWidth (regs : List DefRegister) : Option Int :=
  (regs.mapM regWidth?).map fun ws => scalaInt ws.sum

/-- `saveCovResult`. -/
def saveCovResult (mInfo : ModuleInfo) (instrCov : InstrCov) : Option CovResult := do
  let regBitWidth ← bitWidth mInfo.regs
  let ctrlRegBitWidth ← bitWidth mInfo.ctrlRegs
  return { covSize := instrCov.covMapSize
           regNum := mInfo.regs.length
           ctrlRegNum := mInfo.ctrlRegs.length
           muxNum := mInfo.muxSrcs.entries.length
           muxCtrlNum := (mInfo.muxSrcs.keys.map fun μ => Expr.serializeAll μ.cond).dedup.length
           regBitWidth
           ctrlRegBitWidth
           ctrlBitWidth := scalaInt instrCov.totBitWidth }

/-- What is kept of a module after the coverage pass: its instances, its figures, and the number
    of registers that the pass tracks themselves. -/
structure ModuleRecord where
  mName : String
  insts : List WDefInstance
  res : CovResult
  numOptRegs : Nat
  deriving DecidableEq

/-- `numOptRegs`. -/
def Selection.numOptRegs (mInfo : ModuleInfo) (maxStateSize : Nat) (σ : SetOrder) : Nat :=
  (Selection.optRegs mInfo maxStateSize σ ++ Selection.firstVecSet mInfo maxStateSize σ).length

section Records

variable (cfg : Config)

def moduleRecord (mInfo : ModuleInfo) (extModules : List String) (d : DefModule) :
    Option ModuleRecord := do
  let instrCov ← InstrCov.new cfg.order mInfo cfg.maxStateSize (cfg.rnd d.name) d.name extModules
    cfg.covSumSize
  let res ← saveCovResult mInfo instrCov
  return ⟨d.name, mInfo.insts, res, Selection.numOptRegs mInfo cfg.maxStateSize cfg.order⟩

/-- The records of the modules, in the order of the circuit. -/
def records (C : Circuit) : Option (List ModuleRecord) := do
  let infos ← C.modules.mapM (ModuleInfo.ofModule cfg.order)
  (infos.zip C.modules).mapM fun x => moduleRecord cfg x.1 (extModules C) x.2

/-- `moduleInfos`: the records by name. -/
def moduleInfos (rs : List ModuleRecord) : Dict String ModuleRecord :=
  Dict.ofList (rs.map fun r => (r.mName, r))

/-- The record is the one of the module. -/
def RecordOf (C : Circuit) (d : DefModule) (r : ModuleRecord) : Prop :=
  ∃ info, ModuleInfo.ofModule cfg.order d = some info ∧
    moduleRecord cfg info (extModules C) d = some r

variable {cfg}

/-- The fields of a record. -/
theorem RecordOf.cases {C : Circuit} {d : DefModule} {r : ModuleRecord} (h : RecordOf cfg C d r) :
    ∃ info c, ModuleInfo.ofModule cfg.order d = some info ∧
      InstrCov.new cfg.order info cfg.maxStateSize (cfg.rnd d.name) d.name (extModules C)
        cfg.covSumSize = some c ∧
      r.mName = d.name ∧ r.insts = info.insts ∧ r.res.covSize = c.covMapSize := by
  obtain ⟨info, hinfo, h⟩ := h
  simp only [moduleRecord, saveCovResult, Option.bind_eq_bind, Option.bind_eq_some_iff,
    Option.pure_def, Option.some.injEq] at h
  obtain ⟨c, hc, _, ⟨_, _, _, _, rfl⟩, rfl⟩ := h
  exact ⟨info, c, hinfo, hc, rfl, rfl, rfl⟩

theorem RecordOf.name {C : Circuit} {d : DefModule} {r : ModuleRecord} (h : RecordOf cfg C d r) :
    r.mName = d.name := by
  obtain ⟨_, _, _, _, hn, _⟩ := h.cases
  exact hn

/-- **One record for each module**, position by position. -/
theorem records_forall₂ {C : Circuit} {rs : List ModuleRecord} (h : records cfg C = some rs) :
    List.Forall₂ (RecordOf cfg C) C.modules rs := by
  simp only [records, Option.bind_eq_bind, Option.bind_eq_some_iff] at h
  obtain ⟨infos, hi, hr⟩ := h
  replace hi := forall₂_of_mapM hi
  replace hr := forall₂_of_mapM hr
  generalize C.modules = ds at hi hr ⊢
  induction hi generalizing rs with
  | nil =>
      cases hr
      exact .nil
  | @cons d info ds infos hd _ ih =>
      rw [List.zip_cons_cons] at hr
      obtain ⟨r, rs', h₁, h₂, rfl⟩ := List.forall₂_cons_left_iff.mp hr
      exact .cons ⟨info, hd, h₁⟩ (ih h₂)

theorem records_names {C : Circuit} {rs : List ModuleRecord} (h : records cfg C = some rs) :
    rs.map (·.mName) = C.modules.map (·.name) := by
  have hall := records_forall₂ h
  clear h
  generalize C.modules = ds at hall
  induction hall with
  | nil => rfl
  | cons h _ ih => rw [List.map_cons, List.map_cons, h.name, ih]

/-- Names are distinct, so the map has every record. -/
theorem moduleInfos_entries {C : Circuit} (hL : LowForm C) {rs : List ModuleRecord}
    (h : records cfg C = some rs) : (moduleInfos rs).entries = rs.map fun r => (r.mName, r) := by
  refine Dict.ofList_entries ?_
  rw [List.map_map]
  exact (records_names h).symm ▸ hL.names

/-- The record under a name is the one of the module of that name. -/
theorem recordOf_name {C : Circuit} (hL : LowForm C) {rs : List ModuleRecord}
    (h : records cfg C = some rs) {d : DefModule} (hd : d ∈ C.modules) {r : ModuleRecord}
    (hr : r ∈ rs) (hn : r.mName = d.name) : RecordOf cfg C d r := by
  obtain ⟨d', hd', h⟩ := Forall₂.mem_right (records_forall₂ h) hr
  have hdd : d = d' := List.inj_on_of_nodup_map hL.names hd hd' (hn.symm.trans h.name)
  rw [hdd]
  exact h

end Records

/-! ## 2. The file -/

/-- An entry of the file: the module, the size of its map, and for every instance the module it
    is one of and its name. The first line also has the number of instances. -/
structure HierEntry where
  mName : String
  covSize : Nat
  insts : List (String × String)
  deriving DecidableEq

/-- The entry of a record. -/
def HierEntry.ofRecord (r : ModuleRecord) : HierEntry :=
  ⟨r.mName, r.res.covSize, r.insts.map fun i => (i.module, i.name)⟩

/-- The hierarchy file: the records, in the order of the map. -/
def hierarchy (cfg : Config) (C : Circuit) : Option (List HierEntry) :=
  (records cfg C).map fun rs => (cfg.order.toSeq (moduleInfos rs).values).map HierEntry.ofRecord

/-- The entries are those of the records. -/
theorem mem_hierarchy {cfg : Config} {C : Circuit} (hL : LowForm C) {rs : List ModuleRecord}
    (h : records cfg C = some rs) {H : List HierEntry} (hH : hierarchy cfg C = some H)
    {e : HierEntry} : e ∈ H ↔ ∃ r ∈ rs, HierEntry.ofRecord r = e := by
  unfold hierarchy at hH
  rw [h] at hH
  cases hH
  have hvalues : (moduleInfos rs).values = rs := by
    unfold Dict.values
    rw [moduleInfos_entries hL h, List.map_map]
    exact List.map_id rs
  rw [List.mem_map, hvalues]
  simp only [SetOrder.mem_toSeq]

/-! ## 3. The memories of an instrumented module -/

/-- The memories of a module. -/
def DefModule.mems : DefModule → List DefMemory
  | .ext _ => []
  | .module m => m.leaves.filterMap fun | .defMemory d => some d | _ => none

theorem mem_mems {m : Module} {d : DefMemory} :
    d ∈ DefModule.mems (.module m) ↔ .defMemory d ∈ m.leaves := by
  unfold DefModule.mems
  rw [List.mem_filterMap]
  constructor
  · intro hx
    obtain ⟨s, hs, e⟩ := hx
    cases s <;> simp at e
    subst e
    exact hs
  · exact fun h => ⟨_, h, rfl⟩

/-- The assertion pass adds no memory. -/
theorem InstrAssert.addedStmts_no_memory {σ : SetOrder} {insts : List WDefInstance} {m : Module}
    {d : DefMemory} : .defMemory d ∉ InstrAssert.addedStmts σ insts m := by
  intro hs
  simp only [InstrAssert.addedStmts, List.mem_append, SetOrder.mem_toSeq, List.mem_map] at hs
  rcases hs with (((⟨x, _, e⟩ | ⟨i, _, e⟩) | ⟨i, _, e⟩) | hs) | hs
  · cases e
  · cases e
  · cases e
  · unfold InstrAssert.makeOr at hs
    split at hs
    · rename_i r ss he
      cases reduceTree_wiring he _ hs
    · cases hs
  · unfold InstrAssert.conStmts at hs
    simp only at hs
    split at hs
    · split at hs <;> simp at hs
    · simp at hs

/-- The instance that a statement declares. -/
def asInstance : Stmt → Option WDefInstance
  | .defInstance i => some i
  | _ => none

/-- The coverage pass adds the map when the module has a clock and tracked state, and no other
    memory. -/
theorem InstrCov.memory_mem_addedStmts {c : InstrCov} {m : Module} {ss : List Stmt}
    (h : c.addedStmts m = some ss) {d : DefMemory} :
    .defMemory d ∈ ss ↔ (InstrCov.clockName m).isSome ∧ c.regStateSize ≠ 0 ∧ d = c.covMap := by
  have hsum : .defMemory d ∉ c.makeSum c.insts c.covSumRef := fun hs => by
    cases c.makeSum_wiring _ _ _ hs
  rcases InstrCov.addedStmts_cases h with ⟨clock, st, hclk, hsz, hst, rfl⟩ | ⟨hno, rfl⟩
  · have hst : .defMemory d ∉ st := fun hs => by
      cases c.stateConnect_wiring hst _ hs
    simp [hclk, hsz, hst, hsum, InstrCov.readConnect, InstrCov.writeConnect]
  · refine ⟨fun hs => ?_, fun h' => ?_⟩
    · simp [InstrCov.addedStmts.noCoverage, hsum] at hs
    · obtain ⟨hclk, hsz, _⟩ := h'
      rcases hno with hno | hno
      · simp [hno] at hclk
      · exact absurd hno hsz

namespace Parts

variable {cfg : Config} {C : Circuit} {m mm : Module} (P : Parts cfg C m mm)

/-- **The memories of an instrumented module**: those of the module, and the map if it has a
    clock and tracked state. -/
theorem mem_memories {d : DefMemory} : d ∈ DefModule.mems (.module mm) ↔
    d ∈ DefModule.mems (.module m) ∨
      ((InstrCov.clockName m).isSome ∧ P.c.regStateSize ≠ 0 ∧ d = P.c.covMap) := by
  rw [mem_mems, mem_mems, P.mem_leaves_iff (by intro _ _ h; cases h), P.mem_old,
    InstrCov.memory_mem_addedStmts P.hcov]
  refine or_congr_right ⟨fun h => ?_, .inl⟩
  exact h.resolve_right InstrAssert.addedStmts_no_memory

include P in
/-- The instances of the instrumented module are those of the module. -/
theorem insts_eq : mm.insts = m.insts := by
  let inst : Stmt → Option WDefInstance := asInstance
  obtain ⟨L, e, h⟩ := P.leaves_eq
  have hL : L.filterMap inst = P.old.filterMap inst := by
    clear e
    generalize P.old = O at h
    induction h with
    | nil => rfl
    | cons hs _ ih =>
        rw [List.filterMap_cons, List.filterMap_cons, ih]
        rcases hs.cases with ⟨rfl, _⟩ | ⟨_, _, _, _, rfl, _, _, rfl⟩ <;> rfl
  have hnone : ∀ {ss : List Stmt}, (∀ s ∈ ss, Stmt.plain s = true) → ss.filterMap inst = [] := by
    intro ss hss
    refine List.filterMap_eq_nil_iff.mpr fun s hs => ?_
    have hp := hss s hs
    cases s <;> first | rfl | cases hp
  have hreset : (P.info.insts.map InstrReset.resetCon).filterMap inst = [] :=
    List.filterMap_eq_nil_iff.mpr fun s hs => by
      obtain ⟨i, _, rfl⟩ := List.mem_map.mp hs
      rfl
  show mm.leaves.filterMap inst = m.leaves.filterMap inst
  rw [e, List.filterMap_append, hreset, hL, List.append_nil]
  unfold old
  rw [List.filterMap_append, List.filterMap_append, hnone fun s hs => P.cov_plain hs,
    hnone fun s hs => P.asserts_plain hs, List.append_nil, List.append_nil]

end Parts

/-! ## 4. The file and the circuit -/

/-- The name of the coverage map of a module. -/
def mapName (n : String) : String := n ++ "_cov"

/-- The entry describes the module: its size is positive iff the module declares the map, and
    then it is the depth of the map; its instances are those of the module. -/
structure Describes (e : HierEntry) (d : DefModule) : Prop where
  declared : 0 < e.covSize ↔ ∃ mem ∈ DefModule.mems d, mem.name = mapName d.name
  depth : 0 < e.covSize → ∀ mem ∈ DefModule.mems d, mem.name = mapName d.name →
    mem.depth = e.covSize
  insts : e.insts.Perm (d.insts.map fun i => (i.module, i.name))

/-- The file describes the circuit: every module has an entry, and all its entries describe it. -/
def FileDescribes (H : List HierEntry) (C' : Circuit) : Prop :=
  ∀ d ∈ C'.modules, (∃ e ∈ H, e.mName = d.name) ∧ ∀ e ∈ H, e.mName = d.name → Describes e d

section Condition

open Selection

variable (cfg : Config) (m : Module) (info : ModuleInfo)

/-- The memories the module itself has under the name of its map. -/
def ownMaps : List DefMemory :=
  (DefModule.mems (.module m)).filter fun d => d.name = mapName m.name

/-- The bits of the state word. -/
def stateWidth : Nat := min (stateBits info cfg.maxStateSize cfg.order) cfg.maxStateSize

/-- If there is state to track, the module has a clock port, or else a memory of the name of the
    map already. Such a memory is there only with state to track, and has one cell for each
    state. -/
def MapReady : Prop :=
  (stateWidth cfg info ≠ 0 → (InstrCov.clockName m).isSome ∨ ownMaps m ≠ []) ∧
  ∀ d ∈ ownMaps m, stateWidth cfg info ≠ 0 ∧
    d.depth = min (2 ^ stateWidth cfg info) (2 ^ 31 - 1)

end Condition

section Result

variable {cfg : Config} {C C' : Circuit} {H : List HierEntry}

theorem covMapSize_pos {c : InstrCov} : 0 < c.covMapSize ↔ c.regStateSize ≠ 0 := by
  unfold InstrCov.covMapSize
  split
  · simp [*]
  · have : 0 < 2 ^ c.regStateSize := Nat.two_pow_pos _
    simp [*]

/-- The record of a module, in terms of its parts. -/
theorem recordOf_parts {m mm : Module} (P : Parts cfg C m mm) {r : ModuleRecord}
    (h : RecordOf cfg C (.module m) r) : r.res.covSize = P.c.covMapSize ∧ r.insts = P.info.insts := by
  obtain ⟨info, c, hinfo, hc, _, hi, hs⟩ := h.cases
  have hii : info = P.info := Option.some.inj (hinfo.symm.trans P.hinfo)
  subst hii
  have hcc : c = P.c := Option.some.inj (hc.symm.trans P.hc)
  rw [hs, hi, hcc]
  exact ⟨rfl, rfl⟩

/-- **One module**: its entry describes it exactly when it is ready for the map. -/
theorem describes_iff {m mm : Module} (hm : m.declared.Nodup) (P : Parts cfg C m mm)
    {r : ModuleRecord} (h : RecordOf cfg C (.module m) r) :
    Describes (.ofRecord r) (.module mm) ↔ MapReady cfg m P.info := by
  obtain ⟨hcov, hinsts⟩ := recordOf_parts P h
  have hsize : (HierEntry.ofRecord r).covSize = P.c.covMapSize := hcov
  have hwidth : P.c.regStateSize = stateWidth cfg P.info := (new_state P.hinfo P.hc).1
  have hname : mapName (DefModule.name (.module mm)) = mapName m.name := congrArg mapName P.name_eq
  have hmap : P.c.covMap.name = mapName m.name := congrArg mapName P.c_mName
  have hdepth : P.c.regStateSize ≠ 0 →
      P.c.covMapSize = min (2 ^ stateWidth cfg P.info) (2 ^ 31 - 1) := by
    intro h0
    unfold InstrCov.covMapSize
    rw [if_neg h0, hwidth]
  have hown : ∀ d, d ∈ ownMaps m ↔ d ∈ DefModule.mems (.module m) ∧ d.name = mapName m.name := by
    intro d
    rw [ownMaps, List.mem_filter, decide_eq_true_iff]
  -- the memories of that name: the module's own, and the map
  have hmems : ∀ d, d ∈ DefModule.mems (.module mm) ∧ d.name = mapName m.name ↔
      d ∈ ownMaps m ∨ ((InstrCov.clockName m).isSome ∧ P.c.regStateSize ≠ 0 ∧ d = P.c.covMap) := by
    intro d
    rw [P.mem_memories, hown, or_and_right]
    refine or_congr_right ⟨And.left, fun hd => ⟨hd, ?_⟩⟩
    rw [hd.2.2, hmap]
  have hperm : (HierEntry.ofRecord r).insts.Perm (mm.insts.map fun i => (i.module, i.name)) := by
    unfold HierEntry.ofRecord
    rw [hinsts, P.insts_eq]
    exact (P.info_insts_perm hm).map _
  unfold MapReady
  rw [← hwidth]
  constructor
  · intro hx
    obtain ⟨hdecl, hdep, _⟩ := hx
    rw [hsize, covMapSize_pos] at hdecl hdep
    rw [hname] at hdecl hdep
    refine ⟨fun h0 => ?_, fun d hd => ?_⟩
    · obtain ⟨d, hd, hn⟩ := hdecl.mp h0
      rcases (hmems d).mp ⟨hd, hn⟩ with hd | ⟨hclk, _⟩
      · exact .inr (List.ne_nil_of_mem hd)
      · exact .inl hclk
    · obtain ⟨hd, hn⟩ := (hmems d).mpr (.inl hd)
      have h0 := hdecl.mpr ⟨d, hd, hn⟩
      rw [hwidth, ← hdepth h0, ← hwidth]
      exact ⟨h0, hdep h0 d hd hn⟩
  · intro hx
    obtain ⟨hclk, hall⟩ := hx
    refine ⟨?_, fun hpos d hd hn => ?_, hperm⟩
    · rw [hsize, covMapSize_pos, hname]
      constructor
      · intro h0
        rcases hclk h0 with hclk | hne
        · have hd := (hmems P.c.covMap).mpr (.inr ⟨hclk, h0, rfl⟩)
          exact ⟨_, hd.1, hd.2⟩
        · obtain ⟨d, hd⟩ := List.exists_mem_of_ne_nil _ hne
          have hd := (hmems d).mpr (.inl hd)
          exact ⟨d, hd.1, hd.2⟩
      · intro hx
        obtain ⟨d, hd, hn⟩ := hx
        rcases (hmems d).mp ⟨hd, hn⟩ with hd | ⟨_, h0, _⟩
        · exact (hall d hd).1
        · exact h0
    · rw [hname] at hn
      rcases (hmems d).mp ⟨hd, hn⟩ with hd | ⟨_, _, rfl⟩
      · obtain ⟨h0, hdd⟩ := hall d hd
        rw [hsize, hdepth h0, ← hwidth]
        exact hdd
      · exact hsize.symm

/-- The record of an external module is empty. -/
theorem ofModule_ext {σ : SetOrder} {x : ExtModule} :
    ModuleInfo.ofModule σ (.ext x) = some ⟨[], .empty, [], [], [], [], none⟩ := by
  have hnil : ∀ {α : Type}, σ.toSeq ([] : List α) = [] := (σ.perm _).eq_nil
  have hmux : (GraphLedger.parseModule (.ext x)).muxSrcs σ = some .empty := by
    simp [GraphLedger.muxSrcs, GraphLedger.muxes, GraphLedger.parseModule, hnil]
  have hsrc : (GraphLedger.parseModule (.ext x)).findMuxSrcs σ = some ⟨[], [], [], []⟩ := by
    unfold GraphLedger.findMuxSrcs
    rw [hmux]
    rfl
  have hinsts : σ.toSeq (GraphLedger.parseModule (.ext x)).getInstances = [] := hnil
  unfold ModuleInfo.ofModule
  simp only [hsrc, hmux, hinsts]
  rfl

/-- An entry of an external module describes it. -/
theorem describes_ext {x : ExtModule} {r : ModuleRecord} (h : RecordOf cfg C (.ext x) r) :
    Describes (.ofRecord r) (.ext x) := by
  obtain ⟨info, c, hinfo, hc, _, hinsts, hcov⟩ := h.cases
  have hwidth := (new_state hinfo hc).1
  rw [ofModule_ext] at hinfo
  cases hinfo
  have hnil : ∀ {α : Type}, cfg.order.toSeq ([] : List α) = [] := (cfg.order.perm _).eq_nil
  have h0 : c.regStateSize = 0 := by
    rw [hwidth]
    simp [Selection.stateBits, Selection.optRegs, Selection.scalaRegs, Selection.smallRegs,
      Selection.ctrlRegs, Selection.firstVecSet, Selection.firstVecRegs,
      Selection.unCoveredCtrlSigs, Selection.ctrlSigs, Selection.largeRegs, Dict.values,
      Dict.ofList, Dict.empty, hnil]
  have hsize : ¬ 0 < (HierEntry.ofRecord r).covSize := by
    show ¬ 0 < r.res.covSize
    simp [hcov, covMapSize_pos, h0]
  refine ⟨⟨fun hpos => absurd hpos hsize, ?_⟩, fun hpos => absurd hpos hsize, ?_⟩
  · intro hx
    obtain ⟨_, hd, _⟩ := hx
    cases hd
  · unfold HierEntry.ofRecord
    rw [hinsts]
    exact List.Perm.nil

/-- **When the file describes the emitted circuit.** For every LowForm circuit that the transform
    takes: the file has an entry for every module, and all entries describe the instrumented
    modules, iff every module is ready for its map. -/
theorem hierarchy_describes_iff (hL : LowForm C) (hex : execute cfg C = some C')
    (hH : hierarchy cfg C = some H) :
    FileDescribes H C' ↔ ∀ m info, .module m ∈ C.modules →
      ModuleInfo.ofModule cfg.order (.module m) = some info → MapReady cfg m info := by
  obtain ⟨rs, hrs, _⟩ := Option.map_eq_some_iff.mp hH
  have hmem := fun {e} => mem_hierarchy hL hrs hH (e := e)
  constructor
  · intro h m info hm hinfo
    obtain ⟨mm, hmm, ⟨P⟩⟩ := parts_of_mem hex hm
    have hP : P.info = info := Option.some.inj (P.hinfo.symm.trans hinfo)
    obtain ⟨r, hr, hro⟩ := Forall₂.mem_left (records_forall₂ hrs) hm
    have hn : r.mName = DefModule.name (.module mm) := hro.name.trans P.name_eq.symm
    rw [← hP]
    exact (describes_iff (hL.modules m hm).nodup P hro).mp
      ((h _ hmm).2 _ (hmem.mpr ⟨r, hr, rfl⟩) hn)
  · intro h d' hd'
    obtain ⟨d, hd, hins⟩ := Forall₂.mem_right (execute_forall₂ cfg hex).2 hd'
    have hname : d'.name = d.name := instrumented_name hins
    refine ⟨?_, fun e he hn => ?_⟩
    · obtain ⟨r, hr, hro⟩ := Forall₂.mem_left (records_forall₂ hrs) hd
      exact ⟨.ofRecord r, hmem.mpr ⟨r, hr, rfl⟩, hro.name.trans hname.symm⟩
    · obtain ⟨r, hr, rfl⟩ := hmem.mp he
      have hro := recordOf_name hL hrs hd hr (hn.trans hname)
      cases d with
      | ext x =>
          rw [ext_of_instrumented hins]
          exact describes_ext hro
      | module m =>
          obtain ⟨mm, rfl, ⟨P⟩⟩ := parts_of_instrumented hins
          exact (describes_iff (hL.modules m hd).nodup P hro).mpr (h m P.info hd P.hinfo)

end Result

/-- The file of the top module and its leaves: the leaf has a map of two cells, which is there, and
    the top module has none. -/
theorem hierarchy_describes_demo :
    hierarchy Demo.config Demo.circuit =
      some [⟨"Leaf", 2, []⟩, ⟨"Top", 0, [("Leaf", "low"), ("Leaf", "high")]⟩] ∧
    FileDescribes [⟨"Leaf", 2, []⟩, ⟨"Top", 0, [("Leaf", "low"), ("Leaf", "high")]⟩]
      Demo.result := by
  have hH : hierarchy Demo.config Demo.circuit =
      some [⟨"Leaf", 2, []⟩, ⟨"Top", 0, [("Leaf", "low"), ("Leaf", "high")]⟩] := by decide
  refine ⟨hH, (hierarchy_describes_iff Demo.lowForm Demo.execute_eq hH).mpr
    fun m info hm hinfo => ?_⟩
  have hown : ownMaps Demo.leaf = [] ∧ ownMaps Demo.top = [] := by decide
  rcases List.mem_pair.mp hm with h | h <;> cases h
  · refine ⟨fun _ => .inl (by decide), fun d hd => ?_⟩
    rw [hown.1] at hd
    cases hd
  · refine ⟨fun _ => .inl (by decide), fun d hd => ?_⟩
    rw [hown.2] at hd
    cases hd

/-! ## 5. A clock of another name -/

namespace Unclocked

def reg : DefRegister := ⟨.noInfo, "r", .uint 1, .ref "clk" .clock, .uintLit 0 1, Demo.bit "r"⟩

/-- The register of the demo, with a clock port that the coverage pass does not know. -/
def top : Module where
  name := "Top"
  ports := [⟨"clk", .input, .clock⟩]
  body := [.defRegister reg, .connect (Demo.bit "r") Demo.hold]

def circuit : Circuit := ⟨[.module top], "Top"⟩

theorem lowForm : LowForm circuit where
  names := by decide
  legal := by unfold LegalName; decide
  modules := by
    intro m hm
    cases List.mem_singleton.mp hm
    refine ⟨by decide, by unfold LegalName; decide, ?_, by decide, ?_, ?_⟩
    · have hclock : IsSig circuit top ["clk"] := .port (q := ⟨"clk", .input, .clock⟩) (by decide)
      have hr : IsSig circuit top ["r"] := .reg (r := reg) (by decide)
      intro s hs e he x hx
      simp [Module.leaves, Stmt.leavesList, Stmt.leaves, top] at hs
      rcases hs with rfl | rfl <;>
        simp [Stmt.exprs, reg, Demo.bit, Demo.hold] at he <;>
        rcases he with rfl | rfl | rfl <;> simp [Expr.refs] at hx <;> subst hx <;> assumption
    · intro loc e hs
      simp [Module.leaves, Stmt.leavesList, Stmt.leaves, top] at hs
      rw [hs.1]
      rfl
    · intro i hi
      cases hi

end Unclocked

/-- **A map is listed that is not there**: the file gives the module a map of two cells, and the
    instrumented module declares no memory. -/
theorem not_hierarchy_describes_unclocked :
    LowForm Unclocked.circuit ∧
    hierarchy Demo.config Unclocked.circuit = some [⟨"Top", 2, []⟩] ∧
    ∃ mm, execute Demo.config Unclocked.circuit = some ⟨[.module mm], "Top"⟩ ∧
      DefModule.mems (.module mm) = [] ∧
      ¬ FileDescribes [⟨"Top", 2, []⟩] ⟨[.module mm], "Top"⟩ := by
  have hsome : ∃ mm, execute Demo.config Unclocked.circuit = some ⟨[.module mm], "Top"⟩ ∧
      DefModule.mems (.module mm) = [] ∧ mm.name = "Top" := ⟨_, rfl, rfl, rfl⟩
  obtain ⟨mm, hex, hmems, hname⟩ := hsome
  refine ⟨Unclocked.lowForm, by decide, mm, hex, hmems, fun h => ?_⟩
  have hd := (h _ (List.mem_singleton_self _)).2 _ (List.mem_singleton_self _) hname.symm
  obtain ⟨mem, hmem, _⟩ := hd.declared.mp (by decide)
  rw [hmems] at hmem
  cases hmem

end Difuzz.Coverage
