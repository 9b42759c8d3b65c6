/-
  File:      DifuzzRtl/Coverage/Selection.lean
  Subject:   Which control registers the state word observes, and which it loses.

  A mux select counts as covered as soon as SOME small register feeds it. The constructor takes
  this for granted before it decides which small registers get an offset: a small scalar register
  that feeds fewer selects than it has bits gets none, and its selects, listed as control signals
  in its place, are taken off the list again because the register itself covers them.

  * `Tracked` -- the small registers that do get an offset: scalar ones that feed enough selects,
    and the elements of a kept vector group.
  * `new_nodes` -- the offsets are those of the tracked registers and of the selects no small
    register feeds.
  * `observed_iff` -- every control register is observed iff every select that a small register
    feeds is fed by a tracked one.
-/
import DifuzzRtl.Coverage.InstrCov

namespace Difuzz.Coverage

open Firrtl

/-! ## 1. Names of control registers -/

theorem parseModule_get?_name {d : DefModule} {x : String} {n : Node}
    (h : (GraphLedger.parseModule d).graphMap.get? x = some n) : n.name = x := by
  cases d with
  | ext e => cases h
  | module m =>
      unfold GraphLedger.parseModule at h
      rw [Dict.get?_ofList] at h
      have hm := Dict.mem_of_lookup h
      rw [List.mem_reverse, List.mem_map] at hm
      obtain ⟨v, _, e⟩ := hm
      cases e
      rfl

/-- A control register is what the ledger has under its name. -/
theorem ctrlRegs_get? {σ : SetOrder} {d : DefModule} {info : ModuleInfo}
    (h : ModuleInfo.ofModule σ d = some info) {r : DefRegister} (hr : r ∈ info.ctrlRegs) :
    (GraphLedger.parseModule d).graphMap.get? r.name = some (.defRegister r) := by
  obtain ⟨_, _, _, ⟨cs, hcs, e⟩, _⟩ := ofModule_eq_some h
  rw [e] at hr
  unfold GraphLedger.findMuxSrcs at hcs
  rw [Option.map_eq_some_iff] at hcs
  obtain ⟨srcs, _, rfl⟩ := hcs
  obtain ⟨v, hv, e⟩ := List.mem_filterMap.mp hr
  cases v <;> simp at e
  subst e
  obtain ⟨x, _, hx⟩ := List.mem_filterMap.mp hv
  have hnx := parseModule_get?_name hx
  rw [← hnx] at hx
  exact hx

/-- The ledger has one vertex for each name, so control registers have distinct names. -/
theorem ctrlRegs_inj {σ : SetOrder} {d : DefModule} {info : ModuleInfo}
    (h : ModuleInfo.ofModule σ d = some info) {r r' : DefRegister} (hr : r ∈ info.ctrlRegs)
    (hr' : r' ∈ info.ctrlRegs) (hn : r.name = r'.name) : r = r' := by
  have h₁ := ctrlRegs_get? h hr
  rw [hn, ctrlRegs_get? h hr'] at h₁
  cases h₁
  rfl

/-- Control registers have distinct names. -/
theorem ctrlRegs_nodup {σ : SetOrder} {d : DefModule} {info : ModuleInfo}
    (h : ModuleInfo.ofModule σ d = some info) : info.ctrlRegs.Nodup := by
  obtain ⟨_, _, _, ⟨cs, hcs, e⟩, _⟩ := ofModule_eq_some h
  rw [e]
  unfold GraphLedger.findMuxSrcs at hcs
  rw [Option.map_eq_some_iff] at hcs
  obtain ⟨srcs, _, rfl⟩ := hcs
  have hnodes : ((GraphLedger.parseModule d).ctrlNodes srcs).Nodup := by
    refine List.Nodup.filterMap (fun x y n hx hy => ?_) (List.nodup_dedup _)
    rw [← parseModule_get?_name hx, ← parseModule_get?_name hy]
  refine List.Nodup.filterMap (fun v w r hv hw => ?_) hnodes
  cases v <;> cases w <;> simp at hv hw
  rw [hv, hw]

theorem ctrlRegs_regs {σ : SetOrder} {m : Module} {info : ModuleInfo}
    (h : ModuleInfo.ofModule σ (.module m) = some info) (hm : m.declared.Nodup) {r : DefRegister}
    (hr : r ∈ info.ctrlRegs) : r ∈ m.regs :=
  mem_nodesOf_reg.mp (parseModule_get?_inv hm (ctrlRegs_get? h hr)).1

/-! ## 2. Tracked registers -/

namespace Selection

variable (mInfo : ModuleInfo) (maxStateSize : Nat) (σ : SetOrder)

/-- The vectors with their first elements, before they are made a map. -/
def vecGroups : List ((String × Nat) × List DefRegister) :=
  (mInfo.vecRegs.map fun t => ((t.2.1, t.1), firstRegs mInfo maxStateSize t)).dedup

/-- The last vector of its prefix and size, in iteration order: the map keeps no other. -/
def Kept (g : (String × Nat) × List DefRegister) : Prop :=
  ∃ xs ys, σ.toSeq (vecGroups mInfo maxStateSize) = xs ++ g :: ys ∧ ∀ g' ∈ ys, g'.1 ≠ g.1

/-- The name of the element of a group at `i` whose first element is `r₀`. -/
def elementName (g : (String × Nat) × List DefRegister) (i : Nat) (r₀ : DefRegister) : String :=
  g.1.1 ++ (toString i ++ String.ofList (r₀.name.toList.drop (g.1.1 ++ "0").length))

/-- The small registers that get an offset. -/
def Tracked (r : DefRegister) : Prop :=
  (r ∈ scalaRegs mInfo maxStateSize ∧ isOpt mInfo r = true) ∨
  (r ∈ vectorRegs mInfo maxStateSize ∧ ∃ g, Kept mInfo maxStateSize σ g ∧
    ∃ i < g.1.2, ∃ r₀ ∈ g.2, r.name = elementName g i r₀)

end Selection

/-! ## 3. The offsets -/

theorem tileOffsets_nodes (off : Nat) (l : List (CtrlNode × Nat)) :
    (tileOffsets off l).map (·.1) = l.map (·.1) := by
  induction l generalizing off with
  | nil => rfl
  | cons x l ih => simp only [tileOffsets, List.map_cons, ih]

theorem randomOffsets_nodes {rnd : Nat → Nat} {size i : Nat} {l offs : List (CtrlNode × Nat)}
    (h : randomOffsets rnd size i l = some offs) : offs.map (·.1) = l.map (·.1) := by
  induction l generalizing i offs with
  | nil => cases h; rfl
  | cons x l ih =>
      simp only [randomOffsets, Option.bind_eq_bind, Option.bind_eq_some_iff, Option.pure_def,
        Option.some.injEq] at h
      obtain ⟨off, _, rest, hr, rfl⟩ := h
      simp only [List.map_cons, ih hr]

/-- **`getRegState`**: the state word has as many bits as there are, up to its maximal size; every
    signal handed over gets an offset, unless there is no bit at all. -/
theorem getRegState_spec {rnd : Nat → Nat} {size : Nat} {regs : List DefRegister}
    {ctrls : List Expr} {tot st : Nat} {offs : List (CtrlNode × Nat)}
    (h : getRegState rnd size regs ctrls = some (tot, st, offs)) :
    st = min ((regs.map regWidth).sum + ctrls.length) size ∧
    offs.map (·.1) = if (regs.map regWidth).sum + ctrls.length = 0 then []
      else regs.map CtrlNode.reg ++ ctrls.map CtrlNode.expr := by
  have hnodes : (regs.map (fun r => (CtrlNode.reg r, regWidth r)) ++
      ctrls.map (fun e => (CtrlNode.expr e, 1))).map Prod.fst =
      regs.map CtrlNode.reg ++ ctrls.map CtrlNode.expr := by
    rw [List.map_append, List.map_map, List.map_map]
    rfl
  have hsum : ((regs.map (fun r => (CtrlNode.reg r, regWidth r)) ++
      ctrls.map (fun e => (CtrlNode.expr e, 1))).map Prod.snd).sum =
      (regs.map regWidth).sum + ctrls.length := by
    rw [List.map_append, List.map_map, List.map_map, List.sum_append]
    congr 1
    simp [Function.comp_def]
  unfold getRegState at h
  simp only [hsum] at h
  split at h
  · rename_i h0
    cases h
    rw [if_pos h0, h0]
    exact ⟨by simp, rfl⟩
  · rename_i h0
    rw [if_neg h0, ← hnodes]
    split at h
    · rename_i hle
      cases h
      exact ⟨by omega, tileOffsets_nodes _ _⟩
    · rename_i hle
      rw [Option.map_eq_some_iff] at h
      obtain ⟨o, ho, e⟩ := h
      cases e
      exact ⟨by omega, randomOffsets_nodes ho⟩

/-- Every signal handed to `getRegState` gets an offset, when all have a width. -/
theorem getRegState_nodes {rnd : Nat → Nat} {size : Nat} {regs : List DefRegister}
    {ctrls : List Expr} {tot st : Nat} {offs : List (CtrlNode × Nat)}
    (hw : ∀ r ∈ regs, 0 < regWidth r)
    (h : getRegState rnd size regs ctrls = some (tot, st, offs)) :
    offs.map (·.1) = regs.map CtrlNode.reg ++ ctrls.map CtrlNode.expr := by
  rw [(getRegState_spec h).2]
  split
  · rename_i h0
    -- no width at all: there is no signal
    cases regs with
    | cons r regs =>
        have := hw r List.mem_cons_self
        simp at h0
        omega
    | nil =>
        cases ctrls with
        | cons e ctrls => simp at h0
        | nil => rfl
  · rfl

namespace InstrCov

/-- The signals with an offset. -/
def nodes (c : InstrCov) : List CtrlNode := c.allOffsets.map (·.1)

end InstrCov

section Offsets

open Selection

variable {σ : SetOrder} {mInfo : ModuleInfo} {maxStateSize : Nat}

theorem mem_firstVecRegs {g : (String × Nat) × List DefRegister} :
    g ∈ (firstVecRegs mInfo maxStateSize σ).entries ↔ Kept mInfo maxStateSize σ g := by
  unfold firstVecRegs Kept
  rw [Dict.mem_entries_ofList]
  rfl

/-- The names with a vector offset are the element names of the kept groups. -/
theorem mem_vecNameOffsets {offs : List (CtrlNode × Nat)} {names : Dict String Nat}
    (h : vecNameOffsets σ mInfo maxStateSize offs = some names) {n : String} :
    n ∈ names.keys ↔ ∃ g, Kept mInfo maxStateSize σ g ∧ ∃ i < g.1.2, ∃ r₀ ∈ g.2,
      n = elementName g i r₀ := by
  simp only [vecNameOffsets, Option.bind_eq_bind, Option.bind_eq_some_iff, Option.pure_def,
    Option.some.injEq] at h
  obtain ⟨ls, hls, rfl⟩ := h
  have hls := forall₂_of_mapM hls
  rw [Dict.mem_keys_ofList]
  constructor
  · intro hn
    obtain ⟨x, hx, rfl⟩ := List.mem_map.mp hn
    obtain ⟨l, hl, hx⟩ := List.mem_flatten.mp hx
    obtain ⟨g, hg, he⟩ := Forall₂.mem_right hls hl
    simp only [Option.bind_eq_some_iff, Option.some.injEq] at he
    obtain ⟨bs, hbs, rfl⟩ := he
    obtain ⟨i, hi, hx⟩ := List.mem_flatMap.mp hx
    obtain ⟨b, hb, rfl⟩ := List.mem_map.mp hx
    obtain ⟨r₀, hr₀, hb⟩ := Forall₂.mem_right (forall₂_of_mapM hbs) hb
    rw [Option.map_eq_some_iff] at hb
    obtain ⟨t, _, rfl⟩ := hb
    exact ⟨g, mem_firstVecRegs.mp hg, i, List.mem_range.mp hi, r₀, hr₀, rfl⟩
  · intro hex
    obtain ⟨g, hg, i, hi, r₀, hr₀, rfl⟩ := hex
    obtain ⟨l, hl, he⟩ := Forall₂.mem_left hls (mem_firstVecRegs.mpr hg)
    simp only [Option.bind_eq_some_iff, Option.some.injEq] at he
    obtain ⟨bs, hbs, rfl⟩ := he
    obtain ⟨b, hb, he⟩ := Forall₂.mem_left (forall₂_of_mapM hbs) hr₀
    rw [Option.map_eq_some_iff] at he
    obtain ⟨t, _, rfl⟩ := he
    refine List.mem_map.mpr ⟨_, List.mem_flatten.mpr ⟨_, hl, List.mem_flatMap.mpr
      ⟨i, List.mem_range.mpr hi, List.mem_map.mpr ⟨_, hb, rfl⟩⟩⟩, rfl⟩

theorem mem_vectorOffsets {names : Dict String Nat} {offs : List (CtrlNode × Nat)}
    (h : vectorOffsets mInfo maxStateSize names = some offs) {n : CtrlNode} :
    n ∈ offs.map (·.1) ↔ ∃ r, n = .reg r ∧ ∃ x ∈ names.keys,
      (vectorRegs mInfo maxStateSize).find? (fun r => r.name == x) = some r := by
  unfold vectorOffsets at h
  rw [Option.map_eq_some_iff] at h
  obtain ⟨l, hl, rfl⟩ := h
  have hl := forall₂_of_mapM hl
  show n ∈ (Dict.ofList l).keys ↔ _
  rw [Dict.mem_keys_ofList]
  constructor
  · intro hn
    obtain ⟨y, hy, rfl⟩ := List.mem_map.mp hn
    obtain ⟨x, hx, he⟩ := Forall₂.mem_right hl hy
    rw [Option.map_eq_some_iff] at he
    obtain ⟨r, hr, rfl⟩ := he
    exact ⟨r, rfl, x.1, List.mem_map_of_mem hx, hr⟩
  · intro hex
    obtain ⟨r, rfl, x, hx, hr⟩ := hex
    obtain ⟨e, he, rfl⟩ := List.mem_map.mp hx
    obtain ⟨y, hy, hey⟩ := Forall₂.mem_left hl he
    rw [hr, Option.map_some] at hey
    cases hey
    exact List.mem_map.mpr ⟨_, hy, rfl⟩

/-- First elements are vector registers. -/
theorem firstVecSet_vectorRegs :
    ∀ r ∈ firstVecSet mInfo maxStateSize σ, r ∈ vectorRegs mInfo maxStateSize := by
  intro r hr
  obtain ⟨l, hl, hr⟩ := List.mem_flatten.mp (List.mem_dedup.mp hr)
  obtain ⟨g, hg, rfl⟩ := List.mem_map.mp hl
  obtain ⟨xs, ys, hxs, _⟩ := mem_firstVecRegs.mp hg
  have hg : g ∈ vecGroups mInfo maxStateSize := by
    rw [← SetOrder.mem_toSeq σ, hxs]
    simp
  obtain ⟨t, _, rfl⟩ := List.mem_map.mp (List.mem_dedup.mp hg)
  obtain ⟨body, _, hb⟩ := List.mem_filterMap.mp (List.mem_dedup.mp hr)
  exact List.mem_of_find?_eq_some hb

theorem mem_smallRegs {r : DefRegister} : r ∈ smallRegs mInfo maxStateSize ↔
    r ∈ mInfo.ctrlRegs ∧ r ∉ dirInRegs mInfo ∧ regWidth r < maxStateSize := by
  simp only [smallRegs, ctrlRegs, List.mem_filter, decide_eq_true_eq, and_assoc]

theorem scalaRegs_small {r : DefRegister} (h : r ∈ scalaRegs mInfo maxStateSize) :
    r ∈ smallRegs mInfo maxStateSize := (List.mem_filter.mp h).1

theorem vectorRegs_small {r : DefRegister} (h : r ∈ vectorRegs mInfo maxStateSize) :
    r ∈ smallRegs mInfo maxStateSize := (List.mem_filter.mp h).1

/-- A scalar register is no vector register. -/
theorem scalaRegs_not_vector {r : DefRegister} (h : r ∈ scalaRegs mInfo maxStateSize) :
    r ∉ vectorRegs mInfo maxStateSize := by
  intro hv
  have hs := (List.mem_filter.mp h).2
  have hv := (List.mem_filter.mp hv).2
  simp only [decide_eq_true_eq] at hs hv
  exact hs hv

/-- A register of the given ones: the first elements of vectors, whose offsets are replaced. -/
def firstNode (firsts : List DefRegister) : CtrlNode → Bool
  | .reg r => decide (r ∈ firsts)
  | .expr _ => false

/-- The parts of a constructed pass: what got an offset from `getRegState`, and from a vector. -/
theorem new_nodes {rnd : Nat → Nat} {mName : String} {extModules : List String} {covSumSize : Nat}
    {c : InstrCov} (hw : ∀ r ∈ mInfo.ctrlRegs, 0 < regWidth r)
    (hc : InstrCov.new σ mInfo maxStateSize rnd mName extModules covSumSize = some c) (n : CtrlNode) :
    n ∈ c.nodes ↔ (∃ r, n = .reg r ∧ r ∈ scalaRegs mInfo maxStateSize ∧ isOpt mInfo r = true) ∨
      (∃ e, n = .expr e ∧ e ∈ ctrlSigs mInfo maxStateSize ∧
        e ∉ coveredMuxSrcs mInfo maxStateSize) ∨
      ∃ r, n = .reg r ∧ ∃ g, Kept mInfo maxStateSize σ g ∧ ∃ i < g.1.2, ∃ r₀ ∈ g.2,
        (vectorRegs mInfo maxStateSize).find? (fun r => r.name == elementName g i r₀) = some r := by
  unfold InstrCov.new at hc
  split at hc
  · simp only [Option.bind_eq_bind, Option.bind_eq_some_iff, Option.pure_def,
      Option.some.injEq] at hc
    obtain ⟨⟨tot, st, offs⟩, hoffs, names, hnames, vecs, hvecs, rfl⟩ := hc
    have hsmall : ∀ r ∈ optRegs mInfo maxStateSize σ ++ σ.toSeq (firstVecSet mInfo maxStateSize σ),
        0 < regWidth r := by
      intro r hr
      refine hw r ?_
      rcases List.mem_append.mp hr with hr | hr
      · have hr := (SetOrder.mem_toSeq σ).mp (List.mem_filter.mp hr).1
        exact (mem_smallRegs.mp (scalaRegs_small hr)).1
      · have hr := firstVecSet_vectorRegs r ((SetOrder.mem_toSeq σ).mp hr)
        exact (mem_smallRegs.mp (vectorRegs_small hr)).1
    have hn := getRegState_nodes hsmall hoffs
    -- the offsets of first elements are replaced by those of all elements
    have hscala : ∀ (isFirst : CtrlNode → Bool), n ∈ (offs.filter fun t => !isFirst t.1).map (·.1) ↔
        n ∈ offs.map (·.1) ∧ isFirst n = false := by
      intro isFirst
      rw [List.mem_map, List.mem_map]
      constructor
      · intro hex
        obtain ⟨t, ht, rfl⟩ := hex
        obtain ⟨ht, hf⟩ := List.mem_filter.mp ht
        exact ⟨⟨t, ht, rfl⟩, by simpa using hf⟩
      · intro hex
        obtain ⟨⟨t, ht, rfl⟩, hf⟩ := hex
        exact ⟨t, List.mem_filter.mpr ⟨ht, by simpa using hf⟩, rfl⟩
    let isFirst : CtrlNode → Bool := firstNode (firstVecSet mInfo maxStateSize σ)
    have hall : n ∈ ((offs.filter fun t => !isFirst t.1) ++ σ.toSeq vecs).map (·.1) ↔
        (n ∈ offs.map (·.1) ∧ isFirst n = false) ∨ n ∈ vecs.map (·.1) := by
      rw [List.map_append, List.mem_append]
      refine or_congr (hscala isFirst) ?_
      rw [List.mem_map, List.mem_map]
      simp only [SetOrder.mem_toSeq]
    refine hall.trans ?_
    rw [hn, mem_vectorOffsets hvecs, ← or_assoc]
    refine or_congr ?_ (exists_congr fun r => and_congr_right fun _ => ?_)
    · cases n with
      | reg r =>
          have hopt : r ∈ optRegs mInfo maxStateSize σ ↔
              r ∈ scalaRegs mInfo maxStateSize ∧ isOpt mInfo r = true := by
            unfold optRegs
            rw [List.mem_filter, SetOrder.mem_toSeq]
          simp only [List.mem_append, List.mem_map, CtrlNode.reg.injEq, exists_eq_right,
            reduceCtorEq, and_false, exists_false, or_false, SetOrder.mem_toSeq,
            decide_eq_false_iff_not, hopt, CtrlNode.reg.injEq, exists_eq_left', false_and, isFirst,
            firstNode]
          constructor
          · intro h'
            obtain ⟨h | h, hf⟩ := h'
            · exact h
            · exact absurd h hf
          · intro h
            refine ⟨.inl h, fun hf => ?_⟩
            have hv := (List.mem_filter.mp (firstVecSet_vectorRegs r hf)).2
            have hs := (List.mem_filter.mp h.1).2
            simp only [decide_eq_true_eq] at hv hs
            exact hs hv
      | expr e =>
          have hunc : e ∈ unCoveredCtrlSigs mInfo maxStateSize σ ↔
              e ∈ ctrlSigs mInfo maxStateSize ∧ e ∉ coveredMuxSrcs mInfo maxStateSize := by
            unfold unCoveredCtrlSigs
            rw [List.mem_filter, SetOrder.mem_toSeq, decide_eq_true_iff]
          simp [hunc, isFirst, firstNode]
    · constructor
      · intro hex
        obtain ⟨x, hx, hr⟩ := hex
        obtain ⟨g, hg, i, hi, r₀, hr₀, rfl⟩ := (mem_vecNameOffsets hnames).mp hx
        exact ⟨g, hg, i, hi, r₀, hr₀, hr⟩
      · intro hex
        obtain ⟨g, hg, i, hi, r₀, hr₀, hr⟩ := hex
        exact ⟨_, (mem_vecNameOffsets hnames).mpr ⟨g, hg, i, hi, r₀, hr₀, rfl⟩, hr⟩
  · cases hc

/-! ## 4. What is observed -/

/-- A control register is observed: it has an offset, or every select it feeds has one, or is fed
    by another register that has. -/
def Observed (mInfo : ModuleInfo) (c : InstrCov) (r : DefRegister) : Prop :=
  .reg r ∈ c.nodes ∨ ∀ s ∈ sinkConds mInfo r,
    .expr s ∈ c.nodes ∨ ∃ r', .reg r' ∈ c.nodes ∧ s ∈ sinkConds mInfo r'

/-- **When no control register is dropped**: exactly when every select that a small register
    feeds is fed by a tracked register. -/
theorem observed_iff {d : DefModule} (hinfo : ModuleInfo.ofModule σ d = some mInfo)
    (hw : ∀ r ∈ mInfo.ctrlRegs, 0 < regWidth r) {rnd : Nat → Nat} {mName : String}
    {extModules : List String} {covSumSize : Nat} {c : InstrCov}
    (hc : InstrCov.new σ mInfo maxStateSize rnd mName extModules covSumSize = some c) :
    (∀ r ∈ mInfo.ctrlRegs, r ∉ dirInRegs mInfo → Observed mInfo c r) ↔
    ∀ r ∈ smallRegs mInfo maxStateSize, ∀ s ∈ sinkConds mInfo r,
      ∃ r', Tracked mInfo maxStateSize σ r' ∧ s ∈ sinkConds mInfo r' := by
  -- registers with an offset are the tracked ones: a name finds its own register
  have hreg : ∀ r, .reg r ∈ c.nodes ↔ Tracked mInfo maxStateSize σ r := by
    intro r
    rw [new_nodes hw hc]
    simp only [CtrlNode.reg.injEq, exists_eq_left', reduceCtorEq, false_and, exists_false,
      false_or]
    refine or_congr_right ?_
    constructor
    · intro hx
      obtain ⟨g, hg, i, hi, r₀, hr₀, hf⟩ := hx
      exact ⟨List.mem_of_find?_eq_some hf, g, hg, i, hi, r₀, hr₀, by simpa using List.find?_some hf⟩
    · intro hx
      obtain ⟨hr, g, hg, i, hi, r₀, hr₀, hn⟩ := hx
      refine ⟨g, hg, i, hi, r₀, hr₀, ?_⟩
      have hsome : ((vectorRegs mInfo maxStateSize).find? fun r => r.name == elementName g i r₀).isSome := by
        rw [List.find?_isSome]
        exact ⟨r, hr, by simpa using hn⟩
      obtain ⟨r', hr'⟩ := Option.isSome_iff_exists.mp hsome
      have hn' : r'.name = r.name := by
        rw [hn]
        simpa using List.find?_some hr'
      have hv' := List.mem_of_find?_eq_some hr'
      rw [hr', ctrlRegs_inj hinfo (mem_smallRegs.mp (vectorRegs_small hv')).1
        (mem_smallRegs.mp (vectorRegs_small hr)).1 hn']
  have hexpr : ∀ s, .expr s ∈ c.nodes ↔ s ∈ ctrlSigs mInfo maxStateSize ∧
      s ∉ coveredMuxSrcs mInfo maxStateSize := by
    intro s
    rw [new_nodes hw hc]
    simp
  constructor
  · intro h r hr s hs
    have hr' := mem_smallRegs.mp hr
    rcases h r hr'.1 hr'.2.1 with ho | ho
    · exact ⟨r, (hreg r).mp ho, hs⟩
    · rcases ho s hs with he | ⟨r', hr', hs'⟩
      · -- a select of a small register is covered, so it has no offset
        exact absurd (List.mem_flatMap.mpr ⟨r, hr, hs⟩) ((hexpr s).mp he).2
      · exact ⟨r', (hreg r').mp hr', hs'⟩
  · intro h r hr hd
    refine .inr fun s hs => ?_
    by_cases hcov : s ∈ coveredMuxSrcs mInfo maxStateSize
    · obtain ⟨r₁, hr₁, hs₁⟩ := List.mem_flatMap.mp hcov
      obtain ⟨r', ht, hs'⟩ := h r₁ hr₁ s hs₁
      exact .inr ⟨r', (hreg r').mpr ht, hs'⟩
    · -- only a large register feeds selects that are not covered
      have hlarge : r ∈ largeRegs mInfo maxStateSize := by
        refine List.mem_filter.mpr ⟨List.mem_filter.mpr ⟨hr, by simpa using hd⟩, ?_⟩
        rw [decide_eq_true_eq, ← Nat.not_lt]
        intro hlt
        exact hcov (List.mem_flatMap.mpr ⟨r, mem_smallRegs.mpr ⟨hr, hd, hlt⟩, hs⟩)
      refine .inl ((hexpr s).mpr ⟨?_, hcov⟩)
      exact List.mem_dedup.mpr (List.mem_flatMap.mpr ⟨r, List.mem_append_left _ hlarge, hs⟩)

end Offsets

/-- A module whose only control register has `w` bits and feeds one select. -/
def oneSelect (w : Nat) : Module where
  name := "OneSelect"
  ports := [⟨"clock", .input, .clock⟩, ⟨"out", .output, .uint 1⟩]
  body :=
    [.defRegister reg,
     .connect (.ref "r" (.uint w)) (.doPrim1 .not (.ref "r" (.uint w)) [] (.uint w)),
     .connect (.ref "out" (.uint 1)) (.mux sel (.uintLit 1 1) (.uintLit 0 1) (.uint 1))]
where
  reg : DefRegister :=
    ⟨.noInfo, "r", .uint w, .ref "clock" .clock, .uintLit 0 1, .ref "r" (.uint w)⟩
  sel : Expr := .doPrim1 .orr (.ref "r" (.uint w)) [] (.uint 1)

/-- One bit is as much as one select: the register is tracked, and nothing is dropped. -/
theorem oneSelect_observed :
    ∃ info c, ModuleInfo.ofModule .insertion (.module (oneSelect 1)) = some info ∧
      InstrCov.new .insertion info 20 (fun _ => 0) "OneSelect" [] 30 = some c ∧
      info.ctrlRegs = [oneSelect.reg 1] ∧
      ∀ r ∈ info.ctrlRegs, r ∉ Selection.dirInRegs info → Observed info c r := by
  have hs : ∃ info, ModuleInfo.ofModule .insertion (.module (oneSelect 1)) = some info ∧
      info.ctrlRegs = [oneSelect.reg 1] ∧ Selection.scalaRegs info 20 = [oneSelect.reg 1] ∧
      Selection.isOpt info (oneSelect.reg 1) = true ∧
      (InstrCov.new .insertion info 20 (fun _ => 0) "OneSelect" [] 30).isSome :=
    ⟨_, rfl, by decide, by decide, by decide, by decide⟩
  obtain ⟨info, hi, hr, hsc, hopt, hc⟩ := hs
  obtain ⟨c, hc⟩ := Option.isSome_iff_exists.mp hc
  refine ⟨info, c, hi, hc, hr, (observed_iff hi ?_ hc).mpr fun r hsm s hs => ⟨r, .inl ?_, hs⟩⟩
  · rw [hr]
    decide
  · have hmem := (mem_smallRegs.mp hsm).1
    rw [hr, List.mem_singleton] at hmem
    rw [hmem, hsc]
    exact ⟨List.mem_singleton_self _, hopt⟩

/-- Two bits are more: the state word is empty, and neither the register nor its select is
    observed. -/
theorem oneSelect_not_observed :
    ∃ info c, ModuleInfo.ofModule .insertion (.module (oneSelect 2)) = some info ∧
      InstrCov.new .insertion info 20 (fun _ => 0) "OneSelect" [] 30 = some c ∧
      oneSelect.reg 2 ∈ info.ctrlRegs ∧ oneSelect.reg 2 ∉ Selection.dirInRegs info ∧
      ¬ Observed info c (oneSelect.reg 2) := by
  have hs : ∃ info, ModuleInfo.ofModule .insertion (.module (oneSelect 2)) = some info ∧
      info.ctrlRegs = [oneSelect.reg 2] ∧ Selection.dirInRegs info = [] ∧
      Selection.sinkConds info (oneSelect.reg 2) = [oneSelect.sel 2] ∧
      (InstrCov.new .insertion info 20 (fun _ => 0) "OneSelect" [] 30).map
        (fun c => c.allOffsets) = some [] := ⟨_, rfl, by decide, by decide, by decide, by decide⟩
  obtain ⟨info, hi, hr, hd, hsel, hc⟩ := hs
  rw [Option.map_eq_some_iff] at hc
  obtain ⟨c, hc, ho⟩ := hc
  refine ⟨info, c, hi, hc, by simp [hr], by simp [hd], ?_⟩
  unfold Observed InstrCov.nodes
  rw [ho, hsel]
  simp

end Difuzz.Coverage
