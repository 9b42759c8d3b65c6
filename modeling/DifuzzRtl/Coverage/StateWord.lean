/-
  File:      DifuzzRtl/Coverage/StateWord.lean
  Subject:   What the state word of a module holds.

  Each tracked signal is shifted to its offset, padded to the width of the state word, and the
  results are joined by a tree of XORs. As long as all signals fit side by side, the word is a
  faithful picture of them.

  * `CtrlNode.width`, `CtrlNode.value` -- the bits of a tracked signal, and its value.
  * `new_parts` -- the constructor: the offsets of `getRegState`, with those of the first elements
    replaced by those of all elements.
  * `getRegState_tiles` -- signals that fit lie side by side.
  * `Wired` -- a valuation in which the connects of a list of statements hold.
  * `offset_value`, `makeXor_value` -- so the padded wires hold the shifted signals and the top of
    the tree their XOR.
  * `stateConnect_inj` -- two wired valuations with the same state word agree on every tracked
    signal.
-/
import DifuzzRtl.Coverage.Selection
import DifuzzRtl.Firrtl.Semantics
import DifuzzRtl.Lib.Fields

namespace Difuzz.Coverage

open Firrtl

/-! ## 1. Widths and slots -/

namespace CtrlNode

/-- The bits of a tracked signal; a select is one bit. -/
def width : CtrlNode → Nat
  | .reg r => regWidth r
  | .expr _ => 1

/-- The value of a tracked signal. -/
def value (v : Sig → Int) : CtrlNode → Int
  | .reg r => eval v (.ref r.name r.tpe)
  | .expr e => eval v e

end CtrlNode

section Slots

/-- The signals of `getRegState`, in order. -/
def signals (regs : List DefRegister) (ctrls : List Expr) : List CtrlNode :=
  regs.map CtrlNode.reg ++ ctrls.map CtrlNode.expr

theorem zipWidth_eq (regs : List DefRegister) (ctrls : List Expr) :
    regs.map (fun r => (CtrlNode.reg r, regWidth r)) ++ ctrls.map (fun e => (CtrlNode.expr e, 1)) =
      (signals regs ctrls).map fun n => (n, n.width) := by
  unfold signals
  rw [List.map_append, List.map_map, List.map_map]
  rfl

theorem tileOffsets_tiles (off : Nat) (ns : List CtrlNode) :
    Tiles CtrlNode.width off (tileOffsets off (ns.map fun n => (n, n.width)))
      (off + (ns.map CtrlNode.width).sum) := by
  induction ns generalizing off with
  | nil => rfl
  | cons n ns ih =>
      refine ⟨rfl, ?_⟩
      rw [List.map_cons, List.sum_cons, ← Nat.add_assoc]
      exact ih _

/-- **`getRegState`, by cases**: nothing to track, signals that fit side by side, or random
    offsets. -/
theorem getRegState_cases {rnd : Nat → Nat} {size : Nat} {regs : List DefRegister}
    {ctrls : List Expr} {tot st : Nat} {offs : List (CtrlNode × Nat)}
    (h : getRegState rnd size regs ctrls = some (tot, st, offs)) :
    tot = ((signals regs ctrls).map CtrlNode.width).sum ∧
    ((tot = 0 ∧ st = 0 ∧ offs = []) ∨
     (tot ≠ 0 ∧ tot ≤ size ∧ st = tot ∧
        offs = tileOffsets 0 ((signals regs ctrls).map fun n => (n, n.width))) ∨
     (size < tot ∧ st = size ∧
        randomOffsets rnd size 0 ((signals regs ctrls).map fun n => (n, n.width)) = some offs)) := by
  unfold getRegState at h
  simp only [zipWidth_eq, List.map_map, Function.comp_def] at h
  split at h
  · rename_i h0
    cases h
    exact ⟨rfl, .inl ⟨h0, rfl, rfl⟩⟩
  · rename_i h0
    split at h
    · rename_i hle
      cases h
      exact ⟨rfl, .inr (.inl ⟨h0, hle, rfl, rfl⟩)⟩
    · rename_i hle
      rw [Option.map_eq_some_iff] at h
      obtain ⟨o, ho, e⟩ := h
      cases e
      exact ⟨rfl, .inr (.inr ⟨Nat.lt_of_not_le hle, rfl, ho⟩)⟩

/-- Signals that fit lie side by side. -/
theorem getRegState_tiles {rnd : Nat → Nat} {size : Nat} {regs : List DefRegister}
    {ctrls : List Expr} {tot st : Nat} {offs : List (CtrlNode × Nat)}
    (h : getRegState rnd size regs ctrls = some (tot, st, offs)) (hfit : tot ≤ size) :
    st = tot ∧ Tiles CtrlNode.width 0 offs tot := by
  obtain ⟨htot, ⟨h0, hst, rfl⟩ | ⟨_, _, hst, rfl⟩ | ⟨hlt, _⟩⟩ := getRegState_cases h
  · exact ⟨hst.trans h0.symm, h0.symm⟩
  · refine ⟨hst, ?_⟩
    have := tileOffsets_tiles 0 (signals regs ctrls)
    rwa [Nat.zero_add, ← htot] at this
  · omega

end Slots

/-! ## 2. The parts of the constructor -/

section Parts

open Selection

variable {σ : SetOrder} {mInfo : ModuleInfo} {maxStateSize : Nat}

/-- A first element of a vector. -/
def isFirst (mInfo : ModuleInfo) (maxStateSize : Nat) (σ : SetOrder) (t : CtrlNode × Nat) : Bool :=
  match t.1 with
  | .reg r => r ∈ firstVecSet mInfo maxStateSize σ
  | .expr _ => false

/-- The constructor after the layout. -/
theorem new_of_layout {rnd : Nat → Nat} (mName : String) (extModules : List String)
    (covSumSize : Nat) {tot st : Nat} {offs : List (CtrlNode × Nat)}
    (hall : ((mInfo.dirInRegs ++ ctrlRegs mInfo).all fun r => (regWidth? r).isSome) = true)
    (hoffs : getRegState rnd maxStateSize
      (optRegs mInfo maxStateSize σ ++ σ.toSeq (firstVecSet mInfo maxStateSize σ))
      (unCoveredCtrlSigs mInfo maxStateSize σ) = some (tot, st, offs)) :
    InstrCov.new σ mInfo maxStateSize rnd mName extModules covSumSize =
      (vecNameOffsets σ mInfo maxStateSize (offs.filter (isFirst mInfo maxStateSize σ))).bind
        fun names => (vectorOffsets mInfo maxStateSize names).bind fun vecs => some
          { mName, insts := σ.toSeq (mInfo.insts.filter fun i => i.module ∉ extModules), covSumSize,
            totBitWidth := tot, regStateSize := st,
            allOffsets :=
              offs.filter (fun t => !isFirst mInfo maxStateSize σ t) ++ σ.toSeq vecs } := by
  unfold InstrCov.new
  rw [if_pos hall]
  simp only [hoffs]
  rfl

/-- **The parts of a constructed pass.** -/
theorem new_parts {rnd : Nat → Nat} {mName : String} {extModules : List String} {covSumSize : Nat}
    {c : InstrCov}
    (hc : InstrCov.new σ mInfo maxStateSize rnd mName extModules covSumSize = some c) :
    ((mInfo.dirInRegs ++ ctrlRegs mInfo).all fun r => (regWidth? r).isSome) = true ∧
    ∃ offs names vecs,
      getRegState rnd maxStateSize
        (optRegs mInfo maxStateSize σ ++ σ.toSeq (firstVecSet mInfo maxStateSize σ))
        (unCoveredCtrlSigs mInfo maxStateSize σ) = some (c.totBitWidth, c.regStateSize, offs) ∧
      vecNameOffsets σ mInfo maxStateSize (offs.filter (isFirst mInfo maxStateSize σ)) =
        some names ∧
      vectorOffsets mInfo maxStateSize names = some vecs ∧
      c.allOffsets = offs.filter (fun t => !isFirst mInfo maxStateSize σ t) ++ σ.toSeq vecs := by
  unfold InstrCov.new at hc
  split at hc
  · rename_i hall
    simp only [Option.bind_eq_bind, Option.bind_eq_some_iff, Option.pure_def,
      Option.some.injEq] at hc
    obtain ⟨⟨tot, st, offs⟩, hoffs, names, hnames, vecs, hvecs, rfl⟩ := hc
    exact ⟨hall, offs, names, vecs, hoffs, hnames, hvecs, rfl⟩
  · cases hc

/-- Without vectors all offsets are those of `getRegState`. -/
theorem new_scalar {rnd : Nat → Nat} {mName : String} {extModules : List String} {covSumSize : Nat}
    {c : InstrCov} (hvec : mInfo.vecRegs = [])
    (hc : InstrCov.new σ mInfo maxStateSize rnd mName extModules covSumSize = some c) :
    getRegState rnd maxStateSize (optRegs mInfo maxStateSize σ)
      (unCoveredCtrlSigs mInfo maxStateSize σ) =
        some (c.totBitWidth, c.regStateSize, c.allOffsets) := by
  obtain ⟨_, offs, names, vecs, hoffs, hnames, hvecs, hall⟩ := new_parts hc
  have hseq : ∀ {α : Type}, σ.toSeq ([] : List α) = [] := fun {α} => (σ.perm []).eq_nil
  have hfirst : firstVecRegs mInfo maxStateSize σ = Dict.empty := by
    unfold firstVecRegs
    rw [hvec]
    show Dict.ofList (σ.toSeq []) = _
    rw [hseq]
    rfl
  have hset : firstVecSet mInfo maxStateSize σ = [] := by
    unfold firstVecSet
    rw [hfirst]
    rfl
  have hno : ∀ t, isFirst mInfo maxStateSize σ t = false := by
    intro t
    unfold isFirst
    rw [hset]
    cases t.1 <;> simp
  have hn : names = Dict.empty := by
    unfold vecNameOffsets at hnames
    rw [hfirst] at hnames
    exact (Option.some.inj hnames).symm
  have hv : vecs = [] := by
    rw [hn] at hvecs
    exact (Option.some.inj hvecs).symm
  rw [hall, hv, hseq, List.append_nil, List.filter_eq_self.mpr fun t _ => by simp [hno]]
  rw [hset, hseq, List.append_nil] at hoffs
  exact hoffs

end Parts

/-! ## 3. The value of the word -/

theorem clip_nat {x n : Nat} (h : x < 2 ^ n) : (GType.uint n).clip x = x := by
  show (x : Int) % 2 ^ n = x
  exact Int.emod_eq_of_lt (Int.natCast_nonneg x) (by exact_mod_cast h)

theorem pattern_nat {x n : Nat} (h : x < 2 ^ n) : GType.pattern n x = x := by
  unfold GType.pattern
  have := clip_nat h
  simp only [GType.clip] at this
  rw [this, Int.toNat_natCast]

/-- What a wire of an unsigned type reads as. -/
theorem exists_eval_ref (v : Sig → Int) (s : String) (n : Nat) :
    ∃ x : Nat, x < 2 ^ n ∧ eval v (.ref s (.uint n)) = x := by
  have h0 : 0 ≤ v [s] % 2 ^ n := Int.emod_nonneg _ (Int.pow_ne_zero (by decide))
  have hlt : v [s] % 2 ^ n < 2 ^ n := Int.emod_lt_of_pos _ (Int.pow_pos (by decide))
  refine ⟨(v [s] % 2 ^ n).toNat, ?_, (Int.toNat_of_nonneg h0).symm⟩
  exact_mod_cast (Int.toNat_of_nonneg h0).symm ▸ hlt

/-- The connects of a list of statements hold. -/
def Wired (v : Sig → Int) (ss : List Stmt) : Prop :=
  ∀ loc e, .connect loc e ∈ ss → v loc.sig = loc.tpe.clip (eval v e)

/-- The equation of a statement, if it is a connect. -/
def connected (v : Sig → Int) : Stmt → Bool
  | .connect loc e => decide (v loc.sig = loc.tpe.clip (eval v e))
  | _ => true

theorem wired_iff {v : Sig → Int} {ss : List Stmt} : ss.all (connected v) = true ↔ Wired v ss := by
  rw [List.all_eq_true]
  constructor
  · intro h loc e hs
    simpa [connected] using h _ hs
  · intro h s hs
    cases s with
    | connect loc e => simpa [connected] using h loc e hs
    | _ => rfl

instance (v : Sig → Int) (ss : List Stmt) : Decidable (Wired v ss) := decidable_of_iff _ wired_iff

theorem Wired.mono {v : Sig → Int} {ss ss' : List Stmt} (h : Wired v ss') (hs : ∀ s ∈ ss, s ∈ ss') :
    Wired v ss := fun loc e he => h loc e (hs _ he)

/-- A wire shows what is connected to it, as far as it has room. -/
theorem Wired.wire {v : Sig → Int} {ss : List Stmt} (h : Wired v ss) {s : String} {n x : Nat}
    {e : Expr} (hs : .connect (.ref s (.uint n)) e ∈ ss) (he : eval v e = x) (hx : x < 2 ^ n) :
    eval v (.ref s (.uint n)) = x := by
  show (GType.uint n).clip (v [s]) = x
  have hv : v [s] = (GType.uint n).clip (eval v e) := h _ _ hs
  rw [hv, he, clip_nat hx, clip_nat hx]

/-- XOR of two operands of the width of the result. -/
theorem eval_xor {v : Sig → Int} {a b : Expr} {n x y : Nat} (hta : a.tpe = .uint n)
    (htb : b.tpe = .uint n) (ha : eval v a = x) (hb : eval v b = y) (hx : x < 2 ^ n)
    (hy : y < 2 ^ n) : eval v (.doPrim2 .xor a b [] (.uint n)) = ((x ^^^ y : Nat) : Int) := by
  show (GType.uint n).clip (primEval2 .xor a.tpe b.tpe (eval v a) (eval v b)) = _
  rw [hta, htb, ha, hb]
  simp only [primEval2, GType.width, Nat.max_self]
  rw [pattern_nat hx, pattern_nat hy]
  exact clip_nat (Nat.xor_lt_two_pow hx hy)

namespace InstrCov

variable {c : InstrCov}

/-- **One signal**: the padded wire holds the signal, shifted to its offset. -/
theorem offset_value {v : Sig → Int} {name : String} {tpe : GType} {w off x : Nat}
    (hw : Wired v (c.offsetStmts name tpe w off)) (hfit : off + w ≤ c.regStateSize)
    (hx : eval v (.ref name tpe) = x) (hlt : x < 2 ^ w) :
    eval v (.ref (name ++ "_pad") (.uint c.regStateSize)) = ((x * 2 ^ off : Nat) : Int) := by
  have hroom : x * 2 ^ off < 2 ^ c.regStateSize := field_lt hlt hfit
  have hshl : eval v (.ref (name ++ "_shl") (.uint (w + off))) = ((x * 2 ^ off : Nat) : Int) := by
    refine hw.wire (e := .doPrim1 .shl (.ref name tpe) [off] (.uint c.regStateSize))
      (by simp [offsetStmts]) ?_ (field_lt hlt (Nat.le_of_eq (Nat.add_comm ..)))
    show (GType.uint c.regStateSize).clip (eval v (.ref name tpe) * 2 ^ off) = _
    rw [hx]
    exact_mod_cast clip_nat hroom
  -- the padding is zeros, or nothing at all
  by_cases hpad : (c.regStateSize : Int) - w - off = 0
  · refine hw.wire (e := .ref (name ++ "_shl") (.uint (w + off))) ?_ hshl hroom
    simp [offsetStmts, hpad]
  · refine hw.wire (e := .doPrim2 .cat (.uintLit 0 ((c.regStateSize : Int) - w - off).toNat)
      (.ref (name ++ "_shl") (.uint (w + off))) [] (.uint c.regStateSize)) ?_ ?_ hroom
    · simp [offsetStmts, hpad]
    · show (GType.uint c.regStateSize).clip (primEval2 .cat (.uint _) (.uint (w + off))
        ((GType.uint _).clip (0 : Nat)) (eval v (.ref (name ++ "_shl") (.uint (w + off))))) = _
      rw [hshl, Int.natCast_zero, GType.clip_zero]
      simp only [primEval2, GType.width]
      rw [pattern_nat (field_lt hlt (Nat.le_of_eq (Nat.add_comm ..)))]
      have hzero : GType.pattern ((c.regStateSize : Int) - w - off).toNat 0 = 0 := by
        simp [GType.pattern]
      rw [hzero, Nat.zero_mul, Nat.zero_add]
      exact clip_nat hroom

/-- The expression is a wire of the state width that shows `x`. -/
def ShowsWord (c : InstrCov) (v : Sig → Int) (e : Expr) (x : Nat) : Prop :=
  (∃ s, e = .ref s (.uint c.regStateSize)) ∧ eval v e = x

theorem ShowsWord.lt {v : Sig → Int} {e : Expr} {x : Nat} (h : c.ShowsWord v e x) :
    x < 2 ^ c.regStateSize := by
  obtain ⟨⟨s, rfl⟩, hx⟩ := h
  obtain ⟨y, hy, he⟩ := exists_eval_ref v s c.regStateSize
  rw [he] at hx
  have : y = x := by exact_mod_cast hx
  rwa [← this]

theorem ShowsWord.tpe {v : Sig → Int} {e : Expr} {x : Nat} (h : c.ShowsWord v e x) :
    e.tpe = .uint c.regStateSize := by
  obtain ⟨⟨s, rfl⟩, _⟩ := h
  rfl

/-- A wire that is driven by the XOR of two words. -/
theorem ShowsWord.xor {v : Sig → Int} {ss : List Stmt} (hw : Wired v ss) {s : String} {a b : Expr}
    {x y : Nat} (hs : .connect (.ref s (.uint c.regStateSize))
      (.doPrim2 .xor a b [] (.uint c.regStateSize)) ∈ ss) (ha : c.ShowsWord v a x)
    (hb : c.ShowsWord v b y) : c.ShowsWord v (.ref s (.uint c.regStateSize)) (x ^^^ y) :=
  ⟨⟨s, rfl⟩, hw.wire hs (eval_xor ha.tpe hb.tpe ha.2 hb.2 ha.lt hb.lt)
    (Nat.xor_lt_two_pow ha.lt hb.lt)⟩

/-- **The tree of XORs**: its top shows the XOR of its leaves. -/
theorem makeXor_value {v : Sig → Int} {refs : List Expr} {id : Nat} {top : Expr} {ss : List Stmt}
    (h : c.makeXor refs id = some (top, ss)) {xs : List Nat}
    (hx : List.Forall₂ (c.ShowsWord v) refs xs) (hw : Wired v ss) :
    c.ShowsWord v top (xorAll xs) := by
  revert xs
  refine reduceTree_ind (P := fun refs _ top ss => Wired v ss → ∀ {xs : List Nat},
    List.Forall₂ (c.ShowsWord v) refs xs → c.ShowsWord v top (xorAll xs)) ?_ ?_ ?_ h hw
  · intro r id _ xs hx
    cases hx with
    | cons hr hnil =>
        cases hnil
        simpa using hr
  · intro a b id hw xs hx
    cases hx with
    | cons ha hx =>
        cases hx with
        | cons hb hnil =>
            cases hnil
            simpa using ShowsWord.xor hw (by simp) ha hb
  · intro refs id r₁ s₁ r₂ s₂ _ ih₁ ih₂ hw xs hx
    have h₁ := ih₁ (hw.mono fun s hs => by simp [hs]) (List.forall₂_take (refs.length / 2) hx)
    have h₂ := ih₂ (hw.mono fun s hs => by simp [hs]) (List.forall₂_drop (refs.length / 2) hx)
    have := ShowsWord.xor (s := c.mName ++ "_xor" ++ toString id) hw (by simp) h₁ h₂
    rwa [← xorAll_append, List.take_append_drop] at this

/-- The wire of a tracked select is connected to it. -/
theorem tmpWires_connect {e : Expr} {n : String} (h : c.tmpWires.get? e = some n) :
    .connect (.ref n (.uint 1)) e ∈ c.tmpStmts := by
  unfold tmpWires at h
  rw [Dict.get?_ofList] at h
  obtain ⟨x, hx, he⟩ := List.mem_map.mp (List.mem_reverse.mp (Dict.mem_of_lookup h))
  cases he
  exact List.mem_flatMap.mpr ⟨x, hx, by simp⟩

theorem exists_tmpWire {e : Expr} (h : .expr e ∈ c.nodes) : ∃ n, c.tmpWires.get? e = some n := by
  refine Dict.get?_isSome_iff.mpr (Dict.mem_keys_ofList.mpr ?_)
  obtain ⟨t, ht, he⟩ := List.mem_map.mp h
  rw [List.map_map, Function.comp_def, List.zipIdx_map_fst]
  exact List.mem_filterMap.mpr ⟨t, ht, by simp [he]⟩

end InstrCov

namespace CtrlNode

/-- Registers of unsigned type and selects of one bit. -/
def Unsigned : CtrlNode → Prop
  | .reg r => ∃ w, r.tpe = .uint w
  | .expr e => e.isBit = true

theorem Unsigned.exists_value {n : CtrlNode} (h : n.Unsigned) (v : Sig → Int) :
    ∃ x : Nat, x < 2 ^ n.width ∧ n.value v = x := by
  cases n with
  | reg r =>
      obtain ⟨w, hw⟩ := h
      have hwidth : regWidth r = w := by
        unfold regWidth regWidth?
        rw [hw]
        rfl
      simp only [width, value, hwidth, hw]
      exact exists_eval_ref v r.name w
  | expr e =>
      rcases eval_isBit (v := v) h with h0 | h1
      · exact ⟨0, Nat.two_pow_pos _, h0⟩
      · exact ⟨1, Nat.one_lt_two_pow Nat.one_ne_zero, h1⟩

/-- The signal is found under the name that the offset logic uses. -/
theorem Unsigned.ctrlOf {c : InstrCov} {n : CtrlNode} (h : n.Unsigned) (hn : n ∈ c.nodes) :
    ∃ name tpe, c.ctrlOf n = some (name, tpe, n.width) ∧
      ∀ v, Wired v c.tmpStmts → eval v (.ref name tpe) = n.value v := by
  cases n with
  | reg r =>
      obtain ⟨w, hw⟩ := h
      have hwidth : regWidth? r = some w := by
        unfold regWidth?
        rw [hw]
      refine ⟨r.name, r.tpe, ?_, fun v _ => rfl⟩
      simp only [InstrCov.ctrlOf, width, regWidth, hwidth, Option.map_some, Option.getD_some]
  | expr e =>
      obtain ⟨name, hname⟩ := InstrCov.exists_tmpWire hn
      refine ⟨name, .uint 1, by simp [InstrCov.ctrlOf, width, hname], fun v hv => ?_⟩
      obtain ⟨x, hx, he⟩ := Unsigned.exists_value (n := .expr e) h v
      rw [he]
      exact hv.wire (InstrCov.tmpWires_connect hname) he hx

end CtrlNode

namespace InstrCov

variable {c : InstrCov}

/-- **The offset logic**: one padded wire for each signal, which shows the signal in its slot. -/
theorem makeOffset_value (hu : ∀ n ∈ c.nodes, n.Unsigned)
    (hfit : ∀ t ∈ c.allOffsets, t.2 + t.1.width ≤ c.regStateSize) :
    ∃ refs ss, c.makeOffset = some (refs, ss) ∧ refs.length = c.allOffsets.length ∧
      ∀ v, Wired v ss → List.Forall₂ (c.ShowsWord v) refs
        (c.allOffsets.map fun t => (t.1.value v).toNat * 2 ^ t.2) := by
  have hnode : ∀ t ∈ c.allOffsets, t.1 ∈ c.nodes := fun t ht => List.mem_map_of_mem ht
  have hsome : ∀ t ∈ c.allOffsets, ∃ y, ((c.ctrlOf t.1).map fun x =>
      (Expr.ref (x.1 ++ "_pad") (.uint c.regStateSize), c.offsetStmts x.1 x.2.1 x.2.2 t.2)) =
        some y := by
    intro t ht
    obtain ⟨name, tpe, hctrl, _⟩ := (hu t.1 (hnode t ht)).ctrlOf (hnode t ht)
    rw [hctrl]
    exact ⟨_, rfl⟩
  obtain ⟨l, hl⟩ := exists_mapM_iff.mpr hsome
  refine ⟨l.map (·.1), c.tmpStmts ++ l.flatMap (·.2), by simp [makeOffset, hl], ?_, fun v hv => ?_⟩
  · rw [List.length_map, (forall₂_of_mapM hl).length_eq]
  · rw [List.forall₂_map_left_iff, List.forall₂_map_right_iff]
    obtain ⟨hlen, hzip⟩ := List.forall₂_iff_zip.mp (forall₂_of_mapM hl)
    refine List.Forall₂.flip (List.forall₂_iff_zip.mpr ⟨hlen, fun {t y} hty => ?_⟩)
    obtain ⟨ht, hy⟩ := List.of_mem_zip hty
    obtain ⟨name, tpe, hctrl, hval⟩ := (hu t.1 (hnode t ht)).ctrlOf (hnode t ht)
    have he := hzip hty
    rw [hctrl, Option.map_some, Option.some.injEq] at he
    subst he
    obtain ⟨x, hlt, hx⟩ := (hu t.1 (hnode t ht)).exists_value v
    have href : eval v (.ref name tpe) = x := by
      rw [hval v (hv.mono fun s hs => List.mem_append_left _ hs), hx]
    have hstmts : Wired v (c.offsetStmts name tpe t.1.width t.2) := hv.mono fun s hs =>
      List.mem_append_right _ (List.mem_flatMap.mpr ⟨_, hy, hs⟩)
    refine ⟨⟨_, rfl⟩, ?_⟩
    rw [hx, Int.toNat_natCast]
    exact offset_value hstmts (hfit t ht) href hlt

/-- **The state word**: what is driven into the state register is the word of the signals. -/
theorem stateConnect_value (hu : ∀ n ∈ c.nodes, n.Unsigned)
    (hfit : ∀ t ∈ c.allOffsets, t.2 + t.1.width ≤ c.regStateSize) (hne : c.allOffsets ≠ []) :
    ∃ ss top, c.stateConnect =
        some (ss ++ [.connect (.ref c.regStateName (.uint c.regStateSize)) top]) ∧
      ∀ v, Wired v ss → c.ShowsWord v top (word (fun n => (n.value v).toNat) c.allOffsets) := by
  obtain ⟨refs, offsets, hoff, hlen, hrefs⟩ := makeOffset_value hu hfit
  have hne : refs ≠ [] := fun h => hne (List.length_eq_zero_iff.mp (by rw [← hlen, h]; rfl))
  obtain ⟨top, xors, hxor⟩ := reduceTree_isSome .xor c.regStateSize
    (fun i => c.mName ++ "_xor" ++ toString i) 0 hne (Nat.le_refl _)
  have hxor : c.makeXor refs 0 = some (top, xors) := hxor
  refine ⟨offsets ++ xors, top, ?_, fun v hv => ?_⟩
  · simp only [stateConnect, hoff, hxor, Option.bind_eq_bind, Option.bind_some, Option.pure_def]
  · exact makeXor_value hxor (hrefs v (hv.mono fun s hs => List.mem_append_left _ hs))
      (hv.mono fun s hs => List.mem_append_right _ hs)

/-- The coverage map is read and written at the state word. -/
theorem covMap_addr (clock : String) (port : String) (hp : port = "read" ∨ port = "write") :
    .connect (c.covField port "addr" (.uint c.regStateSize))
      (.ref c.regStateName (.uint c.regStateSize)) ∈ c.readConnect clock ++ c.writeConnect clock := by
  rcases hp with rfl | rfl
  · simp [readConnect]
  · simp [writeConnect]

end InstrCov

/-! ## 4. Modules without vectors -/

section Scalar

open Selection

variable {σ : SetOrder} {mInfo : ModuleInfo} {maxStateSize : Nat}

/-- Without vectors, the tracked signals are control registers and selects of muxes. -/
theorem new_unsigned {rnd : Nat → Nat} {mName : String} {extModules : List String}
    {covSumSize : Nat} {c : InstrCov} (hvec : mInfo.vecRegs = [])
    (huint : ∀ r ∈ mInfo.ctrlRegs, ∃ w, r.tpe = .uint w)
    (hsel : ∀ μ ∈ mInfo.muxSrcs.keys, μ.cond.isBit = true)
    (hc : InstrCov.new σ mInfo maxStateSize rnd mName extModules covSumSize = some c) :
    ∀ n ∈ c.nodes, n.Unsigned := by
  intro n hn
  have hnodes := (getRegState_spec (new_scalar hvec hc)).2
  unfold InstrCov.nodes at hn
  rw [hnodes] at hn
  split at hn
  · cases hn
  · rcases List.mem_append.mp hn with hn | hn
    · obtain ⟨r, hr, rfl⟩ := List.mem_map.mp hn
      have hr := (SetOrder.mem_toSeq σ).mp (List.mem_filter.mp hr).1
      exact huint r (mem_smallRegs.mp (scalaRegs_small hr)).1
    · obtain ⟨e, he, rfl⟩ := List.mem_map.mp hn
      have he := (SetOrder.mem_toSeq σ).mp (List.mem_filter.mp he).1
      obtain ⟨r, _, he⟩ := List.mem_flatMap.mp (List.mem_dedup.mp he)
      obtain ⟨μ, hμ, rfl⟩ := List.mem_map.mp he
      exact hsel μ.1 (List.mem_map_of_mem (List.mem_filter.mp hμ).1)

/-- **The state word is a faithful snapshot when it fits**: the slots cover the word bit by bit,
    and two valuations that drive the same word into the state register agree on every tracked
    signal. The word is the address at which the coverage map is read and written, and the map has
    a cell for each. -/
theorem stateWord_faithful (hvec : mInfo.vecRegs = [])
    (huint : ∀ r ∈ mInfo.ctrlRegs, ∃ w, r.tpe = .uint w)
    (hsel : ∀ μ ∈ mInfo.muxSrcs.keys, μ.cond.isBit = true)
    {rnd : Nat → Nat} {mName : String} {extModules : List String} {covSumSize : Nat} {c : InstrCov}
    (hc : InstrCov.new σ mInfo maxStateSize rnd mName extModules covSumSize = some c)
    (hpos : 1 ≤ c.totBitWidth) (hfit : c.totBitWidth ≤ maxStateSize) :
    c.regStateSize = c.totBitWidth ∧
    (∀ t ∈ c.allOffsets, t.2 + t.1.width ≤ c.totBitWidth) ∧
    (∀ k < c.totBitWidth, c.allOffsets.countP (inSlot CtrlNode.width k) = 1) ∧
    (∃ ss top, c.stateConnect =
        some (ss ++ [.connect (.ref c.regStateName (.uint c.regStateSize)) top]) ∧
      ∀ v w, Wired v ss → Wired w ss →
        (GType.uint c.regStateSize).clip (eval v top) =
          (GType.uint c.regStateSize).clip (eval w top) →
        ∀ n ∈ c.nodes, n.value v = n.value w) ∧
    (∀ clock, ∀ port ∈ ["read", "write"],
      .connect (c.covField port "addr" (.uint c.regStateSize))
        (.ref c.regStateName (.uint c.regStateSize)) ∈
          c.readConnect clock ++ c.writeConnect clock) ∧
    (maxStateSize ≤ 30 → c.covMapSize = 2 ^ c.regStateSize) := by
  obtain ⟨hsize, htiles⟩ := getRegState_tiles (new_scalar hvec hc) hfit
  have hu := new_unsigned hvec huint hsel hc
  have hslot : ∀ t ∈ c.allOffsets, t.2 + t.1.width ≤ c.regStateSize := fun t ht => by
    rw [hsize]
    exact (htiles.slot t ht).2
  have hne : c.allOffsets ≠ [] := by
    intro h
    rw [h] at htiles
    have : 0 = c.totBitWidth := htiles
    omega
  refine ⟨hsize, fun t ht => (htiles.slot t ht).2, fun k hk => htiles.covers (Nat.zero_le k) hk,
    ?_, fun clock port hp => c.covMap_addr clock port (by simpa using hp),
    fun h30 => InstrCov.covMapSize_eq (by omega) (by omega)⟩
  obtain ⟨ss, top, hst, hval⟩ := InstrCov.stateConnect_value hu hslot hne
  refine ⟨ss, top, hst, fun v w hv hw he n hn => ?_⟩
  have hnat : ∀ u, ∀ t ∈ c.allOffsets, (t.1.value u).toNat < 2 ^ t.1.width := by
    intro u t ht
    obtain ⟨x, hx, e⟩ := (hu t.1 (List.mem_map_of_mem ht)).exists_value u
    rwa [e, Int.toNat_natCast]
  -- the driven values are the words, which fit
  have hword : word (fun n => (n.value v).toNat) c.allOffsets =
      word (fun n => (n.value w).toNat) c.allOffsets := by
    rw [(hval v hv).2, (hval w hw).2, clip_nat (hval v hv).lt, clip_nat (hval w hw).lt] at he
    exact_mod_cast he
  obtain ⟨t, ht, rfl⟩ := List.mem_map.mp hn
  have heq := word_inj htiles (hnat v) (hnat w) hword t ht
  obtain ⟨x, _, hx⟩ := (hu t.1 hn).exists_value v
  obtain ⟨y, _, hy⟩ := (hu t.1 hn).exists_value w
  simp only [hx, hy, Int.toNat_natCast] at heq
  rw [hx, hy, heq]

end Scalar

/-- A module with a register of two bits that feeds two selects, and a large one that feeds one. -/
def snapDemo : Module where
  name := "Snap"
  ports := [⟨"clock", .input, .clock⟩, ⟨"out", .output, .uint 1⟩]
  body :=
    [.defRegister a, .defRegister big,
     .connect (.ref "a" (.uint 2)) (.doPrim1 .bits (.ref "big" (.uint 8)) [1, 0] (.uint 2)),
     .connect (.ref "big" (.uint 8)) (.doPrim1 .pad (.ref "a" (.uint 2)) [8] (.uint 8)),
     .connect (.ref "out" (.uint 1)) (.mux (.doPrim1 .orr (.ref "a" (.uint 2)) [] (.uint 1))
       (.mux (.doPrim1 .andr (.ref "a" (.uint 2)) [] (.uint 1)) (.uintLit 1 1) (.uintLit 0 1)
         (.uint 1))
       (.mux sel (.uintLit 1 1) (.uintLit 0 1) (.uint 1)) (.uint 1))]
where
  a : DefRegister :=
    ⟨.noInfo, "a", .uint 2, .ref "clock" .clock, .uintLit 0 1, .ref "a" (.uint 2)⟩
  big : DefRegister :=
    ⟨.noInfo, "big", .uint 8, .ref "clock" .clock, .uintLit 0 1, .ref "big" (.uint 8)⟩
  sel : Expr := .doPrim1 .orr (.ref "big" (.uint 8)) [] (.uint 1)

/-- The wires of the state word of `snapDemo`, for given values of its registers. -/
def snapDemo.val (a big : Int) : Sig → Int
  | ["a"] => a
  | ["big"] => big
  | ["mux_cond_0"] => if big = 0 then 0 else 1
  | ["a_shl"] => a
  | ["a_pad"] => a
  | ["mux_cond_0_shl"] => if big = 0 then 0 else 4
  | ["mux_cond_0_pad"] => if big = 0 then 0 else 4
  | ["Snap_xor0"] => if big = 0 then a else a + 4
  | _ => 0

/-- Its state word has three bits, and tells apart what the registers are told apart by. -/
theorem snapDemo_faithful :
    ∃ info c, ModuleInfo.ofModule .insertion (.module snapDemo) = some info ∧
      InstrCov.new .insertion info 4 (fun _ => 0) "Snap" [] 30 = some c ∧
      c.allOffsets = [(.reg snapDemo.a, 0), (.expr snapDemo.sel, 2)] ∧ c.totBitWidth = 3 ∧
      ∃ ss top, c.stateConnect =
          some (ss ++ [.connect (.ref c.regStateName (.uint c.regStateSize)) top]) ∧
        Wired (snapDemo.val 3 1) ss ∧ Wired (snapDemo.val 2 1) ss ∧
        (GType.uint c.regStateSize).clip (eval (snapDemo.val 3 1) top) ≠
          (GType.uint c.regStateSize).clip (eval (snapDemo.val 2 1) top) := by
  have hs : ∃ info, ModuleInfo.ofModule .insertion (.module snapDemo) = some info ∧
      info.vecRegs = [] ∧ info.ctrlRegs = [snapDemo.a, snapDemo.big] ∧
      (∀ μ ∈ info.muxSrcs.keys, μ.cond.isBit = true) ∧
      (InstrCov.new .insertion info 4 (fun _ => 0) "Snap" [] 30).map (fun c =>
        (c.allOffsets, c.totBitWidth, c.stateConnect.map fun ss =>
          decide (Wired (snapDemo.val 3 1) ss.dropLast ∧ Wired (snapDemo.val 2 1) ss.dropLast))) =
        some ([(.reg snapDemo.a, 0), (.expr snapDemo.sel, 2)], 3, some true) :=
    ⟨_, rfl, by decide, by decide, by decide, by decide⟩
  obtain ⟨info, hi, hvec, hregs, hsel, hc⟩ := hs
  rw [Option.map_eq_some_iff] at hc
  obtain ⟨c, hc, he⟩ := hc
  simp only [Prod.mk.injEq, Option.map_eq_some_iff, decide_eq_true_eq] at he
  obtain ⟨hoffs, htot, ss', hss', hv, hw⟩ := he
  have huint : ∀ r ∈ info.ctrlRegs, ∃ w, r.tpe = .uint w := by
    rw [hregs]
    intro r hr
    rcases List.mem_pair.mp hr with rfl | rfl
    · exact ⟨2, rfl⟩
    · exact ⟨8, rfl⟩
  obtain ⟨_, _, _, ⟨ss, top, hst, hinj⟩, _⟩ :=
    stateWord_faithful hvec huint hsel hc (by omega) (by omega)
  rw [hst, Option.some.injEq] at hss'
  subst hss'
  rw [List.dropLast_concat] at hv hw
  refine ⟨info, c, hi, hc, hoffs, htot, ss, top, hst, hv, hw, fun he => ?_⟩
  have := hinj _ _ hv hw he (.reg snapDemo.a) (by simp [InstrCov.nodes, hoffs])
  revert this
  decide

end Difuzz.Coverage
