/-
  File:      DifuzzRtl/Coverage/Reduction.lean
  Subject:   The reduction trees of the passes (`makeXor` of coverage/InstrCov.scala and `makeOr` of
             coverage/InstrAssert.scala), from any start id.

  The ids are machine integers: the children of `id` are `2 * id + 1` and `2 * id + 2`, and both may wrap
  around. From a start id `s` the vertex with heap number `h` has the id `s * 2 ^ d + h`, where `d` is its
  depth. From -1 and -2 a child has the id of its parent.

  * `reduceFrom` -- the recursion on machine integers; `makeXorFrom`, `makeOrFrom`.
  * `idAt`, `reduceFrom_eq` -- the ids of the vertices, so that the trees are those of `reduceTree`.
  * `idAt_injective` -- where no id wraps, and the start is neither -1 nor -2, no id comes up twice.
  * `Reduces` -- what a reduction is: distinct wires, declared before they are used and connected once,
    and the value of the operands at the top.
  * `reductions_compute` -- both trees are reductions, and the coverage pass gives its tree an operand.
-/
import DifuzzRtl.Coverage.Names
import DifuzzRtl.Coverage.Ports
import DifuzzRtl.Coverage.Vectors

namespace Difuzz.Coverage

open Firrtl Selection

/-! ## 1. Ids -/

/-- `reduceTree` on machine integers, as the source has it. -/
def reduceFrom (op : PrimOp) (width : Nat) (wire : Int32 → String) :
    Nat → List Expr → Int32 → Option (Expr × List Stmt)
  | 0, _, _ => none
  | _ + 1, [], _ => none
  | _ + 1, [r], _ => some (r, [])
  | _ + 1, [a, b], id =>
      let w := Expr.ref (wire id) (.uint width)
      some (w, [.defWire (wire id) (.uint width), .connect w (.doPrim2 op a b [] (.uint width))])
  | fuel + 1, refs, id => do
      let (r₁, stmts₁) ← reduceFrom op width wire fuel (refs.take (refs.length / 2)) (2 * id + 1)
      let (r₂, stmts₂) ← reduceFrom op width wire fuel (refs.drop (refs.length / 2)) (2 * id + 2)
      let w := Expr.ref (wire id) (.uint width)
      return (w, stmts₁ ++ stmts₂ ++ [.defWire (wire id) (.uint width),
        .connect w (.doPrim2 op r₁ r₂ [] (.uint width))])

/-- `mName + s"_xor${id}"`. -/
def idWire (mName mid : String) (id : Int32) : String := mName ++ mid ++ toString id.toInt

/-- `makeXor`, from any start id. -/
def makeXorFrom (mName : String) (regStateSize : Nat) (padRefs : List Expr) (id : Int32) :
    Option (Expr × List Stmt) :=
  reduceFrom .xor regStateSize (idWire mName "_xor") padRefs.length padRefs id

/-- `makeOr`, from any start id. -/
def makeOrFrom (mName : String) (stopEns : List Expr) (id : Int32) : Option Expr × List Stmt :=
  match reduceFrom .or 1 (idWire mName "_or") stopEns.length stopEns id with
  | some (r, ss) => (some r, ss)
  | none => (none, [])

/-- The depth of a heap number. -/
def depth (h : Nat) : Nat := Nat.log2 (h + 1)

/-- The id of the vertex with a heap number. -/
def idAt (s : Int32) (h : Nat) : Int32 := s * Int32.ofNat (2 ^ depth h) + Int32.ofNat h

theorem depth_child {h c : Nat} (hc : c = 2 * h + 1 ∨ c = 2 * h + 2) : depth c = depth h + 1 := by
  unfold depth
  refine (Nat.log2_eq_iff (by omega)).mpr ?_
  obtain ⟨hle, hlt⟩ := (Nat.log2_eq_iff (n := h + 1) (by omega)).mp rfl
  rw [pow_succ, pow_succ, pow_succ]
  rw [pow_succ] at hlt
  omega

theorem idAt_zero (s : Int32) : idAt s 0 = s := by
  show s * 1 + 0 = s
  grind

theorem idAt_child (s : Int32) {h c : Nat} {k : Nat} (hk : k = 1 ∨ k = 2) (hc : c = 2 * h + k) :
    idAt s c = 2 * idAt s h + Int32.ofNat k := by
  have hd : depth c = depth h + 1 := depth_child (by omega)
  unfold idAt
  rw [hd, hc, pow_succ, Int32.ofNat_mul, Int32.ofNat_add, Int32.ofNat_mul]
  generalize Int32.ofNat (2 ^ depth h) = p
  generalize Int32.ofNat h = x
  have htwo : Int32.ofNat 2 = 2 := rfl
  rw [htwo]
  grind

/-- **The tree on machine integers** is the tree on heap numbers, with the ids in the names. -/
theorem reduceFrom_eq (op : PrimOp) (width : Nat) (wire : Int32 → String) (s : Int32) (fuel : Nat)
    (refs : List Expr) (h : Nat) : reduceFrom op width wire fuel refs (idAt s h) =
      reduceTree op width (fun h => wire (idAt s h)) fuel refs h := by
  induction fuel generalizing refs h with
  | zero => rfl
  | succ fuel ih =>
      have hl : 2 * idAt s h + 1 = idAt s (2 * h + 1) := (idAt_child s (k := 1) (.inl rfl) rfl).symm
      have hr : 2 * idAt s h + 2 = idAt s (2 * h + 2) := (idAt_child s (k := 2) (.inr rfl) rfl).symm
      match refs with
      | [] => rfl
      | [a] => rfl
      | [a, b] => rfl
      | a :: b :: c :: l => simp only [reduceFrom, reduceTree, hl, hr, ih]

/-- No id of a tree over `n` operands wraps around. -/
def IdsFit (s : Int32) (n : Nat) : Prop :=
  ∀ h ∈ treeIds n n 0, -2 ^ 31 ≤ s.toInt * 2 ^ depth h + h ∧ s.toInt * 2 ^ depth h + h < 2 ^ 31

instance (s : Int32) (n : Nat) : Decidable (IdsFit s n) :=
  inferInstanceAs (Decidable (∀ h ∈ treeIds n n 0, _))

theorem idAt_toInt {s : Int32} {h : Nat}
    (hfit : -2 ^ 31 ≤ s.toInt * 2 ^ depth h + h ∧ s.toInt * 2 ^ depth h + h < 2 ^ 31) :
    (idAt s h).toInt = s.toInt * 2 ^ depth h + h := by
  have hnat : ∀ n : Nat, (Int32.ofNat n).toInt = (n : Int).bmod (2 ^ 32) := fun n => Int32.toInt_ofNat'
  unfold idAt
  rw [Int32.toInt_add, Int32.toInt_mul, hnat, hnat, Int.bmod_add_bmod, Int.add_bmod_bmod,
    ← Int.bmod_add_bmod, Int.mul_bmod_bmod, Int.bmod_add_bmod]
  have hcast : s.toInt * ((2 ^ depth h : Nat) : Int) + (h : Int) = s.toInt * 2 ^ depth h + h := by
    push_cast
    rfl
  rw [hcast]
  exact Int.bmod_eq_of_le (by omega) (by omega)

/-- Rounding a number down to a multiple keeps it only if it is 0 or -1. -/
theorem ediv_pow_eq_self {a : Int} {k : Nat} (hk : k ≠ 0) (h : a / 2 ^ k = a) : a = 0 ∨ a = -1 := by
  have hpow : (2 : Int) ≤ 2 ^ k := by
    have hnat : 2 ^ 1 ≤ 2 ^ k := Nat.pow_le_pow_right (by decide) (by omega)
    exact_mod_cast hnat
  have hmul : a / 2 ^ k * 2 ^ k ≤ a := Int.ediv_mul_le a (by omega)
  have hlt : a < (a / 2 ^ k + 1) * 2 ^ k := Int.lt_ediv_add_one_mul_self a (by omega)
  rw [h] at hmul hlt
  by_contra hne
  rw [not_or] at hne
  rcases Int.lt_or_le a 0 with hneg | hpos
  · nlinarith [show a + 1 ≤ -1 by omega]
  · nlinarith [show 1 ≤ a by omega]

/-- **No id comes up twice**, from any start but -1 and -2, as long as no id wraps around. -/
theorem idAt_injective {s : Int32} (h₁ : s ≠ -1) (h₂ : s ≠ -2) {h h' : Nat}
    (hf : -2 ^ 31 ≤ s.toInt * 2 ^ depth h + h ∧ s.toInt * 2 ^ depth h + h < 2 ^ 31)
    (hf' : -2 ^ 31 ≤ s.toInt * 2 ^ depth h' + h' ∧ s.toInt * 2 ^ depth h' + h' < 2 ^ 31)
    (he : idAt s h = idAt s h') : h = h' := by
  have hval : s.toInt * 2 ^ depth h + h = s.toInt * 2 ^ depth h' + h' := by
    rw [← idAt_toInt hf, ← idAt_toInt hf', he]
  -- the start, read off the id of a vertex
  have hstart : ∀ k : Nat, (s.toInt * 2 ^ depth k + k + 1) / 2 ^ depth k = s.toInt + 1 := by
    intro k
    obtain ⟨hle, hlt⟩ := (Nat.log2_eq_iff (n := k + 1) (by omega)).mp rfl
    have hpos : (0 : Int) < 2 ^ depth k := Int.pow_pos (by decide)
    have hle' : (2 : Int) ^ depth k ≤ k + 1 := by exact_mod_cast hle
    have hlt' : (k : Int) + 1 < 2 ^ depth k * 2 := by
      rw [pow_succ] at hlt
      exact_mod_cast hlt
    rw [Int.ediv_eq_iff_of_pos hpos]
    constructor <;> nlinarith
  have hdepth : ∀ a b : Nat, depth a < depth b →
      s.toInt * 2 ^ depth a + a = s.toInt * 2 ^ depth b + b → False := by
    intro a b hlt hab
    have hsplit : (2 : Int) ^ depth b = 2 ^ depth a * 2 ^ (depth b - depth a) := by
      rw [← pow_add]
      congr 1
      omega
    have hround : (s.toInt + 1) / 2 ^ (depth b - depth a) = s.toInt + 1 := by
      have hb := hstart b
      rw [← hab, hsplit, ← Int.ediv_ediv_of_nonneg (Int.pow_nonneg (by decide)), hstart a] at hb
      exact hb
    have hne : ∀ t : Int32, s ≠ t → s.toInt ≠ t.toInt := fun t ht e => ht (Int32.toInt_inj.mp e)
    have hn₁ : s.toInt ≠ -1 := hne (-1) h₁
    have hn₂ : s.toInt ≠ -2 := hne (-2) h₂
    rcases ediv_pow_eq_self (by omega) hround with h | h <;> omega
  rcases Nat.lt_trichotomy (depth h) (depth h') with hlt | heq | hgt
  · exact absurd hval fun e => hdepth h h' hlt e
  · rw [heq] at hval
    omega
  · exact absurd hval.symm fun e => hdepth h' h hgt e

/-- The vertices of a tree over `n` operands are at depths with fewer vertices than operands. -/
theorem treeIds_depth {fuel n id : Nat} : ∀ h ∈ treeIds fuel n id,
    ∃ d, 2 ^ d < n ∧ h + 2 ≤ (id + 2) * 2 ^ d := by
  induction fuel generalizing n id with
  | zero => exact fun h hh => absurd hh List.not_mem_nil
  | succ fuel ih =>
      intro h hh
      unfold treeIds at hh
      split at hh
      · cases hh
      split at hh
      · rw [List.mem_singleton.mp hh]
        exact ⟨0, by omega, by omega⟩
      · simp only [List.mem_append, List.mem_singleton] at hh
        rcases hh with (hh | hh) | rfl
        · obtain ⟨d, hd, hle⟩ := ih h hh
          refine ⟨d + 1, by rw [pow_succ]; omega, ?_⟩
          rw [pow_succ]
          nlinarith [Nat.two_pow_pos d]
        · obtain ⟨d, hd, hle⟩ := ih h hh
          refine ⟨d + 1, by rw [pow_succ]; omega, ?_⟩
          rw [pow_succ]
          nlinarith [Nat.two_pow_pos d]
        · exact ⟨0, by omega, by omega⟩

/-- **From 0 no id wraps around**, for any list that has a machine integer as its length. -/
theorem idsFit_zero {n : Nat} (hn : n ≤ 2 ^ 31) : IdsFit 0 n := by
  intro h hh
  obtain ⟨d, hd, hle⟩ := treeIds_depth h hh
  have hzero : (0 : Int32).toInt = 0 := rfl
  have hpow : 2 ^ d ≤ 2 ^ 30 := by
    refine Nat.pow_le_pow_right (by decide) (Nat.lt_succ_iff.mp ?_)
    exact (Nat.pow_lt_pow_iff_right (a := 2) (by decide)).mp (Nat.lt_of_lt_of_le hd hn)
  rw [hzero, Int.zero_mul, Int.zero_add]
  constructor <;> omega

/-- The wiring only takes the names of its own vertices. -/
theorem reduceTree_congr {op : PrimOp} {width : Nat} {wire wire' : Nat → String} (fuel : Nat)
    {refs : List Expr} {h : Nat} (hlen : refs.length ≤ fuel)
    (he : ∀ k ∈ treeIds fuel refs.length h, wire k = wire' k) :
    reduceTree op width wire fuel refs h = reduceTree op width wire' fuel refs h := by
  induction fuel generalizing refs h with
  | zero => rfl
  | succ fuel ih =>
      match refs, hlen, he with
      | [], _, _ => rfl
      | [a], _, _ => rfl
      | [a, b], _, he =>
          have hw : wire h = wire' h := he h (by simp [treeIds])
          simp only [reduceTree, hw]
      | a :: b :: c :: l, hlen, he =>
          have hids : ∀ k, k ∈ treeIds (fuel + 1) (a :: b :: c :: l).length h ↔
              (k ∈ treeIds fuel ((a :: b :: c :: l).length / 2) (2 * h + 1) ∨
                k ∈ treeIds fuel ((a :: b :: c :: l).length - (a :: b :: c :: l).length / 2)
                  (2 * h + 2)) ∨ k = h := by
            intro k
            have hone : ¬ (a :: b :: c :: l).length ≤ 1 := by simp
            have htwo : ¬ (a :: b :: c :: l).length = 2 := by simp
            conv_lhs => rw [treeIds]
            rw [if_neg hone, if_neg htwo, List.mem_append, List.mem_append, List.mem_singleton]
          generalize hrefs : a :: b :: c :: l = refs at hlen he hids ⊢
          have hlong : 3 ≤ refs.length := by
            rw [← hrefs]
            simp
          have hl₁ : (refs.take (refs.length / 2)).length = refs.length / 2 := by
            rw [List.length_take]
            omega
          have hl₂ : (refs.drop (refs.length / 2)).length = refs.length - refs.length / 2 :=
            List.length_drop ..
          have h₁ := @ih (refs.take (refs.length / 2)) (2 * h + 1) (by omega)
            fun k hk => he k ((hids k).mpr (.inl (.inl (hl₁ ▸ hk))))
          have h₂ := @ih (refs.drop (refs.length / 2)) (2 * h + 2) (by omega)
            fun k hk => he k ((hids k).mpr (.inl (.inr (hl₂ ▸ hk))))
          have hw : wire h = wire' h := he h ((hids h).mpr (.inr rfl))
          subst hrefs
          simp only [reduceTree, h₁, h₂, hw]

/-- A machine integer as text. -/
theorem idWire_natCast {mName mid : String} {id : Int32} {h : Nat} (he : id.toInt = h) :
    idWire mName mid id = mName ++ mid ++ toString h := by
  unfold idWire
  rw [he]
  rfl

theorem wire_zero {mName mid : String} {n : Nat} (hn : n ≤ 2 ^ 31) :
    ∀ h ∈ treeIds n n 0, idWire mName mid (idAt 0 h) = mName ++ mid ++ toString h := by
  intro h hh
  refine idWire_natCast ?_
  have hzero : (0 : Int32).toInt = 0 := rfl
  rw [idAt_toInt (idsFit_zero hn h hh), hzero, Int.zero_mul, Int.zero_add]

/-- **From 0 the trees are those of the passes**, for any list that has a machine integer as its
    length. -/
theorem makeXorFrom_zero (c : InstrCov) {refs : List Expr} (hn : refs.length ≤ 2 ^ 31) :
    makeXorFrom c.mName c.regStateSize refs 0 = c.makeXor refs 0 := by
  unfold makeXorFrom InstrCov.makeXor
  conv_lhs => rw [← idAt_zero 0]
  rw [reduceFrom_eq]
  exact reduceTree_congr refs.length (Nat.le_refl _) (wire_zero hn)

theorem makeOrFrom_zero (mName : String) {refs : List Expr} (hn : refs.length ≤ 2 ^ 31) :
    makeOrFrom mName refs 0 = InstrAssert.makeOr mName refs 0 := by
  have htree : reduceFrom .or 1 (idWire mName "_or") refs.length refs 0 =
      reduceTree .or 1 (fun i => mName ++ "_or" ++ toString i) refs.length refs 0 := by
    conv_lhs => rw [← idAt_zero 0]
    rw [reduceFrom_eq]
    exact reduceTree_congr refs.length (Nat.le_refl _) (wire_zero hn)
  unfold makeOrFrom InstrAssert.makeOr
  exact htree ▸ rfl

/-! ## 2. What a reduction is -/

/-- The wires that statements declare. -/
def wires (ss : List Stmt) : List String := ss.filterMap Stmt.declName

/-- The component a connect drives. -/
def target : Stmt → Option String
  | .connect (.ref n _) _ => some n
  | _ => none

/-- The statements reduce the operands by `f`, with 0 as the value of no operand. -/
structure Reduces (f : Nat → Nat → Nat) (refs : List Expr) (r : Expr) (ss : List Stmt) : Prop where
  /-- No name is declared twice. -/
  distinct : (wires ss).Nodup
  /-- A wire is declared before a statement mentions it. -/
  first : ∀ pre s post, ss = pre ++ s :: post → ∀ n ∈ wires ss, [n] ∈ Stmt.refs s → n ∈ wires pre
  /-- A wire is connected once, and nothing else is. -/
  once : ∀ n, (ss.filterMap target).count n = if n ∈ wires ss then 1 else 0
  /-- The wires can take values under any valuation of everything else. -/
  settles : ∀ u : Sig → Int, ∃ v : Sig → Int,
    (∀ x, (∀ n ∈ wires ss, x ≠ [n]) → v x = u x) ∧ Wired v ss
  /-- The result is the reduction of the operands. -/
  value : ∀ v, Wired v ss → eval v r = ((refs.map fun e => (eval v e).toNat).foldr f 0 : Nat)

section Tree

variable {op : PrimOp} {width : Nat} {wire : Nat → String} {fuel : Nat} {refs : List Expr} {id : Nat}
  {r : Expr} {ss : List Stmt}

/-- Every signal a statement mentions is given, or declared by an earlier statement. -/
def DeclaredFirst (given : Sig → Prop) (ss : List Stmt) : Prop :=
  ∀ pre s post, ss = pre ++ s :: post → ∀ x ∈ Stmt.refs s, given x ∨ ∃ n ∈ wires pre, x = [n]

theorem wires_append (ss ts : List Stmt) : wires (ss ++ ts) = wires ss ++ wires ts :=
  List.filterMap_append

theorem DeclaredFirst.append {given : Sig → Prop} {ss ts : List Stmt} (hs : DeclaredFirst given ss)
    (ht : DeclaredFirst (fun x => given x ∨ ∃ n ∈ wires ss, x = [n]) ts) :
    DeclaredFirst given (ss ++ ts) := by
  intro pre s post he x hx
  rcases List.append_eq_append_iff.mp he with ⟨mid, hpre, hts⟩ | ⟨mid, hss, hpost⟩
  · -- the statement is one of the second list
    rw [hpre, wires_append]
    rcases ht mid s post hts x hx with (hg | ⟨n, hn, e⟩) | ⟨n, hn, e⟩
    · exact .inl hg
    · exact .inr ⟨n, List.mem_append_left _ hn, e⟩
    · exact .inr ⟨n, List.mem_append_right _ hn, e⟩
  · cases mid with
    | nil =>
        rw [List.append_nil] at hss
        subst hss
        rcases ht [] s post (by simpa using hpost.symm) x hx with h | ⟨n, hn, _⟩
        · exact h
        · cases hn
    | cons s' mid =>
        rw [List.cons_append, List.cons.injEq] at hpost
        obtain ⟨rfl, _⟩ := hpost
        exact hs pre s mid hss x hx

theorem DeclaredFirst.mono {given given' : Sig → Prop} {ss : List Stmt} (h : DeclaredFirst given ss)
    (hg : ∀ x, given x → given' x) : DeclaredFirst given' ss := fun pre s post he x hx =>
  (h pre s post he x hx).imp_left (hg x)

/-- A new wire, connected to an operation on signals that are there. -/
theorem declaredFirst_wire {given : Sig → Prop} {n : String} {t : GType} {e : Expr}
    (he : ∀ x ∈ e.refs, given x) :
    DeclaredFirst given [.defWire n t, .connect (.ref n t) e] := by
  intro pre s post hss x hx
  match pre, hss with
  | [], hss =>
      rw [List.nil_append, List.cons.injEq] at hss
      obtain ⟨rfl, _⟩ := hss
      cases hx
  | [s'], hss =>
      rw [List.singleton_append, List.cons.injEq, List.cons.injEq] at hss
      obtain ⟨rfl, rfl, _⟩ := hss
      rcases mem_refs_connect.mp hx with hx | hx
      · rw [List.mem_singleton.mp hx]
        exact .inr ⟨n, List.mem_singleton_self n, rfl⟩
      · exact .inl (he x hx)
  | s' :: s'' :: pre, hss => simp at hss

/-- **Wires are declared first**: what a statement mentions is an operand's or was declared above. -/
theorem reduceTree_first (h : reduceTree op width wire fuel refs id = some (r, ss)) :
    DeclaredFirst (fun x => ∃ e ∈ refs, x ∈ e.refs) ss ∧
    ∀ x ∈ r.refs, (∃ e ∈ refs, x ∈ e.refs) ∨ ∃ n ∈ wires ss, x = [n] := by
  refine reduceTree_ind (P := fun refs _ r ss => DeclaredFirst (fun x => ∃ e ∈ refs, x ∈ e.refs) ss ∧
    ∀ x ∈ r.refs, (∃ e ∈ refs, x ∈ e.refs) ∨ ∃ n ∈ wires ss, x = [n]) ?_ ?_ ?_ h
  · intro r id
    refine ⟨fun pre s post he => ?_, fun x hx => .inl ⟨r, List.mem_singleton_self r, hx⟩⟩
    simp at he
  · intro a b id
    refine ⟨declaredFirst_wire fun x hx => ?_, fun x hx => ?_⟩
    · rcases List.mem_append.mp hx with hx | hx
      · exact ⟨a, by simp, hx⟩
      · exact ⟨b, by simp, hx⟩
    · rw [List.mem_singleton.mp hx]
      exact .inr ⟨wire id, List.mem_cons_self, rfl⟩
  · intro refs id r₁ s₁ r₂ s₂ _ ih₁ ih₂
    have hleft : ∀ x, (∃ e ∈ refs.take (refs.length / 2), x ∈ e.refs) → ∃ e ∈ refs, x ∈ e.refs :=
      fun x h => h.imp fun e he => ⟨List.mem_of_mem_take he.1, he.2⟩
    have hright : ∀ x, (∃ e ∈ refs.drop (refs.length / 2), x ∈ e.refs) → ∃ e ∈ refs, x ∈ e.refs :=
      fun x h => h.imp fun e he => ⟨List.mem_of_mem_drop he.1, he.2⟩
    constructor
    · refine .append (.append (ih₁.1.mono hleft) (ih₂.1.mono fun x hx => .inl (hright x hx))) ?_
      refine declaredFirst_wire fun x hx => ?_
      rw [wires_append]
      rcases List.mem_append.mp hx with hx | hx
      · rcases ih₁.2 x hx with h | ⟨n, hn, e⟩
        · exact .inl (hleft x h)
        · exact .inr ⟨n, List.mem_append_left _ hn, e⟩
      · rcases ih₂.2 x hx with h | ⟨n, hn, e⟩
        · exact .inl (hright x h)
        · exact .inr ⟨n, List.mem_append_right _ hn, e⟩
    · intro x hx
      rw [List.mem_singleton.mp hx]
      refine .inr ⟨wire id, ?_, rfl⟩
      rw [wires_append]
      exact List.mem_append_right _ List.mem_cons_self

/-- Each wire is connected where it is declared. -/
theorem reduceTree_once (h : reduceTree op width wire fuel refs id = some (r, ss)) :
    ss.filterMap target = wires ss := by
  refine reduceTree_ind (P := fun _ _ _ ss => ss.filterMap target = wires ss) ?_ ?_ ?_ h
  · exact fun _ _ => rfl
  · exact fun _ _ _ => rfl
  · intro refs id r₁ s₁ r₂ s₂ _ ih₁ ih₂
    rw [wires_append, wires_append, List.filterMap_append, List.filterMap_append, ih₁, ih₂]
    rfl

/-- Connects only look at the signals they mention. -/
theorem Wired.congr {v w : Sig → Int} {ss : List Stmt} (hv : Wired v ss)
    (hloc : ∀ loc e, .connect loc e ∈ ss → ∃ n t, loc = .ref n t)
    (he : ∀ s ∈ ss, ∀ x ∈ Stmt.refs s, w x = v x) : Wired w ss := by
  intro loc e hs
  obtain ⟨n, t, rfl⟩ := hloc loc e hs
  have hn : w [n] = v [n] := he _ hs [n] (mem_refs_connect.mpr (.inl (List.mem_singleton_self [n])))
  have heval : eval w e = eval v e :=
    eval_congr fun x hx => he _ hs x (mem_refs_connect.mpr (.inr hx))
  show w [n] = t.clip (eval w e)
  rw [hn, heval]
  exact hv _ _ hs

/-- A name that is neither a wire nor in an operand is mentioned nowhere. -/
theorem reduceTree_far (h : reduceTree op width wire fuel refs id = some (r, ss)) {n : String}
    (hn : n ∉ wires ss) (hops : ∀ e ∈ refs, [n] ∉ e.refs) :
    (∀ s ∈ ss, [n] ∉ Stmt.refs s) ∧ [n] ∉ r.refs := by
  obtain ⟨hstmts, hr⟩ := reduceTree_first h
  constructor
  · intro s hs hx
    obtain ⟨pre, post, rfl⟩ := List.append_of_mem hs
    rcases hstmts pre s post rfl _ hx with ⟨e, he, hxe⟩ | ⟨n', hn', e⟩
    · exact hops e he hxe
    · cases e
      rw [wires_append] at hn
      exact hn (List.mem_append_left _ hn')
  · intro hx
    rcases hr _ hx with ⟨e, he, hxe⟩ | ⟨n', hn', e⟩
    · exact hops e he hxe
    · cases e
      exact hn hn'

/-- One more wire takes its value above signals that are settled. -/
theorem Wired.concat {v : Sig → Int} (hv : Wired v ss) {n : String} (k : Nat) {e : Expr}
    (hloc : ∀ loc e, .connect loc e ∈ ss → ∃ n t, loc = .ref n t)
    (hss : ∀ s ∈ ss, [n] ∉ Stmt.refs s) (he : [n] ∉ e.refs) :
    ∃ w : Sig → Int, (∀ x, x ≠ [n] → w x = v x) ∧
      Wired w (ss ++ [.defWire n (.uint k), .connect (.ref n (.uint k)) e]) := by
  refine ⟨Function.update v [n] ((GType.uint k).clip (eval v e)),
    fun x hx => Function.update_of_ne hx .., fun loc e' hs => ?_⟩
  rcases List.mem_append.mp hs with hs | hs
  · refine hv.congr hloc (fun s hs x hx => Function.update_of_ne (fun hxn => ?_) ..) _ _ hs
    exact hss s hs (hxn ▸ hx)
  · simp only [List.mem_cons, reduceCtorEq, Stmt.connect.injEq, List.not_mem_nil, or_false,
      false_or] at hs
    obtain ⟨rfl, rfl⟩ := hs
    have hsame : eval (Function.update v [n] ((GType.uint k).clip (eval v e'))) e' = eval v e' :=
      eval_congr fun x hx => Function.update_of_ne (fun hxn : x = [n] => he (hxn ▸ hx)) ..
    rw [hsame]
    exact Function.update_self ..

/-- **The wires can take values**: each the value of its operation, from the operands up. -/
theorem reduceTree_settles (h : reduceTree op width wire fuel refs id = some (r, ss))
    (hnd : (wires ss).Nodup) (hops : ∀ n ∈ wires ss, ∀ e ∈ refs, [n] ∉ e.refs) (u : Sig → Int) :
    ∃ v : Sig → Int, (∀ x, (∀ n ∈ wires ss, x ≠ [n]) → v x = u x) ∧ Wired v ss := by
  revert hnd hops u
  refine reduceTree_rec (P := fun refs _ r ss => (wires ss).Nodup →
    (∀ n ∈ wires ss, ∀ e ∈ refs, [n] ∉ e.refs) → ∀ u : Sig → Int, ∃ v : Sig → Int,
      (∀ x, (∀ n ∈ wires ss, x ≠ [n]) → v x = u x) ∧ Wired v ss) ?_ ?_ ?_ h
  · exact fun _ _ _ _ u => ⟨u, fun _ _ => rfl, fun _ _ hs => absurd hs List.not_mem_nil⟩
  · intro a b id _ hops u
    have hno := hops (wire id) List.mem_cons_self
    have hn : [wire id] ∉ (Expr.doPrim2 op a b [] (.uint width)).refs := by
      intro hx
      rcases List.mem_append.mp hx with hx | hx
      · exact hno a (by simp) hx
      · exact hno b (by simp) hx
    have hnil : Wired u [] := fun _ _ hs => absurd hs List.not_mem_nil
    obtain ⟨v, hv, hw⟩ := hnil.concat width (fun _ _ hs => absurd hs List.not_mem_nil)
      (fun _ hs => absurd hs List.not_mem_nil) hn
    exact ⟨v, fun x hx => hv x (hx _ List.mem_cons_self), hw⟩
  · intro fuel refs id r₁ s₁ r₂ s₂ _ h₁ h₂ ih₁ ih₂ hnd hops u
    have hwires : wires (s₁ ++ s₂ ++ [.defWire (wire id) (.uint width),
        .connect (.ref (wire id) (.uint width)) (.doPrim2 op r₁ r₂ [] (.uint width))]) =
        wires s₁ ++ wires s₂ ++ [wire id] := by
      rw [wires_append, wires_append]
      rfl
    rw [hwires] at hnd hops ⊢
    obtain ⟨hnd', _, hnew⟩ := List.nodup_append.mp hnd
    obtain ⟨hnd₁, hnd₂, hdis⟩ := List.nodup_append.mp hnd'
    have hleft : ∀ e ∈ refs.take (refs.length / 2), e ∈ refs := fun _ he => List.mem_of_mem_take he
    have hright : ∀ e ∈ refs.drop (refs.length / 2), e ∈ refs := fun _ he => List.mem_of_mem_drop he
    have hops₁ : ∀ n ∈ wires s₁, ∀ e ∈ refs, [n] ∉ e.refs := fun n hn =>
      hops n (List.mem_append_left _ (List.mem_append_left _ hn))
    have hops₂ : ∀ n ∈ wires s₂, ∀ e ∈ refs, [n] ∉ e.refs := fun n hn =>
      hops n (List.mem_append_left _ (List.mem_append_right _ hn))
    have hopsW : ∀ e ∈ refs, [wire id] ∉ e.refs :=
      hops _ (List.mem_append_right _ (List.mem_singleton_self _))
    have hW : wire id ∉ wires s₁ ++ wires s₂ := fun hn =>
      hnew _ hn _ (List.mem_singleton_self _) rfl
    -- the left half, then the right half, then the wire above them
    obtain ⟨v₁, hoff₁, hw₁⟩ := ih₁ hnd₁ (fun n hn e he => hops₁ n hn e (hleft e he)) u
    obtain ⟨v₂, hoff₂, hw₂⟩ := ih₂ hnd₂ (fun n hn e he => hops₂ n hn e (hright e he)) v₁
    have hw₁' : Wired v₂ s₁ := by
      refine hw₁.congr (fun loc e hs => ?_) fun s hs x hx => hoff₂ x fun n hn hxn => ?_
      · obtain ⟨n, t, hloc, _⟩ := reduceTree_targets h₁ loc e hs
        exact ⟨n, t, hloc⟩
      · subst hxn
        have hn₁ : n ∉ wires s₁ := fun hn₁ => hdis n hn₁ n hn rfl
        exact (reduceTree_far h₁ hn₁ fun e he => hops₂ n hn e (hleft e he)).1 s hs hx
    have hw : Wired v₂ (s₁ ++ s₂) := fun loc e hs =>
      (List.mem_append.mp hs).elim (hw₁' loc e) (hw₂ loc e)
    obtain ⟨hfar₁, hr₁⟩ := reduceTree_far h₁ (fun hn => hW (List.mem_append_left _ hn))
      fun e he => hopsW e (hleft e he)
    obtain ⟨hfar₂, hr₂⟩ := reduceTree_far h₂ (fun hn => hW (List.mem_append_right _ hn))
      fun e he => hopsW e (hright e he)
    obtain ⟨v, hoff, hwv⟩ := hw.concat width (e := .doPrim2 op r₁ r₂ [] (.uint width))
      (fun loc e hs => by
        rcases List.mem_append.mp hs with hs | hs
        · obtain ⟨n, t, hloc, _⟩ := reduceTree_targets h₁ loc e hs
          exact ⟨n, t, hloc⟩
        · obtain ⟨n, t, hloc, _⟩ := reduceTree_targets h₂ loc e hs
          exact ⟨n, t, hloc⟩)
      (fun s hs => (List.mem_append.mp hs).elim (hfar₁ s) (hfar₂ s))
      (fun hx => (List.mem_append.mp hx).elim hr₁ hr₂)
    refine ⟨v, fun x hx => ?_, hwv⟩
    have hx₁ : ∀ n ∈ wires s₁, x ≠ [n] := fun n hn =>
      hx n (List.mem_append_left _ (List.mem_append_left _ hn))
    have hx₂ : ∀ n ∈ wires s₂, x ≠ [n] := fun n hn =>
      hx n (List.mem_append_left _ (List.mem_append_right _ hn))
    have hxW : x ≠ [wire id] := hx _ (List.mem_append_right _ (List.mem_singleton_self _))
    exact (hoff x hxW).trans ((hoff₂ x hx₂).trans (hoff₁ x hx₁))

/-- A component of an unsigned type, no wider than the result. -/
def IsWord (width : Nat) (e : Expr) : Prop := ∃ n k, e = .ref n (.uint k) ∧ k ≤ width

theorem IsWord.eval {e : Expr} (h : IsWord width e) (v : Sig → Int) :
    ∃ k x : Nat, e.tpe = .uint k ∧ k ≤ width ∧ x < 2 ^ k ∧ Firrtl.eval v e = x := by
  obtain ⟨n, k, rfl, hk⟩ := h
  obtain ⟨x, hx, he⟩ := exists_eval_ref v n k
  exact ⟨k, x, rfl, hk, hx, he⟩

/-- The reduction of two lists, from those of each. -/
theorem foldr_split {f : Nat → Nat → Nat} [Std.Associative f] [Std.LawfulIdentity f 0]
    (l l' : List Nat) : (l ++ l').foldr f 0 = f (l.foldr f 0) (l'.foldr f 0) := by
  have hid : l'.foldr f 0 = f 0 (l'.foldr f 0) := (Std.LawfulLeftIdentity.left_id _).symm
  rw [List.foldr_append]
  conv_lhs => rw [hid]
  exact List.foldr_assoc

/-- **The value of the tree**, for an operation that computes an associative function with 0 as
    its identity. -/
theorem reduceTree_value {f : Nat → Nat → Nat} [Std.Associative f] [Std.LawfulIdentity f 0]
    (hlt : ∀ {x y n : Nat}, x < 2 ^ n → y < 2 ^ n → f x y < 2 ^ n)
    (hop : ∀ {x y k l : Nat}, x < 2 ^ k → y < 2 ^ l →
      primEval2 op (.uint k) (.uint l) x y = (f x y : Nat))
    (h : reduceTree op width wire fuel refs id = some (r, ss)) {v : Sig → Int} (hw : Wired v ss)
    (hops : ∀ e ∈ refs, IsWord width e) :
    IsWord width r ∧ eval v r = ((refs.map fun e => (eval v e).toNat).foldr f 0 : Nat) := by
  -- the wire of two words
  have hwire : ∀ {n : String} {a b : Expr} {x y : Nat} {ss : List Stmt}, Wired v ss →
      .connect (.ref n (.uint width)) (.doPrim2 op a b [] (.uint width)) ∈ ss →
      IsWord width a → IsWord width b → eval v a = x → eval v b = y →
      eval v (.ref n (.uint width)) = (f x y : Nat) := by
    intro n a b x y ss hw hs ha hb hx hy
    obtain ⟨k, x', hta, hk, hx', hax⟩ := ha.eval v
    obtain ⟨l, y', htb, hl, hy', hby⟩ := hb.eval v
    have hex : x' = x := by exact_mod_cast hax.symm.trans hx
    have hey : y' = y := by exact_mod_cast hby.symm.trans hy
    subst hex hey
    have hroom : f x' y' < 2 ^ width :=
      hlt (Nat.lt_of_lt_of_le hx' (Nat.pow_le_pow_right (by decide) hk))
        (Nat.lt_of_lt_of_le hy' (Nat.pow_le_pow_right (by decide) hl))
    refine hw.wire hs ?_ hroom
    show (GType.uint width).clip (primEval2 op a.tpe b.tpe (eval v a) (eval v b)) = _
    rw [hta, htb, hx, hy, hop hx' hy', clip_nat hroom]
  have hnat : ∀ {e : Expr}, IsWord width e → eval v e = ((eval v e).toNat : Nat) := by
    intro e he
    obtain ⟨_, x, _, _, _, hx⟩ := he.eval v
    rw [hx, Int.toNat_natCast]
  revert hw hops
  refine reduceTree_ind (P := fun refs _ r ss => Wired v ss → (∀ e ∈ refs, IsWord width e) →
    IsWord width r ∧ eval v r = ((refs.map fun e => (eval v e).toNat).foldr f 0 : Nat)) ?_ ?_ ?_ h
  · intro r id _ hops
    have hr := hops r (List.mem_singleton_self r)
    refine ⟨hr, (hnat hr).trans (congrArg _ ?_)⟩
    exact (@Std.LawfulRightIdentity.right_id _ _ f _ _ _).symm
  · intro a b id hw hops
    have ha := hops a (by simp)
    have hb := hops b (by simp)
    refine ⟨⟨_, _, rfl, Nat.le_refl _⟩,
      (hwire hw (by simp) ha hb (hnat ha) (hnat hb)).trans (congrArg _ ?_)⟩
    show _ = f _ (f _ 0)
    rw [@Std.LawfulRightIdentity.right_id _ _ f 0 _]
  · intro refs id r₁ s₁ r₂ s₂ _ ih₁ ih₂ hw hops
    obtain ⟨hr₁, hv₁⟩ := ih₁ (hw.mono fun s hs => by simp [hs])
      fun e he => hops e (List.mem_of_mem_take he)
    obtain ⟨hr₂, hv₂⟩ := ih₂ (hw.mono fun s hs => by simp [hs])
      fun e he => hops e (List.mem_of_mem_drop he)
    refine ⟨⟨_, _, rfl, Nat.le_refl _⟩,
      (hwire hw (by simp) hr₁ hr₂ hv₁ hv₂).trans (congrArg _ ?_)⟩
    rw [← foldr_split (f := f), ← List.map_append, List.take_append_drop]

end Tree

/-! ## 3. The trees of the passes -/

/-- The ids that the recursion over `n` operands comes to, the one of the top last. -/
def ids (s : Int32) (n : Nat) : List Int32 := (treeIds n n 0).map (idAt s)

/-- The operands are no wider than the result, and none has the name of a wire. -/
def Operands (width : Nat) (wire : Int32 → String) (s : Int32) (refs : List Expr) : Prop :=
  ∀ e ∈ refs, ∃ n k, e = .ref n (.uint k) ∧ k ≤ width ∧ n ∉ (ids s refs.length).map wire

theorem toString_int_inj {i j : Int} (h : toString i = toString j) : i = j := by
  have hminus : ∀ k n : Nat, toString k ≠ "-" ++ toString n := by
    intro k n he
    have hmem : '-' ∈ (toString k).toList := by
      rw [he, String.toList_append]
      exact List.mem_append_left _ (by decide)
    rw [Nat.toString_eq_repr, Nat.toList_repr] at hmem
    exact absurd (Nat.isDigit_of_mem_toDigits (by decide) (by decide) hmem) (by decide)
  cases i with
  | ofNat a =>
      cases j with
      | ofNat b => exact congrArg Int.ofNat (toString_inj h)
      | negSucc b => exact absurd h (hminus a (b + 1))
  | negSucc a =>
      cases j with
      | ofNat b => exact absurd h.symm (hminus b (a + 1))
      | negSucc b =>
          have hab : a + 1 = b + 1 := toString_inj ((String.append_right_inj "-").mp h)
          rw [Nat.succ.inj hab]

theorem idWire_injective {mName mid : String} {a b : Int32}
    (h : idWire mName mid a = idWire mName mid b) : a = b :=
  Int32.toInt_inj.mp (toString_int_inj ((String.append_right_inj _).mp h))

/-- **Ids without repetition**: from any start but -1 and -2, when no id wraps around. -/
theorem ids_nodup {s : Int32} {n : Nat} (h₁ : s ≠ -1) (h₂ : s ≠ -2) (hf : IdsFit s n) :
    (ids s n).Nodup :=
  (treeIds_nodup n n 0).map_on fun h hh h' hh' he => idAt_injective h₁ h₂ (hf h hh) (hf h' hh') he

section Machine

variable {op : PrimOp} {width : Nat} {wire : Int32 → String} {refs : List Expr} {s : Int32} {r : Expr}
  {ss : List Stmt}

theorem reduceFrom_root : reduceFrom op width wire refs.length refs s =
    reduceTree op width (fun h => wire (idAt s h)) refs.length refs 0 := by
  conv_lhs => rw [← idAt_zero s]
  exact reduceFrom_eq ..

theorem reduceFrom_wires (h : reduceFrom op width wire refs.length refs s = some (r, ss)) :
    wires ss = (ids s refs.length).map wire := by
  rw [reduceFrom_root] at h
  rw [ids, List.map_map]
  exact reduceTree_decls h (Nat.le_refl _)

/-- **One tree**: it is a reduction exactly when no id comes up twice. -/
theorem reduceFrom_reduces {f : Nat → Nat → Nat} [Std.Associative f] [Std.LawfulIdentity f 0]
    (hlt : ∀ {x y n : Nat}, x < 2 ^ n → y < 2 ^ n → f x y < 2 ^ n)
    (hop : ∀ {x y k l : Nat}, x < 2 ^ k → y < 2 ^ l →
      primEval2 op (.uint k) (.uint l) x y = (f x y : Nat))
    (hinj : ∀ {a b : Int32}, wire a = wire b → a = b) (hops : Operands width wire s refs)
    (h : reduceFrom op width wire refs.length refs s = some (r, ss)) :
    Reduces f refs r ss ↔ (ids s refs.length).Nodup := by
  have hwires := reduceFrom_wires h
  rw [reduceFrom_root] at h
  constructor
  · intro hr
    have hd := hr.distinct
    rw [hwires] at hd
    exact hd.of_map _
  · intro hnd
    have hd : (wires ss).Nodup := by
      rw [hwires]
      exact hnd.map_on fun _ _ _ _ he => hinj he
    have hno : ∀ n ∈ wires ss, ∀ e ∈ refs, [n] ∉ e.refs := by
      intro n hn e he hx
      obtain ⟨n', k, rfl, _, hn'⟩ := hops e he
      cases List.mem_singleton.mp hx
      rw [hwires] at hn
      exact hn' hn
    have hwords : ∀ e ∈ refs, IsWord width e := fun e he => by
      obtain ⟨n, k, he, hk, _⟩ := hops e he
      exact ⟨n, k, he, hk⟩
    refine ⟨hd, fun pre s post hss n hn hx => ?_, fun n => ?_, reduceTree_settles h hd hno,
      fun v hw => (reduceTree_value hlt hop h hw hwords).2⟩
    · rcases (reduceTree_first h).1 pre s post hss _ hx with ⟨e, he, hxe⟩ | ⟨n', hn', e⟩
      · exact absurd hxe (hno n hn e he)
      · cases e
        exact hn'
    · rw [reduceTree_once h]
      exact hd.count

theorem reduceFrom_isSome (hne : refs ≠ []) :
    ∃ r ss, reduceFrom op width wire refs.length refs s = some (r, ss) := by
  rw [reduceFrom_root]
  exact reduceTree_isSome _ _ _ _ hne (Nat.le_refl _)

end Machine

/-- **The state word has an operand**: a pass with a state word has a signal to track. -/
theorem makeOffset_ne_nil {σ : SetOrder} {d : DefModule} {mInfo : ModuleInfo} {maxStateSize : Nat}
    {rnd : Nat → Nat} {mName : String} {extModules : List String} {covSumSize : Nat} {c : InstrCov}
    (hinfo : ModuleInfo.ofModule σ d = some mInfo)
    (hc : InstrCov.new σ mInfo maxStateSize rnd mName extModules covSumSize = some c)
    (hsz : c.regStateSize ≠ 0) {refs : List Expr} {stmts : List Stmt}
    (h : c.makeOffset = some (refs, stmts)) : refs ≠ [] := by
  obtain ⟨offs, hoffs, hfirst, hall⟩ := mem_allOffsets hinfo hc
  have htot : c.totBitWidth ≠ 0 := by
    obtain ⟨_, ⟨_, h0, _⟩ | ⟨hne, _⟩ | ⟨hlt, _⟩⟩ := getRegState_cases hoffs
    · exact absurd h0 hsz
    · exact hne
    · omega
  have hnodes := (getRegState_all hoffs).1 htot
  -- something is laid out: it is kept, or it is the first element of a vector
  have hne : c.allOffsets ≠ [] := by
    have hex : ∃ t, t ∈ offs := by
      refine List.exists_mem_of_ne_nil offs fun h0 => htot ?_
      rw [(getRegState_cases hoffs).1, ← hnodes, h0]
      rfl
    obtain ⟨t, ht⟩ := hex
    cases hfirst' : isFirst mInfo maxStateSize σ t with
    | false => exact List.ne_nil_of_mem ((hall t).mpr (.inl ⟨ht, hfirst'⟩))
    | true =>
        obtain ⟨node, off⟩ := t
        cases node with
        | expr e => cases hfirst'
        | reg f =>
            have hf : f ∈ firstVecSet mInfo maxStateSize σ := by simpa [isFirst] using hfirst'
            obtain ⟨g, hg, hfg⟩ := mem_firstVecSet.mp hf
            obtain ⟨t, ht', rfl⟩ := kept_exists_vec hg
            have hsize := (recognised_vectors_real (ofModule_vecRegs hinfo) t ht').1
            obtain ⟨hfv, b, hb, hn⟩ := (mem_firstRegs hinfo).mp hfg
            have hel : (f.name, f) ∈ elements mInfo maxStateSize σ :=
              (mem_elements_iff hinfo).mpr ⟨t, ht', hg, hfv, b, hb, hn, 0, by omega, hn⟩
            exact List.ne_nil_of_mem
              ((hall (.reg f, off)).mpr (.inr ⟨f, hfv, rfl, f, hel, ht⟩))
  unfold InstrCov.makeOffset at h
  rw [Option.map_eq_some_iff] at h
  obtain ⟨l, hl, he⟩ := h
  cases he
  intro hnil
  have hlen := (forall₂_of_mapM hl).length_eq
  rw [List.map_eq_nil_iff.mp hnil] at hlen
  exact hne (List.length_eq_zero_iff.mp hlen)

/-- **What the trees compute.** From any start id the recursions over a list with operands end. Their
    statements are a reduction exactly when no id comes up twice, which is so from any start but -1
    and -2 as long as no id wraps around, and always from 0. The coverage pass only reduces lists with
    operands. -/
theorem reductions_compute :
    (∀ (mName : String) (width : Nat) (refs : List Expr) (s : Int32), refs ≠ [] →
      (∃ r ss, makeXorFrom mName width refs s = some (r, ss) ∧
        (Operands width (idWire mName "_xor") s refs →
          (Reduces (· ^^^ ·) refs r ss ↔ (ids s refs.length).Nodup))) ∧
      ∃ r ss, makeOrFrom mName refs s = (some r, ss) ∧
        (Operands 1 (idWire mName "_or") s refs →
          (Reduces (· ||| ·) refs r ss ↔ (ids s refs.length).Nodup))) ∧
    (∀ (s : Int32) (n : Nat), s ≠ -1 → s ≠ -2 → IdsFit s n → (ids s n).Nodup) ∧
    (∀ n ≤ 2 ^ 31, IdsFit 0 n) ∧
    ∀ (σ : SetOrder) (d : DefModule) (mInfo : ModuleInfo) (maxStateSize : Nat) (rnd : Nat → Nat)
      (mName : String) (extModules : List String) (covSumSize : Nat) (c : InstrCov),
      ModuleInfo.ofModule σ d = some mInfo →
      InstrCov.new σ mInfo maxStateSize rnd mName extModules covSumSize = some c →
      c.regStateSize ≠ 0 → ∀ refs stmts, c.makeOffset = some (refs, stmts) → refs ≠ [] := by
  refine ⟨fun mName width refs s hne => ⟨?_, ?_⟩, fun _ _ => ids_nodup, fun _ => idsFit_zero,
    fun _ _ _ _ _ _ _ _ _ hinfo hc hsz _ _ => makeOffset_ne_nil hinfo hc hsz⟩
  · obtain ⟨r, ss, h⟩ : ∃ r ss, reduceFrom .xor width (idWire mName "_xor") refs.length refs s = some (r, ss) :=
      reduceFrom_isSome hne
    refine ⟨r, ss, h, fun hops => reduceFrom_reduces Nat.xor_lt_two_pow ?_ idWire_injective hops h⟩
    intro x y k l hx hy
    have hk : x < 2 ^ max k l := Nat.lt_of_lt_of_le hx (Nat.pow_le_pow_right (by decide) (by omega))
    have hl : y < 2 ^ max k l := Nat.lt_of_lt_of_le hy (Nat.pow_le_pow_right (by decide) (by omega))
    simp only [primEval2, GType.width]
    rw [pattern_nat hk, pattern_nat hl]
  · obtain ⟨r, ss, h⟩ : ∃ r ss, reduceFrom .or 1 (idWire mName "_or") refs.length refs s = some (r, ss) :=
      reduceFrom_isSome hne
    refine ⟨r, ss, ?_, fun hops => reduceFrom_reduces Nat.or_lt_two_pow ?_ idWire_injective hops h⟩
    · unfold makeOrFrom
      rw [h]
    intro x y k l hx hy
    have hk : x < 2 ^ max k l := Nat.lt_of_lt_of_le hx (Nat.pow_le_pow_right (by decide) (by omega))
    have hl : y < 2 ^ max k l := Nat.lt_of_lt_of_le hy (Nat.pow_le_pow_right (by decide) (by omega))
    simp only [primEval2, GType.width]
    rw [pattern_nat hk, pattern_nat hl]

/-- A reference to a signal of one bit. -/
def bit (n : String) : Expr := .ref n (.uint 1)

theorem reductions_three : (∃ r ss, makeXorFrom "M" 1 [bit "a", bit "b", bit "c"] 0 = some (r, ss) ∧
      Reduces (· ^^^ ·) [bit "a", bit "b", bit "c"] r ss) ∧
    ∃ info c refs stmts, ModuleInfo.ofModule .insertion (.module (ringDemo (pairRegs 2 2))) =
      some info ∧ InstrCov.new .insertion info 20 (fun _ => 0) "Ring" [] 30 = some c ∧
      c.makeOffset = some (refs, stmts) ∧ refs ≠ [] := by
  constructor
  · obtain ⟨r, ss, h, hred⟩ := (reductions_compute.1 "M" 1 [bit "a", bit "b", bit "c"] 0
      (List.cons_ne_nil _ _)).1
    refine ⟨r, ss, h, (hred fun e he => ?_).mpr ?_⟩
    · have hno : ∀ n ∈ ["a", "b", "c"], n ∉ (ids 0 3).map (idWire "M" "_xor") := by decide
      have hn : ∃ n ∈ ["a", "b", "c"], e = bit n := by simpa using he
      obtain ⟨n, hn, rfl⟩ := hn
      exact ⟨n, 1, rfl, Nat.le_refl _, hno n hn⟩
    · exact reductions_compute.2.1 0 3 (by decide) (by decide)
        (reductions_compute.2.2.1 3 (by decide))
  · have hs : ∃ info, ModuleInfo.ofModule .insertion (.module (ringDemo (pairRegs 2 2))) =
        some info ∧ ((InstrCov.new .insertion info 20 (fun _ => 0) "Ring" [] 30).any fun c =>
          c.regStateSize ≠ 0 ∧ c.makeOffset.isSome) = true := ⟨_, rfl, by decide⟩
    obtain ⟨info, hi, hany⟩ := hs
    rw [Option.any_eq_true] at hany
    obtain ⟨c, hc, hok⟩ := hany
    obtain ⟨hsz, ho⟩ : c.regStateSize ≠ 0 ∧ c.makeOffset.isSome = true := by simpa using hok
    obtain ⟨⟨refs, stmts⟩, ho⟩ := Option.isSome_iff_exists.mp ho
    exact ⟨info, c, refs, stmts, hi, hc, ho,
      reductions_compute.2.2.2 .insertion _ info 20 _ "Ring" [] 30 c hi hc hsz refs stmts ho⟩

/-- **The other lists and starts.** From -2 one name is declared twice. An operand with the name of
    the wire closes a loop. Of an operand of two bits only one is taken. -/
theorem reductions_fail :
    (∃ r ss, makeXorFrom "M" 1 [bit "a", bit "b", bit "c"] (-2) = some (r, ss) ∧
      ¬ (wires ss).Nodup) ∧
    (∃ r ss, makeXorFrom "M" 1 [bit "a", bit "M_xor0"] 0 = some (r, ss) ∧
      ¬ Reduces (· ^^^ ·) [bit "a", bit "M_xor0"] r ss) ∧
    ∃ r ss, makeOrFrom "M" [.ref "a" (.uint 2), bit "b"] 0 = (some r, ss) ∧
      ¬ Reduces (· ||| ·) [.ref "a" (.uint 2), bit "b"] r ss := by
  refine ⟨⟨_, _, rfl, by decide⟩, ⟨_, _, rfl, fun h => ?_⟩, ⟨_, _, rfl, fun h => ?_⟩⟩
  · obtain ⟨v, hoff, hw⟩ := h.settles fun x => if x = ["a"] then 1 else 0
    have ha : v ["a"] = 1 := hoff ["a"] (by decide)
    have hname : idWire "M" "_xor" 0 = "M_xor0" := by decide
    have hm : v [idWire "M" "_xor" 0] = _ := hw _ _ (List.mem_cons_of_mem _ List.mem_cons_self)
    have heval : eval v (bit "a") = (1 : Nat) := by
      show (GType.uint 1).clip (v ["a"]) = _
      rw [ha]
      rfl
    obtain ⟨x, hx, hself⟩ : ∃ x : Nat, x < 2 ^ 1 ∧ eval v (bit "M_xor0") = x :=
      exists_eval_ref v "M_xor0" 1
    rw [hname, eval_xor rfl rfl heval hself (by decide) hx] at hm
    have hself' : (GType.uint 1).clip (v ["M_xor0"]) = x := hself
    rw [hm] at hself'
    -- the wire would be its own complement
    have hbit : x = 0 ∨ x = 1 := by omega
    rcases hbit with rfl | rfl
    · exact absurd hself' (by decide)
    · exact absurd hself' (by decide)
  · have hv := h.value (fun x => if x = ["a"] then 2 else 0) (by decide)
    revert hv
    decide

end Difuzz.Coverage
