/-
  File:      DifuzzRtl/Fuzzer/Minimizer.lean
  Subject:   The minimizer (Minimizer.py).

  For each part of a failing input the words are replaced by `nop` in windows that get smaller and smaller,
  and what still fails is kept. At the end the words that are `nop` are deleted.

  * `tmpMask` -- the windows; `Attempt`, `Search` -- what is tried, and what has been found so far.
  * `attempts`, `levels`, `minimizePart`, `minimizeInput` -- the loops, for any test of an input.
  * `windows_cover` -- the windows of a level cover every word once, and `make_nop` gets masks of the length
    of the part in every run.
  * `Harness` -- the compiler, the two simulators and the comparison; `Harness.test` -- the body of the
    loop. It unpacks three values, and `process` returns four.
  * `minimizeInput_raises` -- an input that is tried at all ends in an exception.
-/
import DifuzzRtl.Fuzzer.Run
import DifuzzRtl.Lib.Windows
import DifuzzRtl.Mutator.Assembly
import DifuzzRtl.Mutator.Deletion
import DifuzzRtl.Mutator.Interrupts
import DifuzzRtl.Mutator.Replay

namespace Difuzz.Fuzzer

open Text Mutator

/-! ## 1. The search -/

def numNop (lenMask i : Nat) : Nat := lenMask / min (2 ^ (i + 1)) lenMask

def numTest (lenMask i : Nat) : Nat := lenMask / numNop lenMask i

def rest (lenMask i : Nat) : Nat := numNop lenMask i + lenMask % numNop lenMask i

/-- `tmp_mask` before `min_mask` is taken into it. -/
def tmpMask (lenMask i j : Nat) : List Bool :=
  List.replicate (numNop lenMask i * j) false ++
    if j ≠ numTest lenMask i - 1 then
      List.replicate (numNop lenMask i) true ++
        List.replicate (lenMask - numNop lenMask i * (j + 1)) false
    else List.replicate (rest lenMask i) true

/-- `tmp_mask[n] = tup[0] | tup[1]`, as far as `zip` goes. -/
def orMask (tmpMask minMask : List Bool) : List Bool :=
  List.zipWith (· || ·) tmpMask minMask ++ tmpMask.drop minMask.length

/-- What is tried in a round of the innermost loop. -/
inductive Attempt where
  | window (mask : List Bool)
  | deletion
  deriving DecidableEq, Repr

/-- The rounds of a level; the last level of the suffix ends with a deletion. -/
def rounds (part : Part) (lenMask i : Nat) : List Attempt :=
  (List.range (numTest lenMask i)).map (fun j => .window (tmpMask lenMask i j)) ++
    if part = .suffixPart ∧ i + 1 = Nat.log2 lenMask then [.deletion] else []

/-- What a test shows: the two runs agree, they differ, nothing (`continue`), or that there is no point in
    going on (`break`). -/
inductive Verdict where
  | agree
  | differ
  | skip
  | stop
  deriving DecidableEq, Repr

/-- The variables of the search. -/
structure Search where
  minInput : SimInput
  minMask : List Bool
  tmpMask : List Bool
  data : List Int
  deriving DecidableEq

section Loops

variable (test : SimInput → List Int → Except Exn Verdict) (m : RvMutator)

/-- A test of what was tried; `false` for `break`. -/
def judge (st : Search) (tmpInput : SimInput) (data : List Int) : Except Exn (Search × Bool) := do
  let st := { st with data }
  match ← test tmpInput data with
  | .stop => return (st, false)
  | .differ => return ({ st with minInput := tmpInput, minMask := st.tmpMask }, true)
  | .agree | .skip => return (st, true)

/-- One round. -/
def attempt (part : Part) (st : Search) : Attempt → Mutator.Rand (Search × Bool)
  | .window mask => do
      let st := { st with tmpMask := orMask mask st.minMask }
      if st.tmpMask = st.minMask then return (st, true)
      else do
        let (tmpInput, data) ← lift (m.makeNop st.minInput st.tmpMask part)
        lift (judge test st tmpInput data)
  | .deletion => do
      let (tmpInput, data) ← m.deleteNop st.minInput
      lift (judge test st tmpInput data)

/-- The rounds of a level, up to a `break`. -/
def attempts (part : Part) : List Attempt → Search → Mutator.Rand Search
  | [], st => return st
  | a :: as, st => do
      let (st, more) ← attempt test m part st a
      if more then attempts part as st else return st

/-- The levels; what has been found is saved after each of them. -/
def levels (part : Part) (lenMask : Nat) : List Nat → Search × Option Text → Mutator.Rand (Search × Option Text)
  | [], st => return st
  | i :: is, (st, _) => do
      let st ← attempts test m part (rounds part lenMask i) st
      let file ← lift (st.minInput.save st.data)
      levels part lenMask is (st, some file)

/-- One part. `int(math.log(len_mask, 2))` is the number of levels. -/
def minimizePart (part : Part) (st : Search × Option Text) : Mutator.Rand (Search × Option Text) :=
  let lenMask := (st.1.minInput.part part).length
  if lenMask = 0 then return st
  else
    levels test m part lenMask (List.range (Nat.log2 lenMask))
      ({ st.1 with minMask := List.replicate lenMask false }, st.2)

def minimizeParts : List Part → Search × Option Text → Mutator.Rand (Search × Option Text)
  | [], st => return st
  | part :: parts, st => do minimizeParts parts (← minimizePart test m part st)

end Loops

/-- One saved input: the last file that is written for it. -/
def minimizeInput (test : Bool → SimInput → List Int → Except Exn Verdict) (m : RvMutator)
    (file : Text) : Mutator.Rand (Option Text × RvMutator) := do
  let ((simInput, data, assertIntr), m) ← m.readSiminput file
  let (_, minFile) ← minimizeParts (test assertIntr) m [.prefixPart, .mainPart, .suffixPart]
    (⟨simInput, [], [], data⟩, none)
  return (minFile, m)

/-! ## 2. The windows -/

section Windows

variable {n i j : Nat}

/-- Below the number of levels a window is an integer division by a power of two. -/
theorem numNop_eq (hi : i < Nat.log2 n) : numNop n i = n / 2 ^ (i + 1) ∧ 2 ^ (i + 1) ≤ n := by
  have hn : n ≠ 0 := by
    rintro rfl
    cases hi
  have hpow : 2 ^ (i + 1) ≤ n :=
    Nat.le_trans (Nat.pow_le_pow_right (by decide) hi) (Nat.log2_self_le hn)
  unfold numNop
  rw [Nat.min_eq_left hpow]
  exact ⟨rfl, hpow⟩

theorem numNop_bounds (hi : i < Nat.log2 n) : 0 < numNop n i ∧ numNop n i ≤ n := by
  obtain ⟨heq, hpow⟩ := numNop_eq hi
  rw [heq]
  exact ⟨Nat.div_pos hpow (Nat.two_pow_pos _), Nat.div_le_self ..⟩

/-- The masks of the source are those of windows with the rest at the end. -/
theorem tmpMask_eq (hj : j < numTest n i) : tmpMask n i j = windowMask n (numNop n i) j := by
  have hlast : j + 1 = n / numNop n i ↔ ¬ j ≠ numTest n i - 1 := by
    unfold numTest at hj ⊢
    omega
  unfold tmpMask windowMask
  simp only [hlast, ite_not]
  rfl

theorem length_tmpMask (hj : j < numTest n i) : (tmpMask n i j).length = n := by
  rw [tmpMask_eq hj]
  exact length_windowMask hj

theorem exists_mem_tmpMask (hi : i < Nat.log2 n) (hj : j < numTest n i) :
    ∃ k : Nat, (tmpMask n i j)[k]? = some true := by
  have hend := window_end_le hj
  have hpos := (numNop_bounds hi).1
  rw [Nat.mul_add, Nat.mul_one] at hend
  refine ⟨numNop n i * j, ?_⟩
  rw [tmpMask_eq hj, windowMask_true_iff hj, Nat.mul_add, Nat.mul_one]
  exact ⟨by omega, Nat.le_refl _, .inl (by omega)⟩

theorem length_orMask (a b : List Bool) : (orMask a b).length = a.length := by
  rw [orMask, List.length_append, List.length_zipWith, List.length_drop]
  omega

/-- **The next level** has windows that are no larger, except for the last one. -/
theorem count_tmpMask_le {j' : Nat} (hi : i + 1 < Nat.log2 n) (hj' : j' < numTest n (i + 1))
    (hlast : j' + 1 ≠ numTest n (i + 1)) (hj : j < numTest n i) :
    (tmpMask n (i + 1) j').count true ≤ (tmpMask n i j).count true := by
  have hsize : numNop n (i + 1) ≤ numNop n i := by
    rw [(numNop_eq hi).1, (numNop_eq (Nat.lt_of_succ_lt hi)).1]
    exact Nat.div_le_div_left (Nat.pow_le_pow_right (by decide) (by omega)) (Nat.two_pow_pos _)
  have hnot : ¬ j' + 1 = n / numNop n (i + 1) := hlast
  rw [tmpMask_eq hj', tmpMask_eq hj, count_windowMask, count_windowMask, if_neg hnot]
  split <;> omega

end Windows

/-- The mask and the part have as many entries as there are words. -/
def Search.Fits (st : Search) (part : Part) (n : Nat) : Prop :=
  (st.minInput.part part).length = n ∧ st.minMask.length = n

section Assertion

variable {test : SimInput → List Int → Except Exn Verdict} {m : RvMutator} {part : Part} {n : Nat}
  {st : Search}

/-- **One round** with a mask of the right length keeps the lengths, and no assertion fails. -/
theorem avoids_attempt (htest : ∀ s data, test s data ≠ .error .assertion) (hst : st.Fits part n)
    {mask : List Bool} (hmask : mask.length = n) :
    Avoids .assertion (attempt test m part st (.window mask)) fun r => r.1.Fits part n := by
  have hor : (orMask mask st.minMask).length = n := (length_orMask _ _).trans hmask
  refine Avoids.ite (fun _ => Avoids.logic.pure hst) fun _ => ?_
  refine Avoids.logic.bind (Avoids.lift (makeNop_ne_assertion (hst.1.trans hor.symm)) fun r hr => ?_)
    (Q := fun r => (r.1.part part).length = n) fun r hr => ?_
  · exact (makeNop_lengths hr part).trans hst.1
  · obtain ⟨tmpInput, data⟩ := r
    refine Avoids.lift (fun he => ?_) fun r hj => ?_
    · rcases Except.bind_error.mp he with he | ⟨v, _, he⟩
      · exact htest _ _ he
      · cases v <;> cases he
    · obtain ⟨v, _, hj⟩ := Except.bind_ok.mp hj
      cases v <;> cases hj
      · exact hst
      · exact ⟨hr, hor⟩
      · exact hst
      · exact hst

/-- All rounds of a level. -/
theorem avoids_attempts (htest : ∀ s data, test s data ≠ .error .assertion) {masks : List (List Bool)}
    (hmasks : ∀ mask ∈ masks, mask.length = n) (hst : st.Fits part n) :
    Avoids .assertion (attempts test m part (masks.map .window) st) fun st => st.Fits part n := by
  induction masks generalizing st with
  | nil => exact Avoids.logic.pure hst
  | cons mask masks ih =>
      refine Avoids.logic.bind (avoids_attempt htest hst (hmasks mask List.mem_cons_self)) fun r hr => ?_
      refine Avoids.ite (fun _ => ?_) fun _ => Avoids.logic.pure hr
      exact ih (fun x hx => hmasks x (List.mem_cons_of_mem _ hx)) hr

end Assertion

/-- **The windows of a level**: masks of the length of the part, none without a one, with each word in
    exactly one of them. No run over them fails the assertion of `make_nop`, whatever the tests show. On
    the next level the windows are no larger, except for the last one. -/
theorem windows_cover (n i : Nat) (hi : i < Nat.log2 n) :
    (∀ j < numTest n i, (tmpMask n i j).length = n ∧ ∃ k : Nat, (tmpMask n i j)[k]? = some true) ∧
    (∀ k < n, ∃! j, j < numTest n i ∧ (tmpMask n i j)[k]? = some true) ∧
    (∀ (test : SimInput → List Int → Except Exn Verdict) (m : RvMutator) (part : Part) (st : Search),
      (∀ s data, test s data ≠ .error .assertion) → st.Fits part n →
      Avoids .assertion (attempts test m part
        ((List.range (numTest n i)).map fun j => .window (tmpMask n i j)) st) fun st => st.Fits part n) ∧
    (i + 1 < Nat.log2 n → ∀ j' < numTest n (i + 1), j' + 1 ≠ numTest n (i + 1) → ∀ j < numTest n i,
      (tmpMask n (i + 1) j').count true ≤ (tmpMask n i j).count true) := by
  obtain ⟨hpos, hle⟩ := numNop_bounds hi
  refine ⟨fun j hj => ⟨length_tmpMask hj, exists_mem_tmpMask hi hj⟩, fun k hk => ?_,
    fun test m part st htest hst => ?_,
    fun hi' j' hj' hlast j hj => count_tmpMask_le hi' hj' hlast hj⟩
  · obtain ⟨j, ⟨hj, hmask⟩, huniq⟩ := existsUnique_window hpos hle hk
    refine ⟨j, ⟨hj, (tmpMask_eq hj).symm ▸ hmask⟩, fun j' hj' => huniq j' ⟨hj'.1, ?_⟩⟩
    rw [← tmpMask_eq hj'.1]
    exact hj'.2
  · have hmap : ((List.range (numTest n i)).map fun j => Attempt.window (tmpMask n i j)) =
        ((List.range (numTest n i)).map (tmpMask n i)).map .window := by
      rw [List.map_map]
      rfl
    rw [hmap]
    refine avoids_attempts htest (fun mask hmask => ?_) hst
    obtain ⟨j, hj, rfl⟩ := List.mem_map.mp hmask
    exact length_tmpMask (List.mem_range.mp hj)

theorem windows_cover_seven : 1 < Nat.log2 7 ∧ (∀ k < 7, ∃! j, j < numTest 7 1 ∧
    (tmpMask 7 1 j)[k]? = some true) :=
  ⟨by decide, (windows_cover 7 1 (by decide)).2.1⟩

/-! ## 3. The test of an input -/

/-- The values in the tuple that `process` returns. -/
inductive Value (Isa Rtl Sym : Type) where
  | isaInput (isa : Option Isa)
  | rtlInput (rtl : Option Rtl)
  | symbols (sym : Option Sym)
  | version (v : Template)

/-- Everything outside the fuzzer that a test depends on: the templates, the compiler, the two simulators
    and the comparison of their signatures. -/
structure Harness (Isa Rtl Sym : Type) where
  template : Template → List Text
  compile : Template → Bool → List Text → List Int → Except Exn (Option (Isa × Rtl × Sym))
  isaTimeout : Isa → Bool
  rtlTest : Rtl → Bool → Option Int
  check : Isa → Rtl → Option Sym → Bool

namespace Harness

variable {Isa Rtl Sym : Type} (h : Harness Isa Rtl Sym)

/-- `rvPreProcessor.process`. -/
def process (s : SimInput) (data : List Int) (intr : Bool) : Except Exn (List (Value Isa Rtl Sym)) := do
  let (assembly, _) ← Mutator.process s data (h.template s.template) 6
  match ← h.compile s.template intr assembly data with
  | some (isa, rtl, sym) =>
      return [.isaInput (some isa), .rtlInput (some rtl), .symbols (some sym), .version s.template]
  | none => return [.isaInput none, .rtlInput none, .symbols none, .version s.template]

/-- Both simulations and the comparison. After an interrupt the source passes `epc` to the call that it
    assigns `epc` from. -/
def compare (isa : Isa) (rtl : Rtl) (sym : Option Sym) (assertIntr : Bool) : Except Exn Verdict :=
  if h.isaTimeout isa then .ok .skip
  else
    match h.rtlTest rtl assertIntr with
    | none => .ok .stop
    | some ret =>
        if assertIntr ∧ ret = success then .error .unboundLocal
        else if (if ret = success then h.check isa rtl sym else decide (ret = illMem)) then .ok .agree
        else .ok .differ

/-- The body of the loop. A tuple that does not have three values cannot be unpacked into three names. -/
def test (assertIntr : Bool) (s : SimInput) (data : List Int) : Except Exn Verdict := do
  match ← h.process s data assertIntr with
  | [.isaInput isaInput, .rtlInput rtlInput, .symbols symbols] =>
      match isaInput, rtlInput with
      | some isa, some rtl => h.compare isa rtl symbols assertIntr
      | _, _ => return .stop
  | _ => throw .value

/-- `Minimize` for one saved input. -/
def minimize (m : RvMutator) (file : Text) : Mutator.Rand (Option Text × RvMutator) :=
  minimizeInput h.test m file

/-- **The oracle**: the text of the program and its data, compiled and run on both sides, show a
    mismatch. -/
def Fails (s : SimInput) (data : List Int) : Prop :=
  ∃ assembly ints isa rtl sym, Mutator.process s data (h.template s.template) 6 = .ok (assembly, ints) ∧
    h.compile s.template false assembly data = .ok (some (isa, rtl, sym)) ∧
    h.compare isa rtl (some sym) false = .ok .differ

end Harness

/-- The instructions of an input that are not `nop`. -/
def nonNops (s : SimInput) : Nat :=
  ([Part.prefixPart, .mainPart, .suffixPart].map fun part =>
    ((s.part part).flatMap (·.retInsts)).countP fun line => (readLine part line).1 ≠ nop).sum

/-- What `Minimize` should do for an input: no exception, and the last file that it writes is that of an
    input that still fails, with no more instructions. -/
def Minimizes {Isa Rtl Sym : Type} (h : Harness Isa Rtl Sym) (m : RvMutator) (world : World) (file : Text)
    (s : SimInput) : Prop :=
  ∃ minFile m' world', h.minimize m file world = .ok ((some minFile, m'), world') ∧
    ∃ s' data intr m'' world'', m'.readSiminput minFile world' = .ok (((s', data, intr), m''), world'') ∧
      h.Fails s' data ∧ nonNops s' ≤ nonNops s

section Raises

variable {Isa Rtl Sym : Type} {h : Harness Isa Rtl Sym} {m : RvMutator}

/-- **No test ends**: `process` returns four values, or raises by itself. -/
theorem Harness.test_raises (assertIntr : Bool) (s : SimInput) (data : List Int) (v : Verdict) :
    h.test assertIntr s data ≠ .ok v := by
  intro hv
  obtain ⟨tuple, htuple, hv⟩ := Except.bind_ok.mp hv
  obtain ⟨⟨assembly, _⟩, _, htuple⟩ := Except.bind_ok.mp htuple
  obtain ⟨compiled, _, htuple⟩ := Except.bind_ok.mp htuple
  cases compiled with
  | none =>
      cases htuple
      cases hv
  | some x =>
      obtain ⟨isa, rtl, sym⟩ := x
      cases htuple
      cases hv

section Loops

variable {test : SimInput → List Int → Except Exn Verdict} (htest : ∀ s data v, test s data ≠ .ok v)
  {part : Part} {st : Search}

include htest

/-- A window with a new word is tested. -/
theorem attempt_raises {mask : List Bool} (hnew : orMask mask st.minMask ≠ st.minMask) :
    Ensures (attempt test m part st (.window mask)) fun _ => False := by
  refine Ensures.ite (fun he => absurd he hnew) fun _ => Ensures.bind' fun r => ?_
  refine Ensures.lift fun r' hr => ?_
  obtain ⟨v, hv, _⟩ := Except.bind_ok.mp hr
  exact htest _ _ v hv

/-- The first window of the first level has a word. -/
theorem minimizePart_raises {minFile : Option Text} (hlen : 2 ≤ (st.minInput.part part).length) :
    Ensures (minimizePart test m part (st, minFile)) fun _ => False := by
  have hlevels : 0 < Nat.log2 (st.minInput.part part).length :=
    (Nat.le_log2 (by omega)).mpr (by omega)
  unfold minimizePart
  generalize (st.minInput.part part).length = n at hlen hlevels
  have htests : 0 < numTest n 0 := Nat.div_pos (numNop_bounds hlevels).2 (numNop_bounds hlevels).1
  refine Ensures.ite (fun h0 => absurd h0 (by omega)) fun _ => ?_
  obtain ⟨k, hk⟩ : ∃ k, Nat.log2 n = k + 1 := ⟨Nat.log2 n - 1, by omega⟩
  obtain ⟨j, hj⟩ : ∃ j, numTest n 0 = j + 1 := ⟨numTest n 0 - 1, by omega⟩
  rw [hk, List.range_succ_eq_map]
  refine Ensures.bind (Q := fun _ => False) ?_ fun _ hf => hf.elim
  unfold rounds
  rw [hj, List.range_succ_eq_map]
  refine Ensures.bind (Q := fun _ => False) (attempt_raises htest ?_) fun _ hf => hf.elim
  -- a one of the window is a one of the mask that is tried
  obtain ⟨p, hp⟩ := exists_mem_tmpMask hlevels htests
  have hlt : p < n := by
    rw [← length_tmpMask htests]
    exact (List.getElem?_eq_some_iff.mp hp).1
  intro he
  have hzero : (List.replicate n false)[p]? = some false := by
    rw [List.getElem?_replicate, if_pos hlt]
  have hor : (orMask (tmpMask n 0 0) (List.replicate n false))[p]? = some true := by
    rw [orMask, List.getElem?_append_left, List.getElem?_zipWith, hp, hzero]
    · rfl
    · rw [List.length_zipWith, length_tmpMask htests, List.length_replicate]
      omega
  rw [he, hzero] at hor
  cases hor

omit htest in
/-- A part of at most one word is left alone. -/
theorem minimizePart_short {minFile : Option Text} (hlen : (st.minInput.part part).length ≤ 1) :
    ∃ st', minimizePart test m part (st, minFile) = pure (st', minFile) ∧ st'.minInput = st.minInput := by
  unfold minimizePart
  generalize (st.minInput.part part).length = n at hlen
  rcases Nat.le_one_iff_eq_zero_or_eq_one.mp hlen with rfl | rfl
  · exact ⟨st, rfl, rfl⟩
  · exact ⟨_, rfl, rfl⟩

/-- **The search** raises if it comes to a part of at least two words. -/
theorem minimizeParts_raises {parts : List Part} {minFile : Option Text}
    (hlen : ∃ part ∈ parts, 2 ≤ (st.minInput.part part).length) :
    Ensures (minimizeParts test m parts (st, minFile)) fun _ => False := by
  induction parts generalizing st with
  | nil =>
      obtain ⟨part, hpart, -⟩ := hlen
      cases hpart
  | cons p parts ih =>
      by_cases hp : 2 ≤ (st.minInput.part p).length
      · exact Ensures.bind (minimizePart_raises htest hp) fun _ hf => hf.elim
      · obtain ⟨st', hshort, hinput⟩ : ∃ st', minimizePart test m p (st, minFile) = pure (st', minFile) ∧
            st'.minInput = st.minInput := minimizePart_short (Nat.le_of_lt_succ (Nat.not_le.mp hp))
        unfold minimizeParts
        rw [hshort, pure_bind]
        refine ih ?_
        obtain ⟨part, hpart, hlen⟩ := hlen
        rcases List.mem_cons.mp hpart with rfl | hpart
        · exact absurd hlen hp
        · exact ⟨part, hpart, hinput.symm ▸ hlen⟩

end Loops

/-- A part of at least two words is minimized, and its first test raises. -/
theorem minimizeInput_raises {test : Bool → SimInput → List Int → Except Exn Verdict}
    (htest : ∀ intr s data v, test intr s data ≠ .ok v) {file : Text} {world world' : World}
    {s : SimInput} {data : List Int} {intr : Bool} {m' : RvMutator}
    (hread : m.readSiminput file world = .ok (((s, data, intr), m'), world'))
    (hlen : ∃ part, 2 ≤ (s.part part).length) :
    ∃ e, minimizeInput test m file world = .error e := by
  rcases hrun : minimizeInput test m file world with e | ⟨r, world''⟩
  · exact ⟨e, rfl⟩
  · obtain ⟨⟨x, m₁⟩, world₁, hread', hrest⟩ := StateT.bind_ok.mp hrun
    rw [hread] at hread'
    cases hread'
    obtain ⟨found, world₂, hparts, -⟩ := StateT.bind_ok.mp hrest
    obtain ⟨part, hpart⟩ := hlen
    have hmem : part ∈ [Part.prefixPart, .mainPart, .suffixPart] := by cases part <;> decide
    exact (minimizeParts_raises (htest intr) ⟨part, hmem, hpart⟩ world' _ _ hparts).elim

/-- **No input with two words is minimized**: `Minimize` raises an exception, whatever the compiler, the
    simulators and the comparison do. -/
theorem not_minimizes (h : Harness Isa Rtl Sym) {file : Text} {world world' : World} {s : SimInput}
    {data : List Int} {intr : Bool} {m' : RvMutator}
    (hread : m.readSiminput file world = .ok (((s, data, intr), m'), world'))
    (hlen : ∃ part, 2 ≤ (s.part part).length) :
    (∃ e, h.minimize m file world = .error e) ∧ ¬ Minimizes h m world file s := by
  obtain ⟨e, he⟩ := minimizeInput_raises h.test_raises hread hlen
  refine ⟨⟨e, he⟩, fun hmin => ?_⟩
  obtain ⟨minFile, m₁, world₁, hrun, -⟩ := hmin
  have hrun' : minimizeInput h.test m file world = _ := hrun
  rw [he] at hrun'
  cases hrun'

end Raises

/-! ## 4. An input of two words -/

/-- A template without lines: what `process` needs of an input and its data. -/
theorem process_blank {s : SimInput} {data : List Int} (hword : ∀ part, ∀ w ∈ s.part part, w.populated = true)
    (hints : s.ints.length = s.mainLines.length) (hdata : data.length = 64 * 6) :
    ∃ ints, Mutator.process s data [] 6 = .ok ([], ints) := by
  have hne : data ≠ [] := by
    rintro rfl
    cases hdata
  have hsize : data.length / 6 = 64 := by rw [hdata]
  have hpow : 64 &&& (64 - 1) = 0 := by decide
  have hpre := @partInsts_eq .prefixPart _ (hword .prefixPart)
  have hsuf := @partInsts_eq .suffixPart _ (hword .suffixPart)
  obtain ⟨ints, hvalues⟩ := expandInts_ok (Nat.le_of_eq hints.symm)
  refine ⟨ints, ?_⟩
  unfold Mutator.process
  rw [hsize, if_neg hne, if_neg fun h => h hpow, SimInput.getPrefix, SimInput.getSuffix,
    getInsts_eq (hword .mainPart)]
  dsimp only [SimInput.part] at hpre hsuf
  rw [hpre, hsuf]
  show (do
    let ints ← expandInts (s.mainLines ++ [Part.mainPart.text ++ intText s.words.length ++ [':']]).dropLast
      s.ints
    pure (([] : List (List Text)).flatten, ints)) = Except.ok ([], ints)
  rw [List.dropLast_concat, hvalues]
  rfl

/-- What was read prints as many lines. -/
theorem length_mainLines_same {ws ws' : List Word} (h : List.Forall₂ SameWord ws ws') :
    (ws.map (·.retInsts)).flatten.length = (ws'.map (·.retInsts)).flatten.length := by
  induction h with
  | nil => rfl
  | cons hw _ ih =>
      rw [List.map_cons, List.map_cons, List.flatten_cons, List.flatten_cons, List.length_append,
        List.length_append, ih, ← List.length_map rstrip, ← hw.texts, List.length_map]

namespace Demo

def twoAdds : SimInput where
  prefixWords := []
  words := [Mutator.Demo.wordOf 0 "add a0, a0, a0", Mutator.Demo.wordOf 1 "add a1, a1, a1"]
  suffixWords := []
  ints := [0, 0]
  dataSeed := 0
  template := .pM

def zeros : List Int := List.replicate (64 * 6) 0

theorem wordOf_prints (n : Nat) (inst : String) :
    (Mutator.Demo.wordOf n inst).Prints .mainPart [ljust 42 inst.toList] :=
  ⟨rfl, rfl, List.cons_ne_nil _ _, rfl⟩

theorem twoAdds_saveable : Saveable twoAdds zeros := by
  refine ⟨⟨rfl, by decide, fun w hw => (nomatch hw)⟩, ⟨by decide, by decide, fun w hw => ?_⟩,
    ⟨rfl, by decide, fun w hw => (nomatch hw)⟩, rfl, by decide, by decide, fun d hd => ?_⟩
  · rcases List.mem_pair.mp hw with rfl | rfl
    · exact ⟨_, wordOf_prints _ _, List.forall_mem_singleton.mpr ⟨by decide, by decide, by decide⟩⟩
    · exact ⟨_, wordOf_prints _ _, List.forall_mem_singleton.mpr ⟨by decide, by decide, by decide⟩⟩
  · rw [List.eq_of_mem_replicate hd]
    decide

/-- Everything compiles, and every run on the RTL ends in an assertion. -/
def failing : Harness Unit Unit Unit where
  template _ := []
  compile _ _ _ _ := .ok (some ((), (), ()))
  isaTimeout _ := false
  rtlTest _ _ := some 1
  check _ _ _ := true

/-- The file of the input is read back as an input of two words that fails. -/
theorem twoAdds_read : ∃ s intr m', (RvMutator.new 1 1).readSiminput (savedLines twoAdds zeros).flatten
      ⟨[], none, none⟩ = .ok (((s, zeros, intr), m'), ⟨[], none, none⟩) ∧
    intr = false ∧ s.words.length = 2 ∧ failing.Fails s zeros := by
  obtain ⟨s, intr, m', hread, -, hpre, hwords, hsuf, hints, hintr⟩ :=
    readSiminput_savedLines twoAdds_saveable (m := RvMutator.new 1 1) (by decide) ⟨[], none, none⟩
  have hintr' : intr = false := by
    rw [Bool.eq_false_iff]
    exact fun h => absurd (hintr.mp h) (by decide)
  have hpopulated : ∀ {ws ws' : List Word}, List.Forall₂ SameWord ws ws' → ∀ w ∈ ws', w.populated = true :=
    fun h w hw => by
      obtain ⟨_, _, hsame⟩ := Forall₂.mem_right h hw
      exact hsame.populated
  have hword : ∀ part, ∀ w ∈ s.part part, w.populated = true := by
    intro part
    cases part with
    | prefixPart => exact hpopulated hpre
    | mainPart => exact hpopulated hwords
    | suffixPart => exact hpopulated hsuf
  have hlines : s.ints.length = s.mainLines.length := by
    rw [hints]
    exact length_mainLines_same hwords
  obtain ⟨ints, hprocess⟩ := process_blank hword hlines (List.length_replicate ..)
  exact ⟨s, intr, m', hread, hintr', hwords.length_eq.symm, [], ints, (), (), (), hprocess, rfl, rfl⟩

end Demo

/-- The input is read, and then the first test raises. -/
theorem not_minimizes_two : ∃ s intr m', (RvMutator.new 1 1).readSiminput
      (savedLines Demo.twoAdds Demo.zeros).flatten ⟨[], none, none⟩ =
        .ok (((s, Demo.zeros, intr), m'), ⟨[], none, none⟩) ∧
    ¬ Minimizes Demo.failing (RvMutator.new 1 1) ⟨[], none, none⟩
      (savedLines Demo.twoAdds Demo.zeros).flatten s := by
  obtain ⟨s, intr, m', hread, -, hlen, -⟩ := Demo.twoAdds_read
  exact ⟨s, intr, m', hread, (not_minimizes Demo.failing hread ⟨.mainPart, Nat.le_of_eq hlen.symm⟩).2⟩

/-- A saved input of two words, without interrupts, that fails: its minimization ends in an exception. -/
theorem minimize_unpacks : Saveable Demo.twoAdds Demo.zeros ∧
    ∃ file s m', Demo.twoAdds.save Demo.zeros = .ok file ∧
      (RvMutator.new 1 1).readSiminput file ⟨[], none, none⟩ =
        .ok (((s, Demo.zeros, false), m'), ⟨[], none, none⟩) ∧
      s.words.length = 2 ∧ Demo.failing.Fails s Demo.zeros ∧
      ∃ e, Demo.failing.minimize (RvMutator.new 1 1) file ⟨[], none, none⟩ = .error e := by
  obtain ⟨s, intr, m', hread, rfl, hlen, hfails⟩ := Demo.twoAdds_read
  exact ⟨Demo.twoAdds_saveable, _, s, m', save_eq Demo.twoAdds_saveable, hread, hlen, hfails,
    minimizeInput_raises Demo.failing.test_raises hread ⟨.mainPart, Nat.le_of_eq hlen.symm⟩⟩

end Difuzz.Fuzzer
