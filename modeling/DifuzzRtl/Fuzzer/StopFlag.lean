/-
  File:      DifuzzRtl/Fuzzer/StopFlag.lean
  Subject:   The state that a batch reports at its end.

  The cell `stop_flag[0]` is written by the timer, by a failing run of the instruction set simulator and
  by a failing compilation. The first one is taken back, the second one stays until a later timer fires.

  * `Iter.isaRuns` -- the runs of the instruction set simulator in an iteration.
  * `testInput_stopFlag`, `fuzzFrom_stopFlag` -- the cell after an iteration and after a batch.
  * `Recovers` -- every run that fails is followed by one that times out.
  * `normal_iff` -- the batch reports NORMAL exactly then.
-/
import DifuzzRtl.Fuzzer.Run

namespace Difuzz.Fuzzer

open Mutator Prog

/-! ## 1. The runs of the simulator -/

/-- The run is in order. -/
def IsaOutcome.Ok (r : IsaOutcome) : Prop := r.timedOut = false ∧ r.exitCode = 0

instance (r : IsaOutcome) : Decidable r.Ok := inferInstanceAs (Decidable (_ ∧ _))

/-- The run fails, and the timer does not fire. -/
def IsaOutcome.Fails (r : IsaOutcome) : Prop := r.timedOut = false ∧ r.exitCode ≠ 0

/-- The template is one with an RTL run. -/
def Iter.UsesRtl (it : Iter) : Prop := it.simInput.template ≠ .vU ∧ it.simInput.template ≠ .pt

instance (it : Iter) : Decidable it.UsesRtl := inferInstanceAs (Decidable (_ ∧ _))

/-- The interrupt is taken, and the simulator runs again. -/
def Iter.TakesIntr (it : Iter) : Prop :=
  it.isa.Ok ∧ it.UsesRtl ∧ (it.assertIntr = true ∧ it.rtlRet = success) ∧ it.epc ≠ 0

instance (it : Iter) : Decidable it.TakesIntr := inferInstanceAs (Decidable (_ ∧ _))

/-- The runs of the simulator after a compilation. -/
def Iter.isaRuns (it : Iter) : List IsaOutcome :=
  it.isa :: if it.TakesIntr then [it.isaIntr] else []

/-- The cell after some runs. -/
def stopAfter (stop : ProcState) (rs : List IsaOutcome) : ProcState :=
  rs.foldl (fun stop r => (runIsaTest stop r).2) stop

theorem runIsaTest_ne_timeout (stop : ProcState) (r : IsaOutcome) :
    (runIsaTest stop r).2 ≠ .errIsaTimeout := by
  unfold runIsaTest
  generalize (if r.timedOut = true then ProcState.errIsaTimeout else stop) = stop
  by_cases h : stop = .errIsaTimeout
  · simp [h]
  · by_cases he : r.exitCode = 0
    · simp [h, he]
    · simp [h, he]

theorem runIsaTest_normal_iff {stop : ProcState} (h : stop ≠ .errIsaTimeout) (r : IsaOutcome) :
    (runIsaTest stop r).1 = .normal ↔ r.Ok := by
  unfold runIsaTest IsaOutcome.Ok
  cases r.timedOut with
  | true => simp
  | false =>
      by_cases he : r.exitCode = 0
      · simp [h, he]
      · simp [h, he]

/-! ## 2. The cell along an iteration -/

/-- A state that is reported. -/
def reported : Happens → Option (Nat × ProcState)
  | ⟨.act (.setState procNum state), _⟩ => some (procNum, state)
  | _ => none

section Phases

variable (o : Options) (i : Nat) (it : Iter) (s : Local)

theorem guide_stopFlag : Shows reported (guide o i it s) fun l s' => l = [] ∧ s'.stopFlag = s.stopFlag := by
  unfold guide
  split <;> simp [reported, numberOf, takeNum, readNum, writeNum, recordMismatch, saveMismatch]

theorem nemuTest_stopFlag : Shows reported (nemuTest o i it s) fun l s' => l = [] ∧ s'.stopFlag = s.stopFlag := by
  unfold nemuTest
  simp [reported, recordMismatch, saveMismatch, guide_stopFlag]

theorem reportMismatch_stopFlag :
    Shows reported (reportMismatch o i it s) fun l s' => l = [] ∧ s'.stopFlag = s.stopFlag := by
  have hnemu : ∀ n, Shows reported (nemuTest o i it { s with mismatchCount := n + 1 }) fun l s' =>
      l = [] ∧ s'.stopFlag = s.stopFlag := fun n => nemuTest_stopFlag o i it _
  unfold reportMismatch
  simp [reported, numberOf, takeNum, readNum, writeNum, recordMismatch, saveMismatch, hnemu]

theorem verify_stopFlag : Shows reported (verify o i it s) fun l s' => l = [] ∧ s'.stopFlag = s.stopFlag := by
  have hnemu : Shows reported (nemuTest o i it { s with illegalCount := s.illegalCount + 1 }) fun l s' =>
      l = [] ∧ s'.stopFlag = s.stopFlag := nemuTest_stopFlag o i it _
  unfold verify
  simp [reported, recordMismatch, saveMismatch, nemuTest_stopFlag, reportMismatch_stopFlag, hnemu]

theorem emuBranch_stopFlag : Shows reported (emuBranch o it s) fun l s' => l = [] ∧ s'.stopFlag = s.stopFlag := by
  unfold emuBranch emuTest
  simp [reported, saveMismatch]

theorem rtlBranch_stopFlag : Shows reported (rtlBranch o i it s) fun l s' => l = [] ∧ s'.stopFlag =
    if (it.assertIntr = true ∧ it.rtlRet = success) ∧ it.epc ≠ 0 then
      (runIsaTest s.stopFlag it.isaIntr).2 else s.stopFlag := by
  unfold rtlBranch
  rw [shows_bind, shows_act]
  split
  · rename_i hintr
    split
    · rename_i hepc
      rw [if_pos ⟨hintr, hepc⟩]
      dsimp only
      split
      · exact shows_pure.mpr ⟨rfl, rfl⟩
      · exact verify_stopFlag o i it _
    · rename_i hepc
      rw [if_neg fun h => hepc h.2]
      exact shows_pure.mpr ⟨rfl, rfl⟩
  · rename_i hintr
    rw [if_neg fun h => hintr h.1]
    exact verify_stopFlag o i it s

/-- **The cell after an iteration.** -/
theorem testInput_stopFlag (hs : s.stopFlag ≠ .errIsaTimeout) :
    Shows reported (testInput o i it s) fun l s' => l = [] ∧ s'.stopFlag = stopAfter s.stopFlag it.isaRuns := by
  have hok := runIsaTest_normal_iff hs it.isa
  unfold testInput Iter.isaRuns
  dsimp only
  by_cases hisa : it.isa.Ok
  · rw [if_neg (not_not.mpr (hok.mpr hisa))]
    split
    · rename_i hrtl
      refine (rtlBranch_stopFlag o i it _).mono fun l s' h => ⟨h.1, ?_⟩
      rw [h.2]
      by_cases hintr : (it.assertIntr = true ∧ it.rtlRet = success) ∧ it.epc ≠ 0
      · have htakes : it.TakesIntr := ⟨hisa, hrtl, hintr⟩
        rw [if_pos hintr, if_pos htakes]
        rfl
      · have htakes : ¬ it.TakesIntr := fun h => hintr h.2.2
        rw [if_neg hintr, if_neg htakes]
        rfl
    · rename_i hrtl
      have htakes : ¬ it.TakesIntr := fun h => hrtl h.2.1
      rw [if_neg htakes]
      exact emuBranch_stopFlag o it _
  · have htakes : ¬ it.TakesIntr := fun h => hisa h.1
    rw [if_pos fun h => hisa (hok.mp h), if_neg htakes]
    exact shows_pure.mpr ⟨rfl, rfl⟩

end Phases

/-! ## 3. The cell along a batch -/

section Batch

variable {o : Options} {its : List Iter}

/-- The runs of the simulator in iterations that all compile. -/
def isaRuns (its : List Iter) : List IsaOutcome := its.flatMap Iter.isaRuns

theorem stopAfter_ne_timeout {stop : ProcState} (h : stop ≠ .errIsaTimeout) (rs : List IsaOutcome) :
    stopAfter stop rs ≠ .errIsaTimeout := by
  induction rs generalizing stop with
  | nil => exact h
  | cons r rs ih => exact ih (runIsaTest_ne_timeout stop r)

/-- **The cell after a batch** in which all inputs compile. -/
theorem fuzzFrom_stopFlag (hits : ∀ it ∈ its, it.compiled = true)
    (i : Nat) {s : Local} (hs : s.stopFlag ≠ .errIsaTimeout) :
    Shows reported (fuzzFrom o i its s) fun l s' => l = [] ∧ s'.stopFlag = stopAfter s.stopFlag (isaRuns its) := by
  induction its generalizing i s with
  | nil => exact shows_pure.mpr ⟨rfl, rfl⟩
  | cons it its ih =>
      have hrest := fun it' h => hits it' (List.mem_cons_of_mem _ h)
      have hcorpus : Shows reported (updateCorpus o i) fun l _ => l = [] := by
        simp [updateCorpus, reported]
      rw [fuzzFrom, iteration, if_pos (hits it List.mem_cons_self)]
      simp only [shows_bind, shows_pure]
      refine hcorpus.mono fun l _ hl => (testInput_stopFlag o i it s hs).mono fun l' s' hs' => ?_
      have hne : s'.stopFlag ≠ .errIsaTimeout := hs'.2 ▸ stopAfter_ne_timeout hs _
      refine (ih hrest (i + 1) hne).mono fun l'' s'' hs'' => ?_
      rw [hl, hs'.1, hs''.1, hs''.2, hs'.2]
      exact ⟨rfl, List.foldl_append.symm⟩

/-- Every run that fails is followed by one that times out. -/
def Recovers (rs : List IsaOutcome) : Prop :=
  ∀ before r after, rs = before ++ r :: after → r.Fails → ∃ r' ∈ after, r'.timedOut = true

theorem recovers_nil : Recovers [] := fun _ _ _ h => absurd h (by simp)

theorem recovers_cons (r : IsaOutcome) (rs : List IsaOutcome) :
    Recovers (r :: rs) ↔ (r.Fails → ∃ r' ∈ rs, r'.timedOut = true) ∧ Recovers rs := by
  constructor
  · intro h
    refine ⟨h [] r rs rfl, fun before x after hrs => ?_⟩
    exact h (r :: before) x after (by rw [hrs]; rfl)
  · intro hx before x after h
    obtain ⟨hr, hrs⟩ := hx
    cases before with
    | nil =>
        obtain ⟨rfl, rfl⟩ := List.cons.inj h
        exact hr
    | cons y before =>
        obtain ⟨-, rfl⟩ := List.cons.inj h
        exact hrs before x after rfl

/-- The cell is NORMAL at the end if every failing run is made up for, one before the runs as well. -/
theorem stopAfter_normal_iff (rs : List IsaOutcome) {stop : ProcState} (h : stop ≠ .errIsaTimeout) :
    stopAfter stop rs = .normal ↔
      Recovers rs ∧ (stop ≠ .normal → ∃ r ∈ rs, r.timedOut = true) := by
  induction rs generalizing stop with
  | nil =>
      show stop = .normal ↔ _
      simp [recovers_nil]
  | cons r rs ih =>
      have hstep : stopAfter stop (r :: rs) = stopAfter (runIsaTest stop r).2 rs := rfl
      rw [hstep, ih (runIsaTest_ne_timeout stop r), recovers_cons]
      unfold runIsaTest IsaOutcome.Fails
      cases ht : r.timedOut with
      | true => simp [ht]
      | false =>
          by_cases he : r.exitCode = 0
          · simp [h, he, ht]
          · -- the failure stays in the cell
            simp only [h, he, Bool.false_eq_true, if_false, ne_eq, not_false_eq_true, if_true,
              reduceCtorEq, true_and, forall_const, List.mem_cons]
            constructor
            · intro hx
              obtain ⟨hrs, r', hr', htime⟩ := hx
              exact ⟨⟨⟨r', hr', htime⟩, hrs⟩, fun _ => ⟨r', .inr hr', htime⟩⟩
            · intro hx
              obtain ⟨⟨hex, hrs⟩, -⟩ := hx
              exact ⟨hrs, hex⟩

/-! ## 4. The report -/

/-- **A batch without a `break` reports NORMAL** if and only if every run of the simulator that fails is
    followed by one that times out; and the parent goes on after the batch in exactly these cases. -/
theorem normal_iff (ho : o.multicore = true) (hits : ∀ it ∈ its, it.compiled = true)
    {tr : List Happens} (h : Runs (run o its) tr ()) :
    ∃ state, tr.filterMap reported = [(o.procNum, state)] ∧
      (state = .normal ↔ Recovers (isaRuns its)) ∧
      ∀ procPidArr states endPid, procPidArr.idxOf? endPid = some o.procNum →
        o.procNum < states.length →
        (waitCheck procPidArr (setState states o.procNum state) endPid 0 = .slot o.procNum ↔
          Recovers (isaRuns its)) := by
  have hshows : Shows reported (run o its) fun l _ =>
      l = [(o.procNum, stopAfter .normal (isaRuns its))] := by
    unfold run finish
    simp only [ho, if_true, shows_bind, shows_act, reported, Option.toList, List.nil_append]
    refine (fuzzFrom_stopFlag hits 0 (s := {}) (by decide)).mono fun l s hs => ?_
    simp [hs.1, hs.2, reported]
  have hnormal : stopAfter .normal (isaRuns its) = .normal ↔ Recovers (isaRuns its) := by
    rw [stopAfter_normal_iff _ (by decide)]
    simp
  refine ⟨_, hshows tr () h, hnormal, fun procPidArr states endPid hidx hlen => ?_⟩
  rw [waitCheck_setState hidx hlen, hnormal]

end Batch

/-! ## 5. Two batches -/

/-- A run of the simulator that ends with exit code 1. -/
def failing : Iter := { Iter.calm with isa := ⟨false, 1⟩ }

/-- A run of the simulator that is stopped by the timer. -/
def stuck : Iter := { Iter.calm with isa := ⟨true, -9⟩ }

/-- A failing run that is followed by a timeout is forgotten. -/
theorem normal_iff_recovered : ∃ tr state, Runs (run (.campaign 0) [failing, stuck]) tr () ∧
    tr.filterMap reported = [(0, state)] ∧ state = .normal := by
  have hr : Runs (run (.campaign 0) [failing, stuck]) _ () := runs_of_replay (a := ())
    (rfl : replay alone _ = some (_, ()))
  have hruns : isaRuns [failing, stuck] = [⟨false, 1⟩, ⟨true, -9⟩] := by decide
  have hrec : Recovers (isaRuns [failing, stuck]) := by
    rw [hruns, recovers_cons, recovers_cons]
    exact ⟨fun _ => ⟨_, List.mem_cons_self, rfl⟩, fun hfails => (nomatch hfails.1), recovers_nil⟩
  obtain ⟨state, hstate, hnormal, -⟩ := normal_iff rfl (by decide) hr
  exact ⟨_, state, hr, hstate, hnormal.mpr hrec⟩

/-- **One failing run of the simulator** ends the campaign, though the batch has gone on to its end. -/
theorem not_normal_failing : ∃ tr, Runs (run (.campaign 0) [failing, .calm]) tr () ∧
    (∀ it ∈ [failing, .calm], it.compiled = true) ∧
    tr.filterMap reported = [(0, .errIsaAssert)] ∧
    waitCheck [77] (setState [.normal] 0 .errIsaAssert) 77 0 = .abort [] := by
  refine ⟨_, runs_of_replay (a := ()) (rfl : replay alone _ = some (_, ())), ?_, ?_, ?_⟩
  · decide
  · decide
  · decide

end Difuzz.Fuzzer
