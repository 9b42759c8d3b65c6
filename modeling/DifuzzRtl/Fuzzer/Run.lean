/-
  File:      DifuzzRtl/Fuzzer/Run.lean
  Subject:   The fuzzing loop (`Run` of Fuzzer.py, `run_isa_test` and `save_mismatch` of src/utils.py).

  * `Options` -- the arguments of a batch; `Iter` -- what the environment does in one iteration: the
    input that the mutator makes, and the outcomes of the compiler, the simulators and the checker.
  * `Local` -- the variables that live across iterations.
  * `runIsaTest` -- a run of the instruction set simulator against the timer, over the one cell that
    both write.
  * `iteration` -- the body of the loop, phase by phase: `rtlBranch`, `verify`, `nemuTest`, `guide`,
    and `emuBranch` for the templates without an RTL run. An early `continue` returns.
  * `run` -- the batch.
-/
import DifuzzRtl.Fuzzer.Manager

namespace Difuzz.Fuzzer

open Text Mutator

/-! ## 1. Arguments, outcomes and variables -/

/-- `CORPUS_DIR` and the others. -/
inductive Dir where
  | corpus
  | mismatch
  | illegal
  | emuMismatch
  deriving DecidableEq, Repr

def Dir.name : Dir → Text
  | .corpus => "corpus".toList
  | .mismatch => "mismatch".toList
  | .illegal => "illegal".toList
  | .emuMismatch => "emu_mismatch".toList

/-- The arguments of `Run`, and the constant `FUZZ_EMU` of the configuration. -/
structure Options where
  out : Text
  record : Bool
  multicore : Bool
  procNum : Nat
  startIter : Nat := 0
  startCov : Nat := 0
  fuzzEmu : Bool := false

/-- A process of a campaign that records. -/
def Options.campaign (procNum : Nat) : Options where
  out := "output".toList
  record := true
  multicore := true
  procNum := procNum

/-- A run of the instruction set simulator: whether the timer fires, and the exit code. -/
structure IsaOutcome where
  timedOut : Bool
  exitCode : Int
  deriving DecidableEq, Repr

-- the results of `rtlHost.run_test`
abbrev success : Int := 0
abbrev assertionFail : Int := 1
abbrev timeOut : Int := 1
abbrev illMem : Int := -1

/-- One iteration, as the environment has it. -/
structure Iter where
  simInput : SimInput
  generatorName : Text
  assertIntr : Bool
  /-- `isa_input and rtl_input`. -/
  compiled : Bool
  isa : IsaOutcome
  rtlRet : Int
  coverage : Nat
  /-- The second result of `check_intr`. -/
  epc : Nat
  /-- The second run of the instruction set simulator. -/
  isaIntr : IsaOutcome
  /-- The result of `check`. -/
  isMatch : Bool
  nemuRet : Int
  emuRet : Int
  deriving DecidableEq, Repr

/-- An iteration in which everything is in order. -/
def Iter.calm : Iter where
  simInput := ⟨[], [], [], [], 0, .pM⟩
  generatorName := "plain".toList
  assertIntr := false
  compiled := true
  isa := ⟨false, 0⟩
  rtlRet := success
  coverage := 0
  epc := 0
  isaIntr := ⟨false, 0⟩
  isMatch := true
  nemuRet := 0
  emuRet := 0

/-- The variables of the loop; `inputBin` says whether that variable has been bound. -/
structure Local where
  stopFlag : ProcState := .normal
  mismatchCount : Nat := 0
  coverageCount : Nat := 0
  illegalCount : Nat := 0
  lastCoverage : Nat := 0
  inputBin : Bool := false
  deriving DecidableEq, Repr

/-- After an iteration: the next one, or `break`. -/
inductive Next where
  | go (s : Local)
  | stop (s : Local)
  deriving DecidableEq, Repr

/-! ## 2. Helpers -/

/-- `run_isa_test`: its result, and the cell `stop[0]` afterwards. -/
def runIsaTest (stop : ProcState) (o : IsaOutcome) : ProcState × ProcState :=
  -- the timer writes the cell
  let stop := if o.timedOut then .errIsaTimeout else stop
  if stop = .errIsaTimeout then (.errIsaTimeout, .normal)
  else if o.exitCode ≠ 0 then (.errIsaAssert, .errIsaAssert)
  else (.normal, stop)

/-- The path of the saved input in `save_mismatch`. -/
def simInputPath (out : Text) (dir : Dir) (generatorName : Text) (num : Nat) : Text :=
  out ++ '/' :: dir.name ++ "/sim_input/".toList ++ generatorName ++ '_' :: digits 10 num ++ ".si".toList

variable (o : Options) (i : Nat) (it : Iter)

/-- `save_mismatch`. -/
def saveMismatch (dir : Dir) (num : Nat) (generatorName : Text) : Program Unit :=
  perform (.saveMismatch (simInputPath o.out dir generatorName num))

/-- The same under `if record`. -/
def recordMismatch (dir : Dir) (num : Nat) (generatorName : Text) : Program Unit :=
  if o.record then saveMismatch o dir num generatorName else pure ()

/-- `n = manager.read_num(c); manager.write_num(c, n + 1)`. -/
def takeNum (c : Counter) : Program Nat := do
  let n ← readNum c
  writeNum c (n + 1)
  return n

/-- The number of the shared counter, or that of the process. -/
def numberOf (c : Counter) (own : Nat) : Program Nat :=
  if o.multicore then takeNum c else pure own

/-! ## 3. The phases of an iteration -/

/-- The coverage guidance. -/
def guide (s : Local) : Program Local :=
  if it.coverage > s.lastCoverage then do
    let n ← numberOf o .cNum s.coverageCount
    if o.record then
      perform (.logCoverage (o.startIter + i) (o.startCov + it.coverage))
    recordMismatch o .corpus n it.generatorName
    perform (.addCorpus it.simInput)
    perform (.updatePhase i)
    return { s with lastCoverage := it.coverage, coverageCount := n + 1 }
  else return s

/-- NEMU, and the emulator if it is configured. -/
def nemuTest (s : Local) : Program Local :=
  if it.nemuRet ≠ 0 then return s
  else if o.fuzzEmu then do
    if it.emuRet ≠ 0 then
      recordMismatch o .emuMismatch s.coverageCount it.generatorName
    guide o i it { s with inputBin := true }
  else guide o i it s

/-- The results do not match: a report, and `continue` for a timeout. -/
def reportMismatch (s : Local) : Program Local := do
  let n ← numberOf o .mNum s.mismatchCount
  recordMismatch o .mismatch n it.generatorName
  let s := { s with mismatchCount := n + 1 }
  if it.rtlRet = timeOut then return s else nemuTest o i it s

/-- The results of the RTL run are checked. -/
def verify (s : Local) : Program Local :=
  if it.rtlRet = success then
    if it.isMatch then nemuTest o i it s else reportMismatch o i it s
  else if it.rtlRet = illMem then do
    recordMismatch o .illegal s.illegalCount "id_".toList
    nemuTest o i it { s with illegalCount := s.illegalCount + 1 }
  else reportMismatch o i it s

/-- The branch with an RTL run. After an interrupt the instruction set simulator runs again. -/
def rtlBranch (s : Local) : Program Local := do
  perform (.rtlTest it.rtlRet it.coverage)
  if it.assertIntr = true ∧ it.rtlRet = success then
    if it.epc ≠ 0 then
      let (isaRet, stopFlag) := runIsaTest s.stopFlag it.isaIntr
      if isaRet ≠ .normal then return { s with stopFlag } else verify o i it { s with stopFlag }
    else return s
  else verify o i it s

/-- The emulator in the branch without an RTL run. The variable `input_bin` is bound in the other one
    only. -/
def emuTest (s : Local) : Program Unit :=
  if o.fuzzEmu then
    if s.inputBin then
      if it.emuRet ≠ 0 then saveMismatch o .emuMismatch s.coverageCount it.generatorName
      else saveMismatch o .corpus s.coverageCount it.generatorName
    else raise
  else pure ()

def emuBranch (s : Local) : Program Local :=
  if it.nemuRet ≠ 0 then return s
  else do
    emuTest o it s
    perform (.addCorpus it.simInput)
    return { s with coverageCount := s.coverageCount + 1 }

/-- The runs after the compiler. -/
def testInput (s : Local) : Program Local :=
  let (isaRet, stopFlag) := runIsaTest s.stopFlag it.isa
  if isaRet ≠ .normal then return { s with stopFlag }
  else if it.simInput.template ≠ .vU ∧ it.simInput.template ≠ .pt then
    rtlBranch o i it { s with stopFlag }
  else emuBranch o it { s with stopFlag }

/-- The corpus directory is read at first, and after every 1000 iterations. -/
def updateCorpus : Program Unit :=
  if o.multicore then
    if i = 0 then perform (.updateCorpus (some 1000))
    else if i % 1000 = 0 then perform (.updateCorpus none)
    else pure ()
  else pure ()

/-- **The body of the loop.** -/
def iteration (s : Local) : Program Next := do
  updateCorpus o i
  if it.compiled then
    let s ← testInput o i it s
    return .go s
  else return .stop { s with stopFlag := .errCompile }

/-! ## 4. The batch -/

/-- The loop, from an iteration on. -/
def fuzzFrom (o : Options) : Nat → List Iter → Local → Program Local
  | _, [], s => pure s
  | i, it :: its, s => do
      match ← iteration o i it s with
      | .go s => fuzzFrom o (i + 1) its s
      | .stop s => return s

/-- What a process of a campaign does at the end. -/
def finish (numIter : Nat) (s : Local) : Program Unit := do
  if s.stopFlag ≠ .normal then perform (.saveErr o.procNum s.stopFlag)
  perform (.setState o.procNum s.stopFlag)
  perform (.covStore o.procNum)
  perform (.storeCovmap o.procNum (o.startIter + numIter))

/-- **`Run`.** -/
def run (its : List Iter) : Program Unit := do
  if o.multicore then perform .covRestore
  let s ← fuzzFrom o 0 its {}
  if o.multicore then finish o its.length s

end Difuzz.Fuzzer
