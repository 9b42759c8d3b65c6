/-
  File:      DifuzzRtl/Mutator/SimInput.lean
  Subject:   Test inputs, the table of their data, and the files they are saved in (src/mutator.py).

  * `SimInput` -- three lists of words, the interrupts of the main part, the seed of the data and
    the template.
  * `RvMutator` -- the corpus and the data table. `addData` and `updateDataSeeds` keep the seeds in
    the order of their last use.
  * `SimInput.save`, `RvMutator.readSiminput` -- the file format. The reader goes through the lines
    with the tuples read so far (`Reading`).
-/
import DifuzzRtl.Mutator.Word

namespace Difuzz.Mutator

open Text

/-! ## 1. Inputs -/

/-- `P_M`, `P_S`, `P_U`, `V_U` and `PT`. -/
inductive Template where
  | pM
  | pS
  | pU
  | vU
  | pt
  deriving DecidableEq, Repr

/-- `templates[version]`. -/
def Template.name : Template → Text
  | .pM => ['m']
  | .pS => ['s']
  | .pU => ['u']
  | .vU => ['v']
  | .pt => ['p', 't']

/-- `templates.index(word)`. -/
def templateIndex (t : Text) : Except Exn Template :=
  match [Template.pM, .pS, .pU, .vU, .pt].find? fun v => v.name == t with
  | some v => .ok v
  | none => .error .value

structure SimInput where
  prefixWords : List Word
  words : List Word
  suffixWords : List Word
  ints : List Int
  dataSeed : Nat
  template : Template
  deriving DecidableEq, Repr

namespace SimInput

/-- The lines of a list of words, and the label after the last of them. -/
def partInsts (part : Part) (words : List Word) : Except Exn (List Text) := do
  let insts ← words.mapM Word.getInsts
  return insts.flatten ++ [part.text ++ intText words.length ++ [':']]

def getPrefix (s : SimInput) : Except Exn (List Text) := partInsts .prefixPart s.prefixWords

def getInsts (s : SimInput) : Except Exn (List Text) := partInsts .mainPart s.words

def getSuffix (s : SimInput) : Except Exn (List Text) := partInsts .suffixPart s.suffixWords

/-- The file that `save(name, data)` writes. -/
def save (s : SimInput) (data : List Int) : Except Exn Text := do
  let prefixInsts ← s.getPrefix
  let insts ← s.getInsts
  let suffixInsts ← s.getSuffix
  return s.template.name ++ ['\n', '\n'] ++
    (prefixInsts.dropLast.map fun i => ljust 50 i ++ ['\n']).flatten ++
    ((insts.zip s.ints).map fun e => ljust 50 e.1 ++ formatInt 2 4 e.2 ++ ['\n']).flatten ++
    (suffixInsts.dropLast.map fun i => ljust 50 i ++ ['\n']).flatten ++
    if data = [] then [] else
      ['d', 'a', 't', 'a', ':', '\n'] ++ (data.map fun d => formatInt 16 16 d ++ ['\n']).flatten

end SimInput

/-! ## 2. The mutator and its data -/

inductive Phase where
  | generation
  | mutation
  | merge
  deriving DecidableEq, Repr

structure RvMutator where
  corpusSize : Nat
  corpus : List SimInput
  phase : Phase
  numPrefix : Nat
  numWords : Nat
  numSuffix : Nat
  maxNWords : Nat
  maxData : Nat
  randomData : Dict Nat (List Int)
  dataSeeds : List Nat
  deriving DecidableEq

namespace RvMutator

/-- `rvMutator(max_data_seeds, corpus_size)`. -/
def new (maxData corpusSize : Nat) : RvMutator where
  corpusSize := corpusSize
  corpus := []
  phase := .generation
  numPrefix := 0
  numWords := 200
  numSuffix := 0
  maxNWords := 20000
  maxData := maxData
  randomData := Dict.empty
  dataSeeds := []

/-- The seed that `add_data` stores under, and the seeds that are left. -/
def takeSeed (m : RvMutator) : Except Exn (Nat × List Nat) :=
  if m.dataSeeds.length = m.maxData then
    match m.dataSeeds with
    | [] => .error .index
    | s :: ss => .ok (s, ss)
  else .ok (m.dataSeeds.length, m.dataSeeds)

/-- `64 * 6` random words. -/
def randomWords : Rand (List Int) :=
  (List.range (64 * 6)).mapM fun _ => randint 0 0xFFFFFFFFFFFFFFFF

/-- The words that are stored: those that were given, or random ones. -/
def dataFor (newData : List Int) : Rand (List Int) :=
  if newData ≠ [] then pure newData else randomWords

def addData (m : RvMutator) (newData : List Int) : Rand (Nat × RvMutator) := do
  let (seed, seeds) ← lift m.takeSeed
  let data ← dataFor newData
  return (seed, { m with randomData := m.randomData.set seed data, dataSeeds := seeds ++ [seed] })

def updateDataSeeds (m : RvMutator) (seed : Nat) : Except Exn RvMutator :=
  if m.dataSeeds.count seed = 1 then
    .ok { m with dataSeeds := m.dataSeeds.erase seed ++ [seed] }
  else .error .assertion

/-- `self.random_data[seed]`. -/
def getData (m : RvMutator) (seed : Nat) : Except Exn (List Int) :=
  match m.randomData.get? seed with
  | some d => .ok d
  | none => .error .key

def addCorpus (m : RvMutator) (s : SimInput) : RvMutator :=
  { m with
    corpus := if (m.corpus ++ [s]).length > m.corpusSize then (m.corpus ++ [s]).tail
      else m.corpus ++ [s]
    numWords := min (m.numWords + 1) m.maxNWords }

end RvMutator

/-! ## 3. Reading a file -/

/-- What has been read of a file. -/
structure Reading where
  ints : List Int := []
  prefixTuples : List (Int × List Text) := []
  wordTuples : List (Int × List Text) := []
  suffixTuples : List (Int × List Text) := []
  part : Option Part := none

namespace Reading

def tuples (st : Reading) : Part → List (Int × List Text)
  | .prefixPart => st.prefixTuples
  | .mainPart => st.wordTuples
  | .suffixPart => st.suffixTuples

def setTuples (st : Reading) (ts : List (Int × List Text)) : Part → Reading
  | .prefixPart => { st with prefixTuples := ts }
  | .mainPart => { st with wordTuples := ts }
  | .suffixPart => { st with suffixTuples := ts }

end Reading

/-- The part whose mark a line starts with. -/
def partOf (line : Text) : Option Part :=
  [Part.prefixPart, .mainPart, .suffixPart].find? fun p => line.take 2 == p.text

/-- The label that `read_label` takes from the first eight columns. -/
def readLabel (line : Text) : Except Exn Int :=
  match pyInt 10 (((split [':'] (line.take 8)).headD []).drop 2) with
  | some n => .ok n
  | none => .error .value

/-- The text under the last label grows by one line. -/
def appendLast (ts : List (Int × List Text)) (inst : Text) : Except Exn (List (Int × List Text)) :=
  match ts.getLast? with
  | some (label, insts) => .ok (ts.dropLast ++ [(label, insts ++ [inst])])
  | none => .error .index

/-- A line goes to a new label or to the last one of the part that is being read. -/
def readInst (st : Reading) (line : Text) : Except Exn Reading :=
  match partOf line with
  | some p => do
      let label ← readLabel line
      return { st.setTuples (st.tuples p ++ [(label, [slice 8 50 line])]) p with part := some p }
  | none =>
      match st.part with
      | some p => do
          return st.setTuples (← appendLast (st.tuples p) (slice 8 50 line)) p
      | none => .error .type

/-- The interrupt of a line of the main part, in the four columns before its end. -/
def readInt (st : Reading) (line : Text) : Except Exn Reading :=
  if st.part = some .mainPart then
    match pyInt 2 (slice (line.length - 5) (line.length - 1) line) with
    | some i => .ok { st with ints := st.ints ++ [i] }
    | none => .error .value
  else .ok st

def readData (lines : List Text) : Except Exn (List Int) :=
  lines.mapM fun word =>
    match pyInt 16 word with
    | some d => .ok d
    | none => .error .value

def readLines : Reading → List Text → Except Exn (Reading × List Int)
  | st, [] => .ok (st, [])
  | st, line :: lines =>
      if contains ['d', 'a', 't', 'a', ':'] line then do
        return ({ st with part := none }, ← readData lines)
      else do
        let st ← readInst st line
        let st ← readInt st line
        readLines st lines

def tuplesToWords (tuples : List (Int × List Text)) (part : Part) : Except Exn (List Word) :=
  tuples.mapM fun t => Word.populate { label := t.1, insts := t.2 } Dict.empty part

namespace RvMutator

/-- `read_siminput` of a file with this text. -/
def readSiminput (m : RvMutator) (file : Text) : Rand ((SimInput × List Int × Bool) × RvMutator) :=
  match readlines file with
  | templateLine :: _ :: lines => do
      let template ← lift (templateIndex ((split ['\n'] templateLine).headD []))
      let (st, data) ← lift (readLines {} lines)
      let prefixWords ← lift (tuplesToWords st.prefixTuples .prefixPart)
      let words ← lift (tuplesToWords st.wordTuples .mainPart)
      let suffixWords ← lift (tuplesToWords st.suffixTuples .suffixPart)
      let (seed, m) ← m.addData data
      let data ← lift (m.getData seed)
      let simInput : SimInput :=
        { prefixWords, words, suffixWords, ints := st.ints, dataSeed := seed, template }
      return ((simInput, data, st.ints.any (· ≠ 0)), m)
  | _ => throw .index

end RvMutator

end Difuzz.Mutator
