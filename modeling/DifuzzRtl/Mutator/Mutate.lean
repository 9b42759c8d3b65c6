/-
  File:      DifuzzRtl/Mutator/Mutate.lean
  Subject:   How inputs are generated, mutated and merged (`rvMutator` of src/mutator.py), and the
             runs of a mutator.

  * `resetLabels` -- the words of a list get their places as labels, and the references follow
    through a map from old labels to new ones.
  * `mutateWord` -- what happens to one seed word; `mutateWords` folds it over all of them.
  * `RvMutator.get` -- an input, its data and the generator that was chosen.
  * `machine` -- calls of `get`, `read_siminput` and `add_corpus` in any order. A call that raises is
    no step. The state keeps what was returned, so that it can be put into the corpus, and the data
    that each corpus entry was returned with.
-/
import DifuzzRtl.Lib.Runs
import DifuzzRtl.Mutator.Generator

namespace Difuzz.Mutator

/-! ## 1. Labels -/

/-- The first loop of `reset_labels`: the words under their new labels, and the map. -/
def resetFrom (part : Part) : Nat → Dict Int Int → List Word → Except Exn (List Word × Dict Int Int)
  | _, labelMap, [] => .ok ([], labelMap)
  | n, labelMap, word :: words => do
      let (word, tup) ← word.resetLabel n part
      let labelMap := match tup with
        | some (old, new) => labelMap.set old new
        | none => labelMap
      let (words, labelMap) ← resetFrom part (n + 1) labelMap words
      return (word :: words, labelMap)

def resetLabels (words : List Word) (part : Part) : Rand (List Word) := do
  let (words, labelMap) ← lift (resetFrom part 0 Dict.empty words)
  words.mapM fun word => word.repopLabel labelMap words.length part

/-! ## 2. Mutation -/

/-- `self.inst_generator()`, with the weights of the configuration. -/
def instGenerator (selector : List Nat) : Rand GeneratorKind := choices generatorList selector

/-- `self.inst_generator().get_word(part)`: each call makes a new generator. -/
def newWord (selector : List Nat) (part : Part) : Rand Word := do
  let kind ← instGenerator selector
  let (word, _) ← Generator.getWord { kind := kind } part
  return word

def newWords (selector : List Nat) (part : Part) : Nat → Rand (List Word)
  | 0 => return []
  | k + 1 => do return (← newWord selector part) :: (← newWords selector part k)

/-- The body of the loop of `mutate_words`. -/
def mutateWord (selector : List Nat) (part : Part) (words : List Word) (word : Word) :
    Rand (List Word) := do
  let rand ← percent
  if rand < 70 then return words ++ [word]
  else if rand < 75 then
    let k ← randnat 0 10
    return words ++ [word] ++ (← newWords selector part k)
  else if rand < 80 then return words ++ [← newWord selector part]
  else if rand < 82 then return [word]
  else if rand < 90 then shuffle (words ++ [word])
  else
    let i ← randnat 0 words.length
    return words.take i ++ [word] ++ words.drop i

def mutateWords (selector : List Nat) (seedWords : List Word) (part : Part) (maxNum : Nat) :
    Rand (List Word) := do
  let words ← seedWords.foldlM (mutateWord selector part) []
  resetLabels (words.take maxNum) part

/-! ## 3. Inputs -/

/-- The words of an input before they are populated. -/
structure Draft where
  prefixWords : List Word
  words : List Word
  suffixWords : List Word
  dataSeed : Option Nat
  template : Template

def genWords (part : Part) : Nat → Generator → Rand (List Word × Generator)
  | 0, g => return ([], g)
  | n + 1, g => do
      let (word, g) ← g.getWord part
      let (words, g) ← genWords part n g
      return (word :: words, g)

def populateAll (maxLabel : Int) (part : Part) : Generator → List Word → Rand (List Word × Generator)
  | g, [] => return ([], g)
  | g, word :: words => do
      let (word, g) ← g.populateWord word maxLabel part
      let (words, g) ← populateAll maxLabel part g words
      return (word :: words, g)

namespace RvMutator

variable (selector : List Nat)

/-- Phase `GENERATION`. -/
def generate (m : RvMutator) (g : Generator) (template : Template) : Rand (Draft × Generator) := do
  let (prefixWords, g) ← genWords .prefixPart m.numPrefix g
  let (words, g) ← genWords .mainPart m.numWords g
  let (suffixWords, g) ← genWords .suffixPart m.numSuffix g
  return ({ prefixWords, words, suffixWords, dataSeed := none, template }, g)

/-- The seeds of phase `MUTATION`, or of phase `MERGE`: the start of one entry and the rest of
    another. -/
def seeds (m : RvMutator) : Rand Draft := do
  let si ← choice m.corpus
  match m.phase with
  | .merge =>
      let si₂ ← choice m.corpus
      let idx ← randnat 0 (min si.words.length si₂.words.length)
      return ⟨si.prefixWords, si.words.take idx ++ si₂.words.drop idx, si.suffixWords,
        some si.dataSeed, si.template⟩
  | _ => return ⟨si.prefixWords, si.words, si.suffixWords, some si.dataSeed, si.template⟩

/-- Phases `MUTATION` and `MERGE`. -/
def mutate (m : RvMutator) : Rand Draft := do
  let d ← m.seeds
  let prefixWords ← mutateWords selector d.prefixWords .prefixPart m.numPrefix
  let words ← mutateWords selector d.words .mainPart m.maxNWords
  let suffixWords ← mutateWords selector d.suffixWords .suffixPart m.numSuffix
  return { d with prefixWords, words, suffixWords }

/-- The words of the next input, by the phase. -/
def draft (m : RvMutator) (g : Generator) (template : Template) : Rand (Draft × Generator) :=
  match m.phase with
  | .generation => m.generate g template
  | _ => do return (← m.mutate selector, g)

/-- No interrupts, or one in the first ten instructions. -/
def drawInts (n : Nat) (assertIntr : Bool) : Rand (List Int) := do
  let ints := List.replicate n 0
  if assertIntr then
    let idx ← randint 0 ((min n 10 : Nat) - 1)
    let INT ← randint 0x1 0xF
    return ints.set idx.toNat INT
  else return ints

/-- New data for a generated input; a mutated one keeps the seed of its entry. -/
def seedData (m : RvMutator) : Option Nat → Rand (Nat × RvMutator)
  | none => m.addData []
  | some seed => do return (seed, ← lift (m.updateDataSeeds seed))

def get (m : RvMutator) (assertIntr : Bool) :
    Rand ((SimInput × List Int × GeneratorKind) × RvMutator) := do
  let kind ← instGenerator selector
  let template ← choice kind.templates
  let (d, g) ← m.draft selector { kind := kind } template
  let (prefixWords, g) ← populateAll d.prefixWords.length .prefixPart g d.prefixWords
  let (words, g) ← populateAll d.words.length .mainPart g d.words
  let (suffixWords, _) ← populateAll d.suffixWords.length .suffixPart g d.suffixWords
  let ints ← drawInts (words.map (·.lenInsts)).sum assertIntr
  let (seed, m) ← m.seedData d.dataSeed
  let data ← lift (m.getData seed)
  let simInput : SimInput :=
    { prefixWords, words, suffixWords, ints, dataSeed := seed, template := d.template }
  return ((simInput, data, kind), m)

end RvMutator

/-! ## 4. Runs -/

/-- A call on a mutator. An input that is put into the corpus is one that was returned. -/
inductive Call where
  | get (phase : Phase) (assertIntr : Bool)
  | readSiminput (file : Text)
  | addCorpus (i : Nat)
  deriving DecidableEq, Repr

structure Fuzz where
  mutator : RvMutator
  world : World
  /-- What `get` and `read_siminput` returned: inputs with their data. -/
  returned : List (SimInput × List Int)
  /-- The corpus, with the data its entries were returned with. -/
  kept : List (SimInput × List Int)
  deriving DecidableEq

namespace Fuzz

/-- `add_corpus`, for the list of entries with their data. -/
def keep (s : Fuzz) (e : SimInput × List Int) : List (SimInput × List Int) :=
  if (s.kept ++ [e]).length > s.mutator.corpusSize then (s.kept ++ [e]).tail else s.kept ++ [e]

/-- The state after a call that returned. -/
def call (selector : List Nat) (s : Fuzz) : Call → Option Fuzz
  | .get phase assertIntr =>
      match { s.mutator with phase := phase }.get selector assertIntr s.world with
      | .ok (((si, data, _), m), w) =>
          some { s with mutator := m, world := w, returned := s.returned ++ [(si, data)] }
      | .error _ => none
  | .readSiminput file =>
      match s.mutator.readSiminput file s.world with
      | .ok (((si, data, _), m), w) =>
          some { s with mutator := m, world := w, returned := s.returned ++ [(si, data)] }
      | .error _ => none
  | .addCorpus i =>
      match s.returned[i]? with
      | some e => some { s with mutator := s.mutator.addCorpus e.1, kept := s.keep e }
      | none => none

end Fuzz

/-- The runs of a fresh mutator, over all random choices. -/
def machine (selector : List Nat) (maxData corpusSize : Nat) : Machine Fuzz Call where
  init s := ∃ world, s = ⟨RvMutator.new maxData corpusSize, world, [], []⟩
  step s c s' := s.call selector c = some s'

end Difuzz.Mutator
