/-
  File:      DifuzzRtl/Fuzzer/Exchange.lean
  Subject:   Corpus exchange between processes: `save_mismatch` writes the inputs of a process to the corpus
             directory, and `update_corpus` of another one looks for them there.

  `update_corpus` swallows every exception. What the mutator has changed by then stays changed, so
  the reader is modelled once more, statement by statement over a mutator that is changed in place.

  * `Disk`, `Disk.saveMismatch`, `Saves` -- the files of a campaign.
  * `InPlace` -- programs whose changes outlive an exception; `InPlace.addData`, `InPlace.readSiminput`.
  * `settle` -- the effect of a call that changes everything or nothing; `readSiminput_settle`: the
    reader is such a call.
  * `tryFile`, `updateCorpus` -- the loop over the numbers of files.
  * `updateCorpus_corpus` -- on no disk the corpus grows; `exchange_iff` -- what the exchange does.
-/
import DifuzzRtl.Fuzzer.Run
import DifuzzRtl.Mutator.Replay
import DifuzzRtl.Mutator.Seeds

namespace Difuzz.Fuzzer

open Text Mutator

/-! ## 1. Files -/

/-- The directories, and the files with their texts, by path. -/
structure Disk where
  dirs : List Text
  files : Dict Text Text

/-- An input that is given to `save_mismatch`. -/
structure Saved where
  generatorName : Text
  num : Nat
  simInput : SimInput
  data : List Int
  deriving DecidableEq

/-- The name of a path, if it is one of the directory itself. -/
def entryOf (dir path : Text) : Option Text :=
  if (dir ++ ['/']).isPrefixOf path ∧ '/' ∉ path.drop (dir.length + 1) then
    some (path.drop (dir.length + 1))
  else none

namespace Disk

def subdirs : List Text := ["sim_input", "elf", "asm", "hex", "bin"].map (·.toList)

/-- What `DifuzzRTL.py` makes before it starts. -/
def new (out : Text) : Disk where
  dirs := out :: [Dir.mismatch, .illegal, .corpus, .emuMismatch].flatMap fun d =>
    (out ++ '/' :: d.name) :: subdirs.map fun sub => out ++ '/' :: d.name ++ '/' :: sub
  files := Dict.empty

/-- `os.listdir`. -/
def listdir (disk : Disk) (dir : Text) : Option (List Text) :=
  if dir ∈ disk.dirs then some ((disk.dirs ++ disk.files.keys).filterMap (entryOf dir)) else none

/-- `save_mismatch`, as far as the input. -/
def saveMismatch (disk : Disk) (out : Text) (dir : Dir) (x : Saved) : Except Exn Disk := do
  let text ← x.simInput.save x.data
  return { disk with files := disk.files.set (simInputPath out dir x.generatorName x.num) text }

end Disk

def corpusDir (out : Text) : Text := out ++ '/' :: Dir.corpus.name

/-- The disk of a campaign, and the inputs that have been saved to the corpus directory. -/
inductive Saves (out : Text) : Disk → List Saved → Prop where
  | start : Saves out (Disk.new out) []
  | corpus {disk disk' : Disk} {saved : List Saved} (x : Saved) (h : Saves out disk saved)
      (hsave : disk.saveMismatch out .corpus x = .ok disk') : Saves out disk' (saved ++ [x])
  | other {disk disk' : Disk} {saved : List Saved} {dir : Dir} (x : Saved) (h : Saves out disk saved)
      (hdir : dir ≠ .corpus) (hsave : disk.saveMismatch out dir x = .ok disk') : Saves out disk' saved

/-! ## 2. A mutator that is changed in place -/

/-- What can be raised: `open` finds no file, or an exception of the mutator. -/
inductive Raised where
  | noFile
  | exn (e : Exn)
  deriving DecidableEq, Repr

/-- An exception leaves the state as it is at that moment. -/
abbrev InPlace := EStateM Raised (RvMutator × World)

namespace InPlace

variable {α : Type}

/-- A computation without a state. -/
def raising (x : Except Exn α) : InPlace α := fun st =>
  match x with
  | .ok a => .ok a st
  | .error e => .error (.exn e) st

/-- A computation that only draws. -/
def drawing (x : Mutator.Rand α) : InPlace α := fun st =>
  match x st.2 with
  | .ok (a, world) => .ok a (st.1, world)
  | .error e => .error (.exn e) st

def mutator : InPlace RvMutator := fun st => .ok st.1 st

def change (f : RvMutator → RvMutator) : InPlace Unit := fun st => .ok () (f st.1, st.2)

/-- `add_data`. -/
def addData (newData : List Int) : InPlace Nat := do
  let (seed, seeds) ← raising (← mutator).takeSeed
  change fun m => { m with dataSeeds := seeds }
  let data ← drawing (RvMutator.dataFor newData)
  change fun m => { m with randomData := m.randomData.set seed data }
  change fun m => { m with dataSeeds := m.dataSeeds ++ [seed] }
  return seed

/-- `read_siminput`, for the text of the file. -/
def readSiminput (file : Text) : InPlace (SimInput × List Int × Bool) :=
  match readlines file with
  | templateLine :: _ :: lines => do
      let template ← raising (templateIndex ((split ['\n'] templateLine).headD []))
      let (st, data) ← raising (readLines {} lines)
      let prefixWords ← raising (tuplesToWords st.prefixTuples .prefixPart)
      let words ← raising (tuplesToWords st.wordTuples .mainPart)
      let suffixWords ← raising (tuplesToWords st.suffixTuples .suffixPart)
      let seed ← addData data
      let data ← raising ((← mutator).getData seed)
      let simInput : SimInput :=
        { prefixWords, words, suffixWords, ints := st.ints, dataSeed := seed, template }
      return (simInput, data, st.ints.any (· ≠ 0))
  | _ => raising (.error .index)

end InPlace

/-- The values in the tuple that `read_siminput` returns. -/
inductive Item where
  | simInput (s : SimInput)
  | data (data : List Int)
  | assertIntr (intr : Bool)

def siPath (dir : Text) (i : Nat) : Text := dir ++ "/id_".toList ++ digits 10 i ++ ".si".toList

namespace Disk

/-- `read_siminput(si_name)`. -/
def readSiminput (disk : Disk) (siName : Text) : InPlace (List Item) :=
  match disk.files.get? siName with
  | none => throw .noFile
  | some file => do
      let (simInput, data, intr) ← InPlace.readSiminput file
      return [.simInput simInput, .data data, .assertIntr intr]

/-- The body of the `try`. It unpacks two values. -/
def tryFile (disk : Disk) (siName : Text) : InPlace Unit := do
  match ← disk.readSiminput siName with
  | [.simInput simInput, _] => InPlace.change (·.addCorpus simInput)
  | _ => throw (.exn .value)

/-- The loop over the numbers; `except: continue`. -/
def tryFiles (disk : Disk) (dir : Text) : List Nat → InPlace Unit
  | [] => return
  | i :: is => do
      tryCatch (disk.tryFile (siPath dir i)) fun _ => pure ()
      tryFiles disk dir is

def updateCorpus (disk : Disk) (corpusDir : Text) (updateNum : Nat) : InPlace Unit :=
  match disk.listdir corpusDir with
  | none => throw .noFile
  | some siFiles =>
      let numFiles := siFiles.length
      let start := numFiles - updateNum
      disk.tryFiles corpusDir (List.range' start (numFiles - start))

end Disk

/-! ## 3. All or nothing -/

/-- The effect of a call that changes everything or nothing. -/
def settle {α : Type} (st : RvMutator × World) :
    Except Exn ((α × RvMutator) × World) → EStateM.Result Raised (RvMutator × World) α
  | .ok ((a, m), world) => .ok a (m, world)
  | .error e => .error (.exn e) st

/-- A step that changes nothing, and then a call. -/
theorem raising_bind {α β : Type} {x : Except Exn α} {k : α → InPlace β} {f : α → Mutator.Rand (β × RvMutator)}
    {st : RvMutator × World} (h : ∀ a, k a st = settle st (f a st.2)) :
    (InPlace.raising x >>= k) st = settle st ((lift x >>= f) st.2) := by
  cases x with
  | error e => rfl
  | ok a => exact h a

/-- Random words can always be drawn. -/
theorem returns_dataFor (newData : List Int) : Returns (RvMutator.dataFor newData) fun _ => True := by
  unfold RvMutator.dataFor RvMutator.randomWords
  refine Returns.ite (fun _ => Returns.pure trivial) fun _ => ?_
  exact (Returns.logic.mapM fun _ _ => returns_randint (by decide)).mono fun _ _ => trivial

/-- **`add_data` takes a seed or changes nothing**, and the data are there afterwards. -/
theorem addData_settle (newData : List Int) (st : RvMutator × World) :
    InPlace.addData newData st = settle st (st.1.addData newData st.2) ∧
      ∀ r, st.1.addData newData st.2 = .ok r → ∃ data, r.1.2.getData r.1.1 = .ok data := by
  obtain ⟨m, world⟩ := st
  obtain ⟨data, world', hdraw, -⟩ := returns_dataFor newData world
  cases hseed : m.takeSeed with
  | error e =>
      have hfun : m.addData newData world = .error e := StateT.bind_of_error (by rw [hseed]; rfl)
      have hplace : InPlace.raising m.takeSeed (m, world) = .error (.exn e) (m, world) := by
        rw [hseed]
        rfl
      rw [hfun]
      refine ⟨?_, fun r hr => (nomatch hr)⟩
      exact (EStateM.bind_of_ok (x := InPlace.mutator) rfl).trans (EStateM.bind_of_error hplace)
  | ok x =>
      obtain ⟨seed, seeds⟩ := x
      have hfun : m.addData newData world = .ok ((seed, { m with
          randomData := m.randomData.set seed data
          dataSeeds := seeds ++ [seed] }), world') := by
        refine (StateT.bind_of_ok (lift_ok.mpr ⟨hseed, rfl⟩)).trans ?_
        exact (StateT.bind_of_ok hdraw).trans rfl
      have hplace : InPlace.raising m.takeSeed (m, world) = .ok (seed, seeds) (m, world) := by
        rw [hseed]
        rfl
      have hdrawn : InPlace.drawing (RvMutator.dataFor newData) ({ m with dataSeeds := seeds }, world) =
          .ok data ({ m with dataSeeds := seeds }, world') := by
        unfold InPlace.drawing
        rw [hdraw]
      rw [hfun]
      refine ⟨(EStateM.bind_of_ok hplace).trans (EStateM.bind_of_ok hdrawn), fun r hr => ?_⟩
      cases hr
      exact ⟨data, by simp [RvMutator.getData]⟩

/-- **`read_siminput` reads a file or changes nothing.** Its last step cannot raise: the data have just
    been stored. -/
theorem readSiminput_settle (file : Text) (st : RvMutator × World) :
    InPlace.readSiminput file st = settle st (st.1.readSiminput file st.2) := by
  unfold InPlace.readSiminput RvMutator.readSiminput
  rcases readlines file with _ | ⟨templateLine, _ | ⟨blank, lines⟩⟩
  · rfl
  · rfl
  refine raising_bind fun template => raising_bind fun reading => ?_
  obtain ⟨rest, data⟩ := reading
  refine raising_bind fun prefixWords => raising_bind fun words => raising_bind fun suffixWords => ?_
  obtain ⟨hplace, hdata⟩ := addData_settle data st
  cases hadd : st.1.addData data st.2 with
  | error e =>
      rw [hadd] at hplace
      rw [StateT.bind_of_error hadd]
      exact EStateM.bind_of_error hplace
  | ok r =>
      obtain ⟨⟨seed, m⟩, world⟩ := r
      rw [hadd] at hplace
      obtain ⟨stored, hstored⟩ : ∃ stored, m.getData seed = .ok stored := hdata _ hadd
      have hplace' : InPlace.raising (m.getData seed) (m, world) = .ok stored (m, world) := by
        rw [hstored]
        rfl
      rw [StateT.bind_of_ok hadd]
      dsimp only
      rw [StateT.bind_of_ok (lift_ok.mpr ⟨hstored, rfl⟩)]
      refine (EStateM.bind_of_ok hplace).trans ?_
      exact (EStateM.bind_of_ok (x := InPlace.mutator) rfl).trans (EStateM.bind_of_ok hplace')

section Files

variable {disk : Disk} {siName : Text} {st : RvMutator × World}

/-- A file is read, and then its data have a seed, or nothing has changed. -/
theorem Disk.readSiminput_cases (disk : Disk) (siName : Text) (st : RvMutator × World) :
    (∃ e, disk.readSiminput siName st = .error e st) ∨
      ∃ s data intr st', disk.readSiminput siName st =
          .ok [.simInput s, .data data, .assertIntr intr] st' ∧
        DataStep st.1 s.dataSeed data st'.1 := by
  unfold Disk.readSiminput
  cases disk.files.get? siName with
  | none => exact .inl ⟨.noFile, rfl⟩
  | some file =>
      have hsettle := readSiminput_settle file st
      cases hread : st.1.readSiminput file st.2 with
      | error e =>
          rw [hread] at hsettle
          exact .inl ⟨.exn e, EStateM.bind_of_error hsettle⟩
      | ok r =>
          obtain ⟨⟨⟨s, data, intr⟩, m⟩, world⟩ := r
          rw [hread] at hsettle
          exact .inr ⟨s, data, intr, (m, world), EStateM.bind_of_ok hsettle, readSiminput_dataStep hread⟩

/-- **No file is ever added**: a file that cannot be read changes nothing, and the values of one that
    has been read are not unpacked. By then its data have taken a seed. -/
theorem Disk.tryFile_raises (disk : Disk) (siName : Text) (st : RvMutator × World) :
    (∃ e, disk.readSiminput siName st = .error e st ∧ disk.tryFile siName st = .error e st) ∨
      ∃ s data intr st', disk.readSiminput siName st =
          .ok [.simInput s, .data data, .assertIntr intr] st' ∧
        DataStep st.1 s.dataSeed data st'.1 ∧ disk.tryFile siName st = .error (.exn .value) st' := by
  rcases disk.readSiminput_cases siName st with ⟨e, hread⟩ | ⟨s, data, intr, st', hread, hstep⟩
  · exact .inl ⟨e, hread, EStateM.bind_of_error hread⟩
  · exact .inr ⟨s, data, intr, st', hread, hstep, EStateM.bind_of_ok hread⟩

/-- The loop goes on after a file, with what has been changed by then. -/
theorem Disk.tryFiles_cons {dir : Text} {i : Nat} {e : Raised} {st₁ : RvMutator × World}
    (h : disk.tryFile (siPath dir i) st = .error e st₁) (is : List Nat) :
    disk.tryFiles dir (i :: is) st = disk.tryFiles dir is st₁ := by
  have hcatch : tryCatch (disk.tryFile (siPath dir i)) (fun _ => pure ()) st = .ok () st₁ :=
    EStateM.tryCatch_of_error h
  rw [Disk.tryFiles]
  exact EStateM.bind_of_ok hcatch

/-- At its end the corpus is the same. -/
theorem Disk.tryFiles_corpus (disk : Disk) (dir : Text) (is : List Nat) (st : RvMutator × World) :
    ∃ st', disk.tryFiles dir is st = .ok () st' ∧ st'.1.corpus = st.1.corpus := by
  induction is generalizing st with
  | nil => exact ⟨st, rfl, rfl⟩
  | cons i is ih =>
      obtain ⟨e, st₁, htry, hcorpus⟩ : ∃ e st₁, disk.tryFile (siPath dir i) st = .error e st₁ ∧
          st₁.1.corpus = st.1.corpus := by
        rcases disk.tryFile_raises (siPath dir i) st with ⟨e, -, htry⟩ | ⟨_, _, _, st₁, -, hstep, htry⟩
        · exact ⟨e, st, htry, rfl⟩
        · exact ⟨_, st₁, htry, hstep.frame.1⟩
      obtain ⟨st', hrest, hcorpus'⟩ := ih st₁
      exact ⟨st', (Disk.tryFiles_cons htry is).trans hrest, hcorpus'.trans hcorpus⟩

/-- **On no disk the corpus grows**, wherever the files are. -/
theorem Disk.updateCorpus_corpus (disk : Disk) (dir : Text) (updateNum : Nat)
    {st st' : RvMutator × World} (h : disk.updateCorpus dir updateNum st = .ok () st') :
    st'.1.corpus = st.1.corpus := by
  unfold Disk.updateCorpus at h
  cases hdir : disk.listdir dir with
  | none =>
      rw [hdir] at h
      cases h
  | some siFiles =>
      rw [hdir] at h
      obtain ⟨st₁, hrun, hcorpus⟩ := disk.tryFiles_corpus dir
        (List.range' (siFiles.length - updateNum) (siFiles.length - (siFiles.length - updateNum))) st
      cases hrun.symm.trans h
      exact hcorpus

/-- A file that is read, in a state. -/
def Disk.Reads (disk : Disk) (siName : Text) (st : RvMutator × World) : Prop :=
  ∃ items st', disk.readSiminput siName st = .ok items st'

/-- A file that cannot be read is left out of the loop. -/
theorem Disk.tryFiles_unreadable {dir : Text} {i : Nat} (h : ¬ disk.Reads (siPath dir i) st)
    (is : List Nat) : disk.tryFiles dir (i :: is) st = disk.tryFiles dir is st := by
  rcases disk.tryFile_raises (siPath dir i) st with ⟨e, -, htry⟩ | ⟨_, _, _, st', hread, -⟩
  · exact Disk.tryFiles_cons htry is
  · exact absurd ⟨_, st', hread⟩ h

end Files

/-! ## 4. Where the files are -/

/-- A file of a campaign lies in the directory of inputs; the loop looks one directory higher. -/
theorem siPath_ne_simInputPath (out : Text) (i : Nat) (dir : Dir) (name : Text) (num : Nat) :
    siPath (corpusDir out) i ≠ simInputPath out dir name num := by
  unfold siPath simInputPath corpusDir
  intro h
  simp only [List.append_assoc] at h
  have hrest : Dir.corpus.name ++ '/' :: 'i' :: ("d_".toList ++ (digits 10 i ++ ".si".toList)) =
      dir.name ++ '/' :: 's' :: ("im_input/".toList ++ (name ++ ('_' :: digits 10 num ++ ".si".toList))) :=
    congrArg List.tail (List.append_cancel_left h)
  have hhead := congrArg List.head? hrest
  cases dir with
  | corpus => cases List.append_cancel_left hrest
  | mismatch => exact absurd (show some 'c' = some 'm' from hhead) (by decide)
  | illegal => exact absurd (show some 'c' = some 'i' from hhead) (by decide)
  | emuMismatch => exact absurd (show some 'c' = some 'e' from hhead) (by decide)

section Saves

variable {out : Text} {disk : Disk} {saved : List Saved}

theorem Disk.saveMismatch_spec {disk' : Disk} {dir : Dir} {x : Saved}
    (h : disk.saveMismatch out dir x = .ok disk') : disk'.dirs = disk.dirs ∧ ∃ text,
      disk'.files = disk.files.set (simInputPath out dir x.generatorName x.num) text := by
  obtain ⟨text, -, h⟩ := Except.bind_ok.mp h
  cases h
  exact ⟨rfl, text, rfl⟩

/-- No file of a campaign is where `update_corpus` looks for it. -/
theorem Saves.noFile (h : Saves out disk saved) :
    disk.dirs = (Disk.new out).dirs ∧ ∀ i, disk.files.get? (siPath (corpusDir out) i) = none := by
  have hset : ∀ {disk disk' : Disk} {dir : Dir} {x : Saved}, disk.saveMismatch out dir x = .ok disk' →
      (disk.dirs = (Disk.new out).dirs ∧ ∀ i, disk.files.get? (siPath (corpusDir out) i) = none) →
      disk'.dirs = (Disk.new out).dirs ∧ ∀ i, disk'.files.get? (siPath (corpusDir out) i) = none := by
    intro disk disk' dir x hsave hold
    obtain ⟨hdirs, text, hfiles⟩ := Disk.saveMismatch_spec hsave
    refine ⟨hdirs.trans hold.1, fun i => ?_⟩
    rw [hfiles, Dict.get?_set, if_neg (siPath_ne_simInputPath out i _ _ _)]
    exact hold.2 i
  induction h with
  | start => exact ⟨rfl, fun i => rfl⟩
  | corpus x _ hsave ih => exact hset hsave ih
  | other x _ _ hsave ih => exact hset hsave ih

/-- **An update changes nothing** on the disk of a campaign. -/
theorem Saves.updateCorpus (h : Saves out disk saved) (updateNum : Nat) (st : RvMutator × World) :
    disk.updateCorpus (corpusDir out) updateNum st = .ok () st := by
  obtain ⟨hdirs, hfiles⟩ := h.noFile
  have hskip : ∀ is, disk.tryFiles (corpusDir out) is st = .ok () st := by
    intro is
    induction is with
    | nil => rfl
    | cons i is ih =>
        refine (Disk.tryFiles_unreadable ?_ is).trans ih
        intro hreads
        obtain ⟨items, st', hread⟩ := hreads
        unfold Disk.readSiminput at hread
        rw [hfiles] at hread
        cases hread
  have hdir : corpusDir out ∈ disk.dirs := by
    rw [hdirs]
    simp [Disk.new, corpusDir]
  unfold Disk.updateCorpus Disk.listdir
  rw [if_pos hdir]
  exact hskip _

end Saves

/-! ## 5. The exchange -/

/-- An input of the corpus and its data are those that were saved. -/
structure Taken (m : RvMutator) (x : Saved) (s : SimInput) : Prop where
  template : s.template = x.simInput.template
  prefixWords : List.Forall₂ SameWord x.simInput.prefixWords s.prefixWords
  words : List.Forall₂ SameWord x.simInput.words s.words
  suffixWords : List.Forall₂ SameWord x.simInput.suffixWords s.suffixWords
  ints : s.ints = x.simInput.ints
  data : m.getData s.dataSeed = .ok x.data

/-- What an update should do: all that was saved is put into the corpus, in some order. -/
def Exchanged (disk : Disk) (out : Text) (saved : List Saved) (updateNum : Nat)
    (st : RvMutator × World) : Prop :=
  ∃ st' saved' inputs, disk.updateCorpus (corpusDir out) updateNum st = .ok () st' ∧
    saved'.Perm saved ∧ List.Forall₂ (Taken st'.1) saved' inputs ∧
    st'.1.corpus = (inputs.foldl RvMutator.addCorpus st.1).corpus

/-- With room for one input, the corpus is not empty after one has been added. -/
theorem corpus_foldl_ne_nil {inputs : List SimInput} (hne : inputs ≠ []) {m : RvMutator}
    (hsize : 1 ≤ m.corpusSize) : (inputs.foldl RvMutator.addCorpus m).corpus ≠ [] := by
  have hkeep : ∀ (l : List SimInput) (m : RvMutator),
      (l.foldl RvMutator.addCorpus m).corpusSize = m.corpusSize := by
    intro l
    induction l with
    | nil => exact fun m => rfl
    | cons s l ih => exact fun m => ih (m.addCorpus s)
  rcases List.eq_nil_or_concat inputs with rfl | ⟨l, s, rfl⟩
  · exact absurd rfl hne
  rw [List.concat_eq_append, List.foldl_append, List.foldl_cons, List.foldl_nil]
  rw [← hkeep l m] at hsize
  generalize l.foldl RvMutator.addCorpus m = m' at hsize
  intro hnil
  have hlen := congrArg List.length hnil
  unfold RvMutator.addCorpus at hlen
  dsimp only at hlen
  split at hlen
  · rename_i hfull
    rw [List.length_tail] at hlen
    rw [List.length_nil] at hlen
    omega
  · rw [List.length_append, List.length_singleton, List.length_nil] at hlen
    omega

/-- A mutator that has nothing yet gets nothing. -/
theorem Saves.not_exchanged {out : Text} {disk : Disk} {saved : List Saved} (h : Saves out disk saved)
    (updateNum : Nat) {st : RvMutator × World} (hempty : st.1.corpus = []) (hsize : 1 ≤ st.1.corpusSize)
    (hne : saved ≠ []) : ¬ Exchanged disk out saved updateNum st := by
  intro hex
  obtain ⟨st', saved', inputs, hrun, hperm, htaken, hcorpus⟩ := hex
  cases (h.updateCorpus updateNum st).symm.trans hrun
  rw [hempty] at hcorpus
  refine corpus_foldl_ne_nil (fun hnil => hne ?_) hsize hcorpus.symm
  rw [hnil, List.forall₂_nil_right_iff] at htaken
  rw [htaken] at hperm
  exact hperm.symm.eq_nil

/-- **The exchange of inputs**: every mutator gets what was saved exactly if nothing was saved. On any
    disk, a file that cannot be read is as good as absent. -/
theorem exchange_iff {out : Text} {disk : Disk} {saved : List Saved} (h : Saves out disk saved)
    (updateNum : Nat) :
    ((∀ st, Exchanged disk out saved updateNum st) ↔ saved = []) ∧
      ∀ (disk : Disk) (dir : Text) (i : Nat) (is : List Nat) (st : RvMutator × World),
        ¬ disk.Reads (siPath dir i) st → disk.tryFiles dir (i :: is) st = disk.tryFiles dir is st := by
  refine ⟨⟨fun hall => ?_, fun hnil st => ?_⟩, fun disk dir i is st hread => ?_⟩
  · by_contra hne
    exact h.not_exchanged updateNum rfl (by decide) hne (hall (RvMutator.new 100 100, ⟨[], none, none⟩))
  · subst hnil
    exact ⟨st, [], [], h.updateCorpus updateNum st, .nil, .nil, rfl⟩
  · exact Disk.tryFiles_unreadable hread is

namespace ExchangeDemo

def report : Saved := ⟨"plain".toList, 0, paddedInput, [7, 0xFFFFFFFFFFFFFFFF]⟩

/-- The disk after one input has been saved. -/
def disk : Disk where
  dirs := (Disk.new "output".toList).dirs
  files := Dict.empty.set (simInputPath "output".toList .corpus "plain".toList 0)
    (savedLines paddedInput [7, 0xFFFFFFFFFFFFFFFF]).flatten

theorem disk_saves : Saves "output".toList disk [report] :=
  .corpus report .start (Except.bind_ok.mpr ⟨_, save_eq paddedInput_saveable, rfl⟩)

end ExchangeDemo

theorem exchange_one : ¬ ∀ st, Exchanged ExchangeDemo.disk "output".toList [ExchangeDemo.report] 1000 st :=
  fun hall => absurd ((exchange_iff ExchangeDemo.disk_saves 1000).1.mp hall) (by decide)

/-- One input has been saved; another process finds five directories, and none of the five files that it
    looks for. -/
theorem exchange_loses : Saves "output".toList ExchangeDemo.disk [ExchangeDemo.report] ∧
    ExchangeDemo.disk.listdir (corpusDir "output".toList) = some Disk.subdirs ∧
    ¬ Exchanged ExchangeDemo.disk "output".toList [ExchangeDemo.report] 1000
      (RvMutator.new 100 100, ⟨[], none, none⟩) :=
  ⟨ExchangeDemo.disk_saves, by decide +kernel,
    ExchangeDemo.disk_saves.not_exchanged 1000 rfl (by decide) (List.cons_ne_nil _ _)⟩

end Difuzz.Fuzzer
