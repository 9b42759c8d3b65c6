/-
  File:      DifuzzRtl/Fuzzer/Reports.lean
  Subject:   The files that the campaigns on one directory save reports to.

  * `simInputPath_inj` -- the path tells the directory and the number.
  * `campaigns` -- campaigns on one directory, one after the other, each with any number of processes. A
    campaign starts with the numbers that the constructor finds in the directory.
  * `Numbered` -- a process saves a report only under a number that it has just taken from a counter.
    The loop does, except for illegal accesses and in the emulator phases (`run_numbered`).
  * `ReportsOk` -- the invariant: the numbers that are saved and those that are still owed make up a range.
  * `reports_distinct` -- in such runs no report is overwritten.
-/
import Mathlib.Data.List.Perm.Basic
import DifuzzRtl.Fuzzer.Numbering

namespace Difuzz.Fuzzer

open Text Prog

/-! ## 1. Paths -/

/-- A mark that is in neither of two texts separates them from what follows. -/
theorem append_mark_inj {c : Char} {a a' b b' : Text} (ha : c ∉ a) (ha' : c ∉ a')
    (h : a ++ c :: b = a' ++ c :: b') : a = a' ∧ b = b' := by
  have heq : a = a' := by
    have := congrArg (List.takeWhile (· != c)) h
    rwa [takeWhile_mark ha, takeWhile_mark ha'] at this
  subst heq
  exact ⟨rfl, (List.cons.inj (List.append_cancel_left h)).2⟩

/-- The same from the end. -/
theorem mark_append_inj {c : Char} {a a' b b' : Text} (hb : c ∉ b) (hb' : c ∉ b')
    (h : a ++ c :: b = a' ++ c :: b') : b = b' := by
  have hrev := congrArg List.reverse h
  rw [List.reverse_append, List.reverse_append, List.reverse_cons, List.reverse_cons,
    List.append_assoc, List.append_assoc] at hrev
  have := (append_mark_inj (by simpa using hb) (by simpa using hb') hrev).1
  exact List.reverse_injective this

theorem digits_inj {m n : Nat} (h : digits 10 m = digits 10 n) : m = n := by
  have hm := digitsValue_digits (b := 10) (n := m) (by decide) (by decide)
  rw [h, digitsValue_digits (by decide) (by decide)] at hm
  exact (Option.some.inj hm).symm

theorem slash_not_mem_name (d : Dir) : '/' ∉ d.name := by
  cases d <;> decide

theorem Dir.name_inj {d d' : Dir} (h : d.name = d'.name) : d = d' := by
  cases d <;> cases d' <;> first | rfl | exact absurd h (by decide)

/-- **The path of a report** tells its directory and its number. -/
theorem simInputPath_inj {out name name' : Text} {d d' : Dir} {n n' : Nat}
    (h : simInputPath out d name n = simInputPath out d' name' n') : d = d' ∧ n = n' := by
  unfold simInputPath at h
  simp only [List.append_assoc, List.cons_append] at h
  have h₁ := (List.cons.inj (List.append_cancel_left h)).2
  have hsim : "/sim_input/".toList = '/' :: "sim_input/".toList := rfl
  rw [hsim, List.cons_append, List.cons_append] at h₁
  obtain ⟨hname, h₂⟩ := append_mark_inj (slash_not_mem_name d) (slash_not_mem_name d') h₁
  have h₃ := List.append_cancel_left h₂
  simp only [← List.append_assoc, ← List.cons_append] at h₃
  have h₄ := List.append_cancel_right h₃
  exact ⟨Dir.name_inj hname, digits_inj (mark_append_inj (not_mem_digits (by decide) n)
    (not_mem_digits (by decide) n') h₄)⟩

/-! ## 2. Campaigns -/

/-- A path is one of a report in a directory. -/
def inSimInput (out : Text) (d : Dir) (path : Text) : Bool :=
  (out ++ '/' :: d.name ++ "/sim_input/".toList).isPrefixOf path

/-- `len(os.listdir(out + '/mismatch/sim_input'))`. -/
def mismatchFiles (out : Text) (saved : List Text) : Nat :=
  (saved.filter (inSimInput out .mismatch)).dedup.length

/-- `len(os.listdir(out + '/corpus'))`: its entries are the five directories. -/
def corpusFiles : Nat := ["sim_input", "elf", "asm", "hex", "bin"].length

/-- One step of a process, or the start of the next campaign with its batches. -/
inductive Move where
  | turn (i : Nat)
  | launch (o : Nat → Options) (its : Nat → List Iter)

/-- **The campaigns on one directory**, with `record` set, from an empty directory on. -/
def campaigns (out : Text) : Machine Campaign Move where
  init st := st.shared.saved = [] ∧ (∀ i, st.procs i = .ret ()) ∧ st.events = []
  step st m st' :=
    match m with
    | .turn i => st.turn Shared.handle i = some st'
    | .launch o its =>
        (∀ i, (o i).out = out ∧ (o i).record = true ∧ (o i).multicore = true) ∧
          ProcManager.new (mismatchFiles out st.shared.saved) corpusFiles st.shared.saved =
            some st'.shared ∧
          (∀ i, st'.procs i = run (o i) (its i)) ∧ st'.events = []

/-- The number of a mismatch is read, or a report is saved. -/
def unsavedAfter (i : Nat) (b : Bool) (x : Nat × Happens) : Bool :=
  if x.1 = i then
    match x.2 with
    | ⟨.read .mNum, _⟩ => true
    | ⟨.act (.saveMismatch _), _⟩ => false
    | _ => b
  else b

/-- A process has read the number of a mismatch and saved nothing since. -/
def unsaved (events : List (Nat × Happens)) (i : Nat) : Bool := events.foldl (unsavedAfter i) false

/-- **The condition.** A campaign is started only if every number of a mismatch that was read has been used
    and nothing is in the corpus yet; no RTL run ends with an illegal access; and the emulator is not
    configured. -/
def Orderly (out : Text) (st : Campaign) : Move → Prop
  | .turn _ => True
  | .launch o its =>
      (∀ i, unsaved st.events i = false) ∧ (∀ p ∈ st.shared.saved, inSimInput out .corpus p = false) ∧
        (∀ i, (o i).fuzzEmu = false) ∧ ∀ i, ∀ it ∈ its i, it.rtlRet ≠ illMem

/-! ## 3. Saving under a number -/

/-- The directory that a counter is for. -/
def Counter.dir : Counter → Dir
  | .mNum => .mismatch
  | .cNum => .corpus

/-- Where a process is with its number: in the pair, or with a report that it owes. -/
inductive Stage where
  | idle
  | entered (c : Counter)
  | holding (c : Counter) (n : Nat)
  | leaving (c : Counter) (n : Nat)
  | owing (c : Counter) (n : Nat)
  deriving DecidableEq

/-- The number of a mismatch is open. -/
def Stage.open : Stage → Bool
  | .holding .mNum _ | .leaving .mNum _ | .owing .mNum _ => true
  | _ => false

def Stage.phase : Stage → Phase
  | .idle | .owing .. => .idle
  | .entered c => .entered c
  | .holding c n => .holding c n
  | .leaving c n => .leaving c n

/-- The action is neither a step of a counter nor a report. -/
def Act.Other : Act → Prop
  | .p _ | .v _ | .write .. | .saveMismatch _ => False
  | _ => True

/-- **Every report is saved under a number that was taken for it.** -/
inductive Numbered (out : Text) {α : Type} : Stage → Program α → Prop where
  | done (a : α) : Numbered out .idle (.ret a)
  | other (sg : Stage) (a : Act) (k : Unit → Program α) (ha : a.Other) (h : Numbered out sg (k ())) :
      Numbered out sg (.op (.act a) k)
  | enter (c : Counter) (k : Unit → Program α) (h : Numbered out (.entered c) (k ())) :
      Numbered out .idle (.op (.act (.p c)) k)
  | obtain (c : Counter) (k : Nat → Program α) (h : ∀ n, Numbered out (.holding c n) (k n)) :
      Numbered out (.entered c) (.op (.read c) k)
  | store (c : Counter) (n : Nat) (k : Unit → Program α) (h : Numbered out (.leaving c n) (k ())) :
      Numbered out (.holding c n) (.op (.act (.write c (n + 1))) k)
  | leave (c : Counter) (n : Nat) (k : Unit → Program α) (h : Numbered out (.owing c n) (k ())) :
      Numbered out (.leaving c n) (.op (.act (.v c)) k)
  | save (c : Counter) (n : Nat) (name : Text) (k : Unit → Program α) (h : Numbered out .idle (k ())) :
      Numbered out (.owing c n) (.op (.act (.saveMismatch (simInputPath out c.dir name n))) k)

section Rules

variable {out : Text} {α β : Type}

theorem Act.Other.not_counts {a : Act} (h : a.Other) : ¬ a.Counts := by
  cases a <;> first | exact id | exact h.elim

theorem Numbered.paired {sg : Stage} {p : Program α} (h : Numbered out sg p) : Paired sg.phase p := by
  induction h with
  | done a => exact .done a
  | other sg a k ha _ ih => exact .other _ a k ha.not_counts ih
  | enter c k _ ih => exact .enter c k ih
  | obtain c k _ ih => exact .obtain c k ih
  | store c n k _ ih => exact .store c n k ih
  | leave c n k _ ih => exact .leave c n k ih
  | save c n name k _ ih => exact .other _ _ k id ih

theorem Numbered.bind {sg : Stage} {p : Program α} {f : α → Program β} (hp : Numbered out sg p)
    (hf : ∀ a, Numbered out .idle (f a)) : Numbered out sg (p >>= f) := by
  show Numbered out sg (p.bind f)
  induction hp with
  | done a => exact hf a
  | other sg a k ha _ ih => exact .other sg a _ ha ih
  | enter c k _ ih => exact .enter c _ ih
  | obtain c k _ ih => exact .obtain c _ ih
  | store c n k _ ih => exact .store c n _ ih
  | leave c n k _ ih => exact .leave c n _ ih
  | save c n name k _ ih => exact .save c n name _ ih

theorem numbered_pure (a : α) : Numbered out .idle (pure a : Program α) := .done a

theorem numbered_perform {a : Act} (h : a.Other) {f : Unit → Program β} {sg : Stage}
    (hf : Numbered out sg (f ())) : Numbered out sg (perform a >>= f) := .other sg a _ h hf

theorem numbered_ite {c : Prop} [Decidable c] {p q : Program α} {sg : Stage}
    (hp : c → Numbered out sg p) (hq : ¬ c → Numbered out sg q) :
    Numbered out sg (if c then p else q) := by
  split
  · rename_i h
    exact hp h
  · rename_i h
    exact hq h

/-- A number is taken, and a report follows. -/
theorem numbered_takeNum {c : Counter} {f : Nat → Program β}
    (hf : ∀ n, Numbered out (.owing c n) (f n)) : Numbered out .idle (takeNum c >>= f) :=
  .enter c _ (.obtain c _ fun n => .store c n _ (.leave c n _ (hf n)))

end Rules

section Loop

variable {o : Options} (hrec : o.record = true) (hmulti : o.multicore = true) (hemu : o.fuzzEmu = false)
  (i : Nat) (it : Iter) (s : Local)

include hrec in
theorem numbered_record {α : Type} {c : Counter} {n : Nat} {name : Text} {f : Unit → Program α}
    (hf : Numbered o.out .idle (f ())) :
    Numbered o.out (.owing c n) (recordMismatch o c.dir n name >>= f) := by
  rw [recordMismatch, if_pos hrec]
  exact .save c n name _ hf

include hmulti in
theorem numberOf_eq (c : Counter) (own : Nat) : numberOf o c own = takeNum c := if_pos hmulti

include hrec hmulti in
theorem guide_numbered : Numbered o.out .idle (guide o i it s) := by
  refine numbered_ite (fun _ => ?_) fun _ => numbered_pure s
  rw [numberOf_eq hmulti]
  refine numbered_takeNum fun n => ?_
  have hrest : Numbered o.out (.owing .cNum n) (do
      recordMismatch o .corpus n it.generatorName
      perform (.addCorpus it.simInput)
      perform (.updatePhase i)
      return { s with lastCoverage := it.coverage, coverageCount := n + 1 }) :=
    numbered_record (c := .cNum) hrec
      (numbered_perform (by trivial) (numbered_perform (by trivial) (numbered_pure _)))
  exact numbered_ite (fun _ => numbered_perform (by trivial) hrest) fun _ => hrest

include hrec hmulti hemu in
theorem nemuTest_numbered : Numbered o.out .idle (nemuTest o i it s) := by
  refine numbered_ite (fun _ => numbered_pure s) fun _ => ?_
  refine numbered_ite (fun h => ?_) fun _ => guide_numbered hrec hmulti i it s
  rw [hemu] at h
  cases h

include hrec hmulti hemu in
theorem reportMismatch_numbered : Numbered o.out .idle (reportMismatch o i it s) := by
  unfold reportMismatch
  rw [numberOf_eq hmulti]
  refine numbered_takeNum fun n => numbered_record (c := .mNum) hrec ?_
  exact numbered_ite (fun _ => numbered_pure _) fun _ => nemuTest_numbered hrec hmulti hemu i it _

include hrec hmulti hemu in
/-- An illegal access would be reported under the process's own number. -/
theorem verify_numbered (hill : it.rtlRet ≠ illMem) : Numbered o.out .idle (verify o i it s) := by
  have hreport := reportMismatch_numbered hrec hmulti hemu i it s
  refine numbered_ite (fun _ => ?_) fun _ => ?_
  · exact numbered_ite (fun _ => nemuTest_numbered hrec hmulti hemu i it s) fun _ => hreport
  · exact numbered_ite (fun h => absurd h hill) fun _ => hreport

include hrec hmulti hemu in
theorem rtlBranch_numbered (hill : it.rtlRet ≠ illMem) : Numbered o.out .idle (rtlBranch o i it s) := by
  have hverify := fun s => verify_numbered hrec hmulti hemu i it s hill
  refine numbered_perform (by trivial) (numbered_ite (fun _ => ?_) fun _ => hverify s)
  refine numbered_ite (fun _ => ?_) fun _ => numbered_pure s
  exact numbered_ite (fun _ => numbered_pure _) fun _ => hverify _

include hemu in
theorem emuBranch_numbered : Numbered o.out .idle (emuBranch o it s) := by
  refine numbered_ite (fun _ => numbered_pure s) fun _ => ?_
  have htest : emuTest o it s = pure () := if_neg (by rw [hemu]; decide)
  rw [htest]
  exact (numbered_pure ()).bind fun _ => numbered_perform (by trivial) (numbered_pure _)

include hrec hmulti hemu in
theorem iteration_numbered (hill : it.rtlRet ≠ illMem) : Numbered o.out .idle (iteration o i it s) := by
  have hact : ∀ {a : Act}, a.Other → Numbered o.out .idle (perform a) :=
    fun h => .other _ _ _ h (.done ())
  have hcorpus : Numbered o.out .idle (updateCorpus o i) := by
    refine numbered_ite (fun _ => ?_) fun _ => numbered_pure ()
    refine numbered_ite (fun _ => hact (by trivial)) fun _ => ?_
    exact numbered_ite (fun _ => hact (by trivial)) fun _ => numbered_pure ()
  have htest : Numbered o.out .idle (testInput o i it s) := by
    refine numbered_ite (fun _ => numbered_pure _) fun _ => ?_
    exact numbered_ite (fun _ => rtlBranch_numbered hrec hmulti hemu i it _ hill)
      fun _ => emuBranch_numbered hemu it _
  refine hcorpus.bind fun _ => numbered_ite (fun _ => ?_) fun _ => numbered_pure _
  exact htest.bind fun _ => numbered_pure _

include hrec hmulti hemu in
theorem fuzzFrom_numbered (its : List Iter) (hill : ∀ it ∈ its, it.rtlRet ≠ illMem) :
    Numbered o.out .idle (fuzzFrom o i its s) := by
  induction its generalizing i s with
  | nil => exact numbered_pure s
  | cons it its ih =>
      have hit := hill it List.mem_cons_self
      refine (iteration_numbered hrec hmulti hemu i it s hit).bind fun next => ?_
      cases next with
      | go s => exact ih (i + 1) s fun it' h => hill it' (List.mem_cons_of_mem _ h)
      | stop s => exact numbered_pure s

include hrec hmulti hemu in
/-- **A fuzzing process saves under numbers that it takes.** -/
theorem run_numbered (its : List Iter) (hill : ∀ it ∈ its, it.rtlRet ≠ illMem) :
    Numbered o.out .idle (run o its) := by
  have hfinish : ∀ s, Numbered o.out .idle (finish o its.length s) := by
    intro s
    have hrest : Numbered o.out .idle (do
        perform (.setState o.procNum s.stopFlag)
        perform (.covStore o.procNum)
        perform (.storeCovmap o.procNum (o.startIter + its.length))) :=
      numbered_perform (by trivial) (numbered_perform (by trivial) (.other _ _ _ (by trivial) (.done ())))
    exact numbered_ite (fun _ => numbered_perform (by trivial) hrest) fun _ => hrest
  have hfuzz : Numbered o.out .idle (do
      let s ← fuzzFrom o 0 its {}
      if o.multicore then finish o its.length s else pure ()) :=
    (fuzzFrom_numbered hrec hmulti hemu 0 {} its hill).bind fun s =>
      numbered_ite (fun _ => hfinish s) fun _ => numbered_pure ()
  exact numbered_ite (fun _ => numbered_perform (by trivial) hfuzz) fun _ => hfuzz

end Loop

/-! ## 4. The invariant -/

/-- A saved report, by the number that it has. -/
structure Report where
  counter : Counter
  name : Text
  num : Nat

def Report.path (out : Text) (r : Report) : Text := simInputPath out r.counter.dir r.name r.num

/-- The numbers of a counter that are saved. -/
def numsOf (c : Counter) (rs : List Report) : List Nat :=
  (rs.filter fun r => r.counter = c).map Report.num

/-- The first number of each counter in an empty directory. -/
def firstNum : Counter → Nat
  | .mNum => 0
  | .cNum => corpusFiles

/-- One process: where it is with its number, and what its events say of that. -/
structure ProcOk (out : Text) (st : Campaign) (i : Nat) (sg : Stage) : Prop where
  numbered : Numbered out sg (st.procs i)
  last : ∀ c n, sg = .holding c n ∨ sg = .leaving c n → (ledger c st.events).last i = n
  unsaved : unsaved st.events i = sg.open

/-- The numbers: `owed` are those that a process has taken and not used yet. Together with the saved ones
    they are `total` consecutive numbers. -/
structure NumsOk (out : Text) (init : Counter → Nat) (st : Campaign) (φ : Nat → Stage)
    (reports : List Report) (owed : Counter → List (Nat × Nat)) (total : Counter → Nat) : Prop where
  saved : st.shared.saved = reports.map (Report.path out)
  owing : ∀ c i n, (i, n) ∈ owed c ↔ φ i = .owing c n
  nums : ∀ c, (numsOf c reports ++ (owed c).map Prod.snd).Perm (List.range' (firstNum c) (total c))
  count : ∀ c, init c + (ledger c st.events).done.length = firstNum c + total c

/-- **The invariant of the directory.** Before the first campaign there are no processes. -/
def ReportsOk (out : Text) (st : Campaign) : Prop :=
  ∃ init φ reports owed total, (Inv init st ∨ ∀ i, st.procs i = .ret ()) ∧
    (∀ i, ProcOk out st i (φ i)) ∧ NumsOk out init st φ reports owed total

section Facts

variable {out : Text}

theorem Counter.dir_inj {c c' : Counter} (h : c.dir = c'.dir) : c = c' := by
  cases c <;> cases c' <;> first | rfl | cases h

/-- Reports whose numbers differ are saved to different paths. -/
theorem nodup_paths {rs : List Report} (h : ∀ c, (numsOf c rs).Nodup) :
    (rs.map (Report.path out)).Nodup := by
  induction rs with
  | nil => exact List.nodup_nil
  | cons r rs ih =>
      have hcons : ∀ c, numsOf c (r :: rs) = if r.counter = c then r.num :: numsOf c rs else numsOf c rs := by
        intro c
        unfold numsOf
        rw [List.filter_cons]
        by_cases hc : r.counter = c <;> simp [hc]
      refine List.nodup_cons.mpr ⟨fun hmem => ?_, ih fun c => ?_⟩
      · obtain ⟨r', hr', hpath⟩ := List.mem_map.mp hmem
        obtain ⟨hdir, hnum⟩ := simInputPath_inj hpath
        have hnew := h r.counter
        rw [hcons, if_pos rfl, List.nodup_cons] at hnew
        refine hnew.1 (List.mem_map.mpr ⟨r', List.mem_filter.mpr ⟨hr', ?_⟩, hnum⟩)
        exact decide_eq_true (Counter.dir_inj hdir)
      · have hc := h c
        rw [hcons] at hc
        split at hc
        · exact (List.nodup_cons.mp hc).2
        · exact hc

/-- The directory of a path. -/
theorem inSimInput_path (d d' : Dir) (name : Text) (n : Nat) :
    inSimInput out d (simInputPath out d' name n) = true ↔ d = d' := by
  unfold inSimInput simInputPath
  rw [List.isPrefixOf_iff_prefix]
  have hsim : "/sim_input/".toList = '/' :: "sim_input/".toList := rfl
  constructor
  · intro h
    obtain ⟨t, ht⟩ := h
    simp only [List.append_assoc, List.cons_append, hsim] at ht
    have ht := (List.cons.inj (List.append_cancel_left ht)).2
    exact Dir.name_inj (append_mark_inj (slash_not_mem_name d) (slash_not_mem_name d') ht).1
  · rintro rfl
    simp only [List.append_assoc]
    exact ⟨name ++ ('_' :: digits 10 n ++ ".si".toList), by simp⟩

theorem filter_paths (c : Counter) (rs : List Report) :
    (rs.map (Report.path out)).filter (inSimInput out c.dir) =
      (rs.filter fun r => r.counter = c).map (Report.path out) := by
  rw [List.filter_map]
  refine congrArg _ (List.filter_congr fun r _ => ?_)
  refine Bool.eq_iff_iff.mpr ((inSimInput_path ..).trans ?_)
  rw [decide_eq_true_iff]
  exact ⟨fun h => (Counter.dir_inj h).symm, fun h => h ▸ rfl⟩

variable {init : Counter → Nat} {st : Campaign} {φ : Nat → Stage} {reports : List Report}
  {owed : Counter → List (Nat × Nat)} {total : Counter → Nat}

theorem NumsOk.nodup (h : NumsOk out init st φ reports owed total) (c : Counter) :
    (numsOf c reports ++ (owed c).map Prod.snd).Nodup := (h.nums c).nodup_iff.mpr List.nodup_range'

theorem NumsOk.saved_nodup (h : NumsOk out init st φ reports owed total) : st.shared.saved.Nodup := by
  rw [h.saved]
  exact nodup_paths fun c => (List.nodup_append.mp (h.nodup c)).1

/-- The listing counts the reports. -/
theorem NumsOk.mismatchFiles (h : NumsOk out init st φ reports owed total) :
    mismatchFiles out st.shared.saved = (numsOf .mNum reports).length := by
  unfold Fuzzer.mismatchFiles
  rw [(h.saved_nodup.filter _).dedup, h.saved]
  show ((reports.map (Report.path out)).filter (inSimInput out Counter.mNum.dir)).length = _
  rw [filter_paths, numsOf, List.length_map, List.length_map]

end Facts

/-! ## 5. Steps -/

theorem unsaved_append (events : List (Nat × Happens)) (x : Nat × Happens) (i : Nat) :
    unsaved (events ++ [x]) i = unsavedAfter i (unsaved events i) x := by
  rw [unsaved, List.foldl_append]
  rfl

/-- The events of one process do not concern the others. -/
theorem Ledger.add_last_of_ne {c : Counter} {L : Ledger} {i j : Nat} (h : j ≠ i) (x : Happens) :
    (L.add c (i, x)).last j = L.last j := by
  obtain ⟨e, r⟩ := x
  cases e with
  | act a =>
      cases a with
      | p c' =>
          show (if c' = c then _ else _ : Ledger).last j = _
          split <;> rfl
      | v c' =>
          show (if c' = c then _ else _ : Ledger).last j = _
          split <;> rfl
      | _ => rfl
  | read c' =>
      show (if c' = c then _ else _ : Ledger).last j = _
      split
      · exact Function.update_of_ne h _ _
      · rfl
  | raise => exact r.elim

section Turn

variable {out : Text} {init : Counter → Nat} {st : Campaign} {φ : Nat → Stage} {reports : List Report}
  {owed : Counter → List (Nat × Nat)} {total : Counter → Nat} {shared : Shared} {p : Program Unit}
  {i : Nat} {x : Happens} {sg : Stage}

/-- The other processes are where they were. -/
theorem ProcOk.frame {j : Nat} (h : ProcOk out st j sg) (hji : j ≠ i) :
    ProcOk out ⟨shared, Function.update st.procs i p, st.events ++ [(i, x)]⟩ j sg where
  numbered := by
    show Numbered out sg (Function.update st.procs i p j)
    rw [Function.update_of_ne hji]
    exact h.numbered
  last c n hsg := by
    show (ledger c (st.events ++ [(i, x)])).last j = n
    rw [ledger_append, Ledger.add_last_of_ne hji]
    exact h.last c n hsg
  unsaved := by
    show Fuzzer.unsaved (st.events ++ [(i, x)]) j = sg.open
    rw [unsaved_append, unsavedAfter, if_neg (Ne.symm hji)]
    exact h.unsaved

/-- The process itself. -/
theorem ProcOk.advance (hp : Numbered out sg p)
    (hlast : ∀ c n, sg = .holding c n ∨ sg = .leaving c n →
      ((ledger c st.events).add c (i, x)).last i = n)
    (hopen : unsavedAfter i (Fuzzer.unsaved st.events i) (i, x) = sg.open) :
    ProcOk out ⟨shared, Function.update st.procs i p, st.events ++ [(i, x)]⟩ i sg where
  numbered := by
    show Numbered out sg (Function.update st.procs i p i)
    rw [Function.update_self]
    exact hp
  last c n hsg := by
    show (ledger c (st.events ++ [(i, x)])).last i = n
    rw [ledger_append]
    exact hlast c n hsg
  unsaved := by
    show Fuzzer.unsaved (st.events ++ [(i, x)]) i = sg.open
    rw [unsaved_append]
    exact hopen

/-- Nothing is taken or saved. -/
theorem NumsOk.frame (h : NumsOk out init st φ reports owed total) (hsaved : shared.saved = st.shared.saved)
    (howing : ∀ c n, sg = .owing c n ↔ φ i = .owing c n)
    (hdone : ∀ c, ((ledger c st.events).add c (i, x)).done = (ledger c st.events).done) :
    NumsOk out init ⟨shared, Function.update st.procs i p, st.events ++ [(i, x)]⟩
      (Function.update φ i sg) reports owed total where
  saved := hsaved.trans h.saved
  owing c j n := by
    rw [h.owing]
    by_cases hji : j = i
    · subst hji
      rw [Function.update_self]
      exact (howing c n).symm
    · rw [Function.update_of_ne hji]
  nums := h.nums
  count c := by
    show init c + (ledger c (st.events ++ [(i, x)])).done.length = _
    rw [ledger_append, hdone]
    exact h.count c

/-- **V**: the number of the pair is the next one, and it is owed. -/
theorem NumsOk.leave {c : Counter} {n : Nat} (h : NumsOk out init st φ reports owed total)
    (hsaved : shared.saved = st.shared.saved) (hi : φ i = .leaving c n)
    (hlast : (ledger c st.events).last i = n)
    (hnext : (ledger c st.events).done ++ [(ledger c st.events).last i] =
      List.range' (init c) ((ledger c st.events).done.length + 1)) :
    NumsOk out init ⟨shared, Function.update st.procs i p, st.events ++ [(i, ⟨.act (.v c), ()⟩)]⟩
      (Function.update φ i (.owing c n)) reports (Function.update owed c ((i, n) :: owed c))
      (Function.update total c (total c + 1)) := by
  -- the number of a pair that is complete is the value that the counter had
  have hn : n = firstNum c + total c := by
    have hcat := hnext
    rw [List.range'_1_concat] at hcat
    have := (List.cons.inj (List.append_inj' hcat rfl).2).1
    rw [← h.count c, ← hlast, this]
  have hadd : ∀ c', ((ledger c' st.events).add c' (i, ⟨.act (.v c), ()⟩)).done.length =
      (ledger c' st.events).done.length + if c' = c then 1 else 0 := by
    intro c'
    show (if c = c' then _ else _ : Ledger).done.length = _
    by_cases hc : c = c'
    · simp [hc]
    · simp [hc, Ne.symm hc]
  refine ⟨hsaved.trans h.saved, fun c' j m => ?_, fun c' => ?_, fun c' => ?_⟩
  · by_cases hji : j = i
    · subst hji
      have hnot : (j, m) ∉ owed c' := by
        rw [h.owing, hi]
        nofun
      rw [Function.update_self]
      by_cases hc : c' = c
      · subst hc
        rw [Function.update_self, List.mem_cons, Prod.mk.injEq, Stage.owing.injEq]
        constructor
        · intro hx
          rcases hx with ⟨-, rfl⟩ | hm
          · exact ⟨rfl, rfl⟩
          · exact absurd hm hnot
        · intro hx
          obtain ⟨-, rfl⟩ := hx
          exact .inl ⟨rfl, rfl⟩
      · rw [Function.update_of_ne hc, Stage.owing.injEq]
        exact iff_of_false hnot fun he => hc he.1.symm
    · rw [Function.update_of_ne hji, ← h.owing]
      by_cases hc : c' = c
      · subst hc
        rw [Function.update_self, List.mem_cons, Prod.mk.injEq]
        exact or_iff_right fun he => hji he.1
      · rw [Function.update_of_ne hc]
  · by_cases hc : c' = c
    · subst hc
      rw [Function.update_self, Function.update_self, List.range'_1_concat, ← hn, List.map_cons]
      exact List.perm_middle.trans ((h.nums c').cons n |>.trans (List.perm_append_singleton n _).symm)
    · rw [Function.update_of_ne hc, Function.update_of_ne hc]
      exact h.nums c'
  · show init c' + (ledger c' (st.events ++ [_])).done.length = _
    have hcount := h.count c'
    rw [ledger_append, hadd]
    by_cases hc : c' = c
    · subst hc
      rw [Function.update_self, if_pos rfl]
      omega
    · rw [Function.update_of_ne hc, if_neg hc]
      exact hcount

theorem numsOf_concat (c : Counter) (rs : List Report) (r : Report) :
    numsOf c (rs ++ [r]) = numsOf c rs ++ if r.counter = c then [r.num] else [] := by
  unfold numsOf
  by_cases hc : r.counter = c <;> simp [hc]

/-- **A report is saved**: what was owed is used. -/
theorem NumsOk.save {c : Counter} {n : Nat} {name : Text} (h : NumsOk out init st φ reports owed total)
    (hsaved : shared.saved = st.shared.saved ++ [simInputPath out c.dir name n]) (hi : φ i = .owing c n)
    (hdone : ∀ c, ((ledger c st.events).add c (i, x)).done = (ledger c st.events).done) :
    NumsOk out init ⟨shared, Function.update st.procs i p, st.events ++ [(i, x)]⟩
      (Function.update φ i .idle) (reports ++ [⟨c, name, n⟩])
      (Function.update owed c ((owed c).erase (i, n))) total := by
  have hmem : (i, n) ∈ owed c := (h.owing c i n).mpr hi
  have hnodup : (owed c).Nodup := .of_map Prod.snd (List.nodup_append.mp (h.nodup c)).2.1
  refine ⟨?_, fun c' j m => ?_, fun c' => ?_, fun c' => ?_⟩
  · show shared.saved = _
    rw [hsaved, h.saved, List.map_append]
    rfl
  · by_cases hji : j = i
    · subst hji
      rw [Function.update_self]
      refine iff_of_false ?_ nofun
      by_cases hc : c' = c
      · subst hc
        rw [Function.update_self, hnodup.mem_erase_iff, h.owing, hi]
        intro hx
        obtain ⟨hne, he⟩ := hx
        cases he
        exact hne rfl
      · rw [Function.update_of_ne hc, h.owing, hi]
        intro he
        cases he
        exact hc rfl
    · rw [Function.update_of_ne hji, ← h.owing]
      by_cases hc : c' = c
      · subst hc
        rw [Function.update_self]
        exact List.mem_erase_of_ne fun he => hji (congrArg Prod.fst he)
      · rw [Function.update_of_ne hc]
  · refine List.Perm.trans ?_ (h.nums c')
    rw [numsOf_concat, List.append_assoc]
    by_cases hc : c' = c
    · subst hc
      rw [Function.update_self, if_pos rfl]
      exact ((List.perm_cons_erase hmem).map Prod.snd).symm.append_left _
    · rw [Function.update_of_ne hc, if_neg (Ne.symm hc), List.nil_append]
  · show init c' + (ledger c' (st.events ++ [(i, x)])).done.length = _
    rw [ledger_append, hdone]
    exact h.count c'

theorem Act.Other.handle {a : Act} {u : Unit} {s s' : Shared} (ha : a.Other)
    (h : s.handle (.act a) = some (u, s')) : s' = s := by
  cases a with
  | p c => exact ha.elim
  | v c => exact ha.elim
  | write c n => exact ha.elim
  | saveMismatch path => exact ha.elim
  | _ =>
      cases h
      rfl

theorem Act.Other.unsavedAfter {a : Act} {u : Unit} (ha : a.Other) (b : Bool) :
    unsavedAfter i b (i, ⟨.act a, u⟩) = b := by
  refine (if_pos rfl).trans ?_
  cases a with
  | saveMismatch path => exact ha.elim
  | _ => rfl

/-- What a step of process `i` leaves to show: the process has a stage, and the numbers are right. -/
def Turned (out : Text) (init : Counter → Nat) (st : Campaign) (φ : Nat → Stage) (i : Nat) : Prop :=
  ∃ sg reports owed total, ProcOk out st i sg ∧
    NumsOk out init st (Function.update φ i sg) reports owed total

/-- What concerns no number leaves the stage. -/
theorem NumsOk.turn_other {a : Act} {u : Unit} (h : NumsOk out init st φ reports owed total)
    (hi : φ i = sg) (hok : ProcOk out st i sg) (ha : a.Other) (hp : Numbered out sg p)
    (hs : st.shared.handle (.act a) = some (u, shared)) :
    Turned out init ⟨shared, Function.update st.procs i p, st.events ++ [(i, ⟨.act a, u⟩)]⟩ φ i := by
  have hadd : ∀ c, (ledger c st.events).add c (i, ⟨.act a, u⟩) = ledger c st.events :=
    fun c => add_other ha.not_counts c _ i
  refine ⟨sg, reports, owed, total, .advance hp (fun c n hsg => ?_) ?_, h.frame ?_ ?_ fun c => ?_⟩
  · rw [hadd]
    exact hok.last c n hsg
  · rw [ha.unsavedAfter]
    exact hok.unsaved
  · rw [ha.handle hs]
  · rw [hi]
    exact fun _ _ => Iff.rfl
  · rw [hadd]

/-- **P**: the process is in the pair. -/
theorem NumsOk.turn_enter {c : Counter} {u : Unit} (h : NumsOk out init st φ reports owed total)
    (hi : φ i = .idle) (hok : ProcOk out st i .idle) (hp : Numbered out (.entered c) p)
    (hs : st.shared.handle (.act (.p c)) = some (u, shared)) :
    Turned out init ⟨shared, Function.update st.procs i p, st.events ++ [(i, ⟨.act (.p c), u⟩)]⟩ φ i := by
  have hsaved : shared.saved = st.shared.saved := by
    unfold Shared.handle at hs
    dsimp only at hs
    split at hs
    · cases hs
      rfl
    · cases hs
  refine ⟨.entered c, reports, owed, total, .advance hp (fun c' n hsg => ?_) ?_,
    h.frame hsaved ?_ fun c' => ?_⟩
  · rcases hsg with hsg | hsg <;> cases hsg
  · exact (if_pos rfl).trans hok.unsaved
  · rw [hi]
    exact fun _ _ => iff_of_false nofun nofun
  · show (if c = c' then _ else _ : Ledger).done = _
    split <;> rfl

/-- The process reads the counter. -/
theorem NumsOk.turn_obtain {c : Counter} {n : Nat} (h : NumsOk out init st φ reports owed total)
    (hi : φ i = .entered c) (hok : ProcOk out st i (.entered c)) (hp : Numbered out (.holding c n) p)
    (hs : st.shared.handle (.read c) = some (n, shared)) :
    Turned out init ⟨shared, Function.update st.procs i p, st.events ++ [(i, ⟨.read c, n⟩)]⟩ φ i := by
  cases hs
  refine ⟨.holding c (st.shared.value c), reports, owed, total, .advance hp (fun c' n hsg => ?_) ?_,
    h.frame rfl ?_ fun c' => ?_⟩
  · rcases hsg with hsg | hsg
    · cases hsg
      show (if c = c then _ else _ : Ledger).last i = _
      rw [if_pos rfl]
      exact Function.update_self ..
    · cases hsg
  · refine (if_pos rfl).trans ?_
    cases c with
    | mNum => rfl
    | cNum => exact hok.unsaved
  · rw [hi]
    exact fun _ _ => iff_of_false nofun nofun
  · show (if c = c' then _ else _ : Ledger).done = _
    split <;> rfl

/-- The process writes the next number back. -/
theorem NumsOk.turn_store {c : Counter} {n m : Nat} {u : Unit}
    (h : NumsOk out init st φ reports owed total) (hi : φ i = .holding c n)
    (hok : ProcOk out st i (.holding c n)) (hp : Numbered out (.leaving c n) p)
    (hs : st.shared.handle (.act (.write c m)) = some (u, shared)) :
    Turned out init ⟨shared, Function.update st.procs i p, st.events ++ [(i, ⟨.act (.write c m), u⟩)]⟩
      φ i := by
  obtain ⟨bs, -, hs⟩ := Option.map_eq_some_iff.mp hs
  cases hs
  refine ⟨.leaving c n, reports, owed, total, .advance hp (fun c' k hsg => ?_) ?_,
    h.frame rfl ?_ fun c' => rfl⟩
  · rcases hsg with hsg | hsg
    · cases hsg
    · cases hsg
      exact hok.last c n (.inl rfl)
  · refine ((if_pos rfl).trans hok.unsaved).trans ?_
    cases c <;> rfl
  · rw [hi]
    exact fun _ _ => iff_of_false nofun nofun

/-- **V**: the process owes a report. The invariant of the counter says which number the pair has. -/
theorem NumsOk.turn_leave {c : Counter} {n : Nat} {u : Unit} (h : NumsOk out init st φ reports owed total)
    (hi : φ i = .leaving c n) (hok : ProcOk out st i (.leaving c n)) (hp : Numbered out (.owing c n) p)
    (hs : st.shared.handle (.act (.v c)) = some (u, shared))
    (hinv : Inv init ⟨shared, Function.update st.procs i p, st.events ++ [(i, ⟨.act (.v c), u⟩)]⟩) :
    Turned out init ⟨shared, Function.update st.procs i p, st.events ++ [(i, ⟨.act (.v c), u⟩)]⟩ φ i := by
  cases hs
  obtain ⟨_, -, hcount⟩ := hinv
  have hnext := (hcount c).done
  rw [ledger_append] at hnext
  have hadd : ((ledger c st.events).add c (i, ⟨.act (.v c), ()⟩)).done =
      (ledger c st.events).done ++ [(ledger c st.events).last i] :=
    congrArg Ledger.done (if_pos rfl)
  rw [hadd, List.length_append, List.length_singleton] at hnext
  refine ⟨.owing c n, reports, _, _, .advance hp (fun c' k hsg => ?_) ?_,
    h.leave rfl hi (hok.last c n (.inr rfl)) hnext⟩
  · rcases hsg with hsg | hsg <;> cases hsg
  · refine ((if_pos rfl).trans hok.unsaved).trans ?_
    cases c <;> rfl

/-- The report is saved. -/
theorem NumsOk.turn_save {c : Counter} {n : Nat} {name : Text} {u : Unit}
    (h : NumsOk out init st φ reports owed total) (hi : φ i = .owing c n) (hp : Numbered out .idle p)
    (hs : st.shared.handle (.act (.saveMismatch (simInputPath out c.dir name n))) = some (u, shared)) :
    Turned out init ⟨shared, Function.update st.procs i p,
      st.events ++ [(i, ⟨.act (.saveMismatch (simInputPath out c.dir name n)), u⟩)]⟩ φ i := by
  cases hs
  refine ⟨.idle, _, _, total, .advance hp (fun c' k hsg => ?_) (if_pos rfl), h.save rfl hi fun _ => rfl⟩
  rcases hsg with hsg | hsg <;> cases hsg

/-- A step of process `i` keeps the invariant when it leaves the process and the numbers right. -/
theorem Turned.reportsOk (h : Turned out init ⟨shared, Function.update st.procs i p, st.events ++ [(i, x)]⟩ φ i)
    (hinv : Inv init ⟨shared, Function.update st.procs i p, st.events ++ [(i, x)]⟩)
    (hproc : ∀ j, ProcOk out st j (φ j)) :
    ReportsOk out ⟨shared, Function.update st.procs i p, st.events ++ [(i, x)]⟩ := by
  obtain ⟨sg, reports, owed, total, hi, hn⟩ := h
  refine ⟨init, Function.update φ i sg, reports, owed, total, .inl hinv, fun j => ?_, hn⟩
  by_cases hji : j = i
  · subst hji
    rw [Function.update_self]
    exact hi
  · rw [Function.update_of_ne hji]
    exact (hproc j).frame hji

/-- **One step of any process keeps the invariant.** -/
theorem ReportsOk.turn {st' : Campaign} (h : ReportsOk out st) (hs : st.turn Shared.handle i = some st') :
    ReportsOk out st' := by
  obtain ⟨init, φ, reports, owed, total, hinv, hproc, hnums⟩ := h
  obtain ⟨e, k, r, shared, hop, hhandle, hst'⟩ := Processes.turn_eq_some hs
  have hinv : Inv init st := by
    rcases hinv with hinv | hret
    · exact hinv
    · rw [hret i] at hop
      cases hop
  have hinv' := hinv.turn hs
  subst hst'
  refine Turned.reportsOk ?_ hinv' hproc
  -- the stage of the process says which event comes next
  have hok := hproc i
  have hp := hok.numbered
  rw [hop] at hp
  generalize hphi : φ i = ψ at hp hok
  cases hp with
  | other _ a _ ha hk => exact hnums.turn_other hphi hok ha hk hhandle
  | enter c _ hk => exact hnums.turn_enter hphi hok hk hhandle
  | obtain c _ hk => exact hnums.turn_obtain hphi hok (hk _) hhandle
  | store c n _ hk => exact hnums.turn_store hphi hok hk hhandle
  | leave c n _ hk => exact hnums.turn_leave hphi hok hk hhandle hinv'
  | save c n name _ hk => exact hnums.turn_save hphi hk hhandle

end Turn

/-! ## 6. Every run -/

section Run

variable {out : Text} {st st' : Campaign}

/-- A process that has not done anything yet. -/
theorem procOk_idle {i : Nat} (hp : Numbered out .idle (st.procs i)) (hevents : st.events = []) :
    ProcOk out st i .idle where
  numbered := hp
  last c n hsg := by
    rcases hsg with hsg | hsg <;> cases hsg
  unsaved := by
    rw [hevents]
    rfl

/-- **The next campaign** goes on where the listing of the directory ends. -/
theorem ReportsOk.launch {o : Nat → Options} {its : Nat → List Iter} (h : ReportsOk out st)
    (hord : Orderly out st (.launch o its)) (hs : (campaigns out).step st (.launch o its) st') :
    ReportsOk out st' := by
  obtain ⟨init, φ, reports, owed, total, -, hproc, hnums⟩ := h
  obtain ⟨hunsaved, hcorpus, hemu, hill⟩ := hord
  obtain ⟨hopts, hnew, hprocs, hevents⟩ := hs
  have hnumbered : ∀ i, Numbered out .idle (st'.procs i) := by
    intro i
    obtain ⟨hout, hrec, hmulti⟩ := hopts i
    rw [hprocs, ← hout]
    exact run_numbered hrec hmulti (hemu i) (its i) (hill i)
  have hinv : Inv (initial (mismatchFiles out st.shared.saved) corpusFiles) st' :=
    inv_start ⟨⟨_, hnew⟩, fun i => (hnumbered i).paired, hevents⟩
  -- no number of a mismatch is owed
  have howed : owed .mNum = [] := by
    refine List.eq_nil_iff_forall_not_mem.mpr fun x hx => ?_
    have hopen := (hproc x.1).unsaved
    rw [hunsaved, (hnums.owing .mNum x.1 x.2).mp hx] at hopen
    cases hopen
  have hm : (numsOf .mNum reports).Perm (List.range' 0 (total .mNum)) := by
    have := hnums.nums .mNum
    rwa [howed, List.map_nil, List.append_nil] at this
  have hc : numsOf .cNum reports = [] := by
    refine List.map_eq_nil_iff.mpr (List.filter_eq_nil_iff.mpr fun r hr hrc => ?_)
    have hin := hcorpus (r.path out) (hnums.saved ▸ List.mem_map_of_mem hr)
    have hdir : Dir.corpus = r.counter.dir := congrArg Counter.dir (of_decide_eq_true hrc).symm
    rw [Report.path, (inSimInput_path ..).mpr hdir] at hin
    cases hin
  refine ⟨_, fun _ => .idle, reports, fun _ => [], Function.update total .cNum 0, .inl hinv,
    fun i => procOk_idle (hnumbered i) hevents,
    ⟨?_, fun c i n => iff_of_false nofun nofun, fun c => ?_, fun c => ?_⟩⟩
  · rw [(ProcManager.new_spec hnew .mNum).2.2]
    exact hnums.saved
  · rw [List.map_nil, List.append_nil]
    cases c with
    | mNum => exact hm
    | cNum =>
        rw [hc]
        exact .nil
  · rw [hevents]
    cases c with
    | mNum =>
        show mismatchFiles out st.shared.saved + 0 = 0 + total .mNum
        rw [hnums.mismatchFiles, hm.length_eq, List.length_range', Nat.zero_add, Nat.add_zero]
    | cNum => rfl

theorem reportsOk_start (h : (campaigns out).init st) : ReportsOk out st := by
  obtain ⟨hsaved, hret, hevents⟩ := h
  refine ⟨firstNum, fun _ => .idle, [], fun _ => [], fun _ => 0, .inr hret, fun i => ?_,
    ⟨hsaved, fun c i n => iff_of_false nofun nofun, fun c => .nil, fun c => ?_⟩⟩
  · refine procOk_idle ?_ hevents
    rw [hret]
    exact .done ()
  · rw [hevents]
    rfl

/-- **No saved report is overwritten.** In every run of campaigns on one directory that is orderly, the
    paths that reports have been saved to are pairwise different. -/
theorem reports_distinct {tr : List (Campaign × Move × Campaign)} (h : (campaigns out).Trace tr st)
    (hord : Machine.Along (Orderly out) tr) : st.shared.saved.Nodup := by
  have hinv : ReportsOk out st := by
    refine h.inv (fun s hs => reportsOk_start hs) (fun s m s' hI hP hs => ?_) hord
    cases m with
    | turn i => exact hI.turn hs
    | launch o its => exact hI.launch hP hs
  obtain ⟨_, _, _, _, _, -, -, hnums⟩ := hinv
  exact hnums.saved_nodup

end Run

/-! ## 7. Two processes -/

namespace ReportsDemo

/-- The directory before the first campaign. -/
def empty : Campaign := ⟨⟨fun _ => 0, fun _ => [], []⟩, fun _ => .ret (), []⟩

/-- A campaign whose processes have one iteration each. -/
def started (it : Iter) : Campaign where
  shared := (ProcManager.new 0 5 []).getD ⟨fun _ => 0, fun _ => [], []⟩
  procs := fun i => run (.campaign i) [it]
  events := []

def move (st : Campaign) : Move → Option Campaign
  | .turn i => st.turn Shared.handle i
  | .launch .. => none

/-- Two processes start side by side; then each has some more turns. -/
def turns (n : Nat) : List Move :=
  ([0, 1, 0, 1] ++ List.replicate n 0 ++ List.replicate n 1).map .turn

theorem launch_trace (it : Iter) : (campaigns "output".toList).Trace
    [(empty, .launch (fun i => .campaign i) fun _ => [it], started it)] (started it) := by
  have hempty : (campaigns "output".toList).init empty := ⟨rfl, fun _ => rfl, rfl⟩
  exact .step _ _ (.start empty hempty) ⟨fun _ => ⟨rfl, rfl, rfl⟩, rfl, fun _ => rfl, rfl⟩

theorem turns_trace (it : Iter) (n : Nat) : (campaigns "output".toList).Trace
    ([(empty, .launch (fun i => .campaign i) fun _ => [it], started it)] ++
      (exec move (started it) (turns n)).1) (exec move (started it) (turns n)).2 := by
  refine Machine.exec_trace (fun s m s' hm => ?_) (launch_trace it) (turns n)
  cases m with
  | turn i => exact hm
  | launch => cases hm

theorem turns_orderly (n : Nat) : Machine.Along (Orderly "output".toList)
    ([(empty, .launch (fun i => .campaign i) fun _ => [NumberingDemo.mismatching],
      started NumberingDemo.mismatching)] ++ (exec move (started NumberingDemo.mismatching) (turns n)).1) := by
  refine Machine.along_append.mpr ⟨fun x hx => ?_, fun x hx => ?_⟩
  · rw [List.mem_singleton.mp hx]
    refine ⟨fun i => rfl, nofun, fun i => rfl, fun i it hit => ?_⟩
    rw [List.mem_singleton.mp hit]
    decide
  · have hturns : ∀ m ∈ turns n, ∃ i, m = .turn i := by
      intro m hm
      obtain ⟨i, -, rfl⟩ := List.mem_map.mp hm
      exact ⟨i, rfl⟩
    obtain ⟨i, hi⟩ := exec_along hturns (started NumberingDemo.mismatching) x hx
    rw [hi]
    trivial

end ReportsDemo

/-- Two processes save a mismatch each. -/
theorem reports_distinct_two :
    (exec ReportsDemo.move (ReportsDemo.started NumberingDemo.mismatching)
        (ReportsDemo.turns 6)).2.shared.saved =
        ["output/mismatch/sim_input/plain_0.si".toList, "output/mismatch/sim_input/plain_1.si".toList] ∧
      (exec ReportsDemo.move (ReportsDemo.started NumberingDemo.mismatching)
        (ReportsDemo.turns 6)).2.shared.saved.Nodup :=
  ⟨by decide, reports_distinct (ReportsDemo.turns_trace _ 6) (ReportsDemo.turns_orderly 6)⟩

/-- Two processes with an illegal access each save it to the same path, for each counts its own. -/
theorem reports_overwritten :
    ∃ tr st, (campaigns "output".toList).Trace tr st ∧ ¬ st.shared.saved.Nodup :=
  ⟨_, _, ReportsDemo.turns_trace { Iter.calm with rtlRet := illMem } 2, by decide⟩

end Difuzz.Fuzzer
