/-
  File:      DifuzzRtl/Fuzzer/Manager.lean
  Subject:   What the processes of a campaign share (`procManager` of src/multicore_manager.py).

  * `ProcState` -- the states of a process, and the table of them; `waitCheck` -- how the parent reads it
    (`wait_check` of DifuzzRTL.py).
  * `toBytes`, `fromBytes` -- a number in shared memory: four bytes, the lowest first.
  * `Act`, `Eff`, `Ans` -- what a fuzzing process asks for: the steps of the semaphores and of the shared
    memory one by one, and what it does to files and to its own mutator.
  * `Shared`, `handle` -- the shared state, and how it answers.
  * `readNum`, `writeNum` -- the lock is taken in the one and released in the other.
  * `ProcManager.new` -- the constructor: its own `write_num` opens the semaphores.
-/
import DifuzzRtl.Lib.Programs
import DifuzzRtl.Lib.Text
import DifuzzRtl.Mutator.SimInput

namespace Difuzz.Fuzzer

open Text Mutator

/-! ## 1. States of processes -/

inductive ProcState where
  | normal
  | errCompile
  | errIsaAssert
  | errIsaTimeout
  | errRtlSim
  | errSiRead
  deriving DecidableEq, Repr

/-- `set_state`: the bytes are written anew, all but one as they were. -/
def setState (states : List ProcState) (procNum : Nat) (state : ProcState) : List ProcState :=
  (List.range states.length).map fun i =>
    if i = procNum then state else states.getD i .normal

/-- `get_state`; `None` where the index is out of range. -/
def getState (states : List ProcState) (procNum : Nat) : Option ProcState := states[procNum]?

/-- What `wait_check` comes to: the slot of the process that has ended, or the end of the campaign, with
    the processes that are killed. -/
inductive WaitResult where
  | slot (idx : Nat)
  | abort (killed : List Nat)
  | error
  deriving DecidableEq, Repr

/-- `wait_check`, for what `waitpid` returns. -/
def waitCheck (procPidArr : List Nat) (states : List ProcState) (endPid exitCode : Nat) : WaitResult :=
  match procPidArr.idxOf? endPid with
  | none => .error
  | some idx =>
      if exitCode ≠ 0 then .abort (procPidArr.filter (· ≠ endPid))
      else
        match getState states idx with
        | none => .error
        | some state => if state ≠ .normal then .abort (procPidArr.filter (· ≠ endPid)) else .slot idx

/-- The parent goes on if the process has reported NORMAL. -/
theorem waitCheck_setState {procPidArr : List Nat} {states : List ProcState} {endPid procNum : Nat}
    {state : ProcState} (h : procPidArr.idxOf? endPid = some procNum) (hlen : procNum < states.length) :
    waitCheck procPidArr (setState states procNum state) endPid 0 = .slot procNum ↔ state = .normal := by
  have hget : getState (setState states procNum state) procNum = some state := by
    simp [getState, setState, hlen]
  rw [waitCheck, h]
  dsimp only
  rw [hget]
  by_cases hs : state = .normal
  · simp [hs]
  · simp [hs]

/-! ## 2. Numbers in shared memory -/

inductive Counter where
  | mNum
  | cNum
  deriving DecidableEq, Repr

/-- `n.to_bytes(4, 'little')`, which raises for a number that does not fit. -/
def toBytes (n : Nat) : Option (List Nat) :=
  if n < 2 ^ 32 then some [n % 256, n / 256 % 256, n / 65536 % 256, n / 16777216 % 256] else none

/-- `int.from_bytes(bs, 'little')`. -/
def fromBytes (bs : List Nat) : Nat := bs.foldr (fun b n => b + 256 * n) 0

/-- **What is written is read back.** -/
theorem fromBytes_toBytes {n : Nat} {bs : List Nat} (h : toBytes n = some bs) : fromBytes bs = n := by
  unfold toBytes at h
  split at h
  · rename_i hn
    cases h
    simp only [fromBytes, List.foldr_cons, List.foldr_nil]
    omega
  · cases h

/-! ## 3. Effects -/

/-- What a process does to the world, one step at a time. -/
inductive Act where
  | p (c : Counter)
  | v (c : Counter)
  | write (c : Counter) (n : Nat)
  | covRestore
  | updateCorpus (maxNum : Option Nat)
  | rtlTest (ret : Int) (coverage : Nat)
  | saveMismatch (path : Text)
  | logCoverage (iter coverage : Nat)
  | addCorpus (simInput : SimInput)
  | updatePhase (iteration : Nat)
  | saveErr (procNum : Nat) (state : ProcState)
  | setState (procNum : Nat) (state : ProcState)
  | covStore (procNum : Nat)
  | storeCovmap (procNum iters : Nat)
  deriving DecidableEq, Repr

/-- An action, a read of the shared memory, or an exception. -/
inductive Eff where
  | act (a : Act)
  | read (c : Counter)
  | raise
  deriving DecidableEq, Repr

/-- What is answered; nothing follows an exception. -/
abbrev Ans : Eff → Type
  | .act _ => Unit
  | .read _ => Nat
  | .raise => Empty

abbrev Program (α : Type) := Prog Eff Ans α

abbrev Happens := Prog.Event Eff Ans

def perform (a : Act) : Program Unit := .op (.act a) .ret

def readShm (c : Counter) : Program Nat := .op (.read c) .ret

/-- An exception ends the program. -/
def raise {α : Type} : Program α := .op .raise fun x => nomatch x

/-- Answers for a process that is alone: it reads 0. -/
def alone : (e : Eff) → Option (Ans e)
  | .act _ => some ()
  | .read _ => some (0 : Nat)
  | .raise => none

section Shows

variable {ω : Type} {f : Happens → Option ω}

@[simp] theorem shows_act {a : Act} {Q : List ω → Unit → Prop} :
    Prog.Shows f (perform a) Q ↔ Q (f ⟨.act a, ()⟩).toList () :=
  Prog.shows_op.trans ⟨fun h => h (), fun h _ => h⟩

@[simp] theorem shows_readShm {c : Counter} {Q : List ω → Nat → Prop} :
    Prog.Shows f (readShm c) Q ↔ ∀ n : Nat, Q (f ⟨.read c, n⟩).toList n := Prog.shows_op

@[simp] theorem shows_raise {α : Type} {Q : List ω → α → Prop} : Prog.Shows f raise Q := by
  intro tr a h
  cases h with
  | op _ _ r => exact nomatch r

end Shows

/-- `read_num`: the semaphore is left closed. -/
def readNum (c : Counter) : Program Nat := do
  perform (.p c)
  readShm c

/-- `write_num`: the semaphore is opened. -/
def writeNum (c : Counter) (n : Nat) : Program Unit := do
  perform (.write c n)
  perform (.v c)

/-! ## 4. The shared state -/

/-- The semaphores, the shared memory, and the paths that reports have been saved to, in order. -/
structure Shared where
  sem : Counter → Nat
  shm : Counter → List Nat
  saved : List Text

namespace Shared

/-- The number in the memory of a counter. -/
def value (s : Shared) (c : Counter) : Nat := fromBytes (s.shm c)

/-- How an effect is answered: `P` blocks on a closed semaphore, and a number that does not fit
    is not written. -/
def handle (s : Shared) : (e : Eff) → Option (Ans e × Shared)
  | .act (.p c) =>
      if 0 < s.sem c then some ((), { s with sem := Function.update s.sem c (s.sem c - 1) }) else none
  | .act (.v c) => some ((), { s with sem := Function.update s.sem c (s.sem c + 1) })
  | .act (.write c n) => (toBytes n).map fun bs => ((), { s with shm := Function.update s.shm c bs })
  | .act (.saveMismatch path) => some ((), { s with saved := s.saved ++ [path] })
  | .act _ => some ((), s)
  | .read c => some (s.value c, s)
  | .raise => none

end Shared

/-- The constructor, after the semaphores and the memory have been created: two `write_num`. -/
def ProcManager.new (mNum cNum : Nat) (saved : List Text) : Option Shared := do
  let ms ← toBytes mNum
  let cs ← toBytes cNum
  let s : Shared := ⟨fun _ => 0, fun _ => [0, 0, 0, 0], saved⟩
  let s := { s with shm := Function.update s.shm .mNum ms }
  let s := { s with sem := Function.update s.sem .mNum (s.sem .mNum + 1) }
  let s := { s with shm := Function.update s.shm .cNum cs }
  return { s with sem := Function.update s.sem .cNum (s.sem .cNum + 1) }

/-- The value that each counter starts with. -/
def initial (mNum cNum : Nat) : Counter → Nat
  | .mNum => mNum
  | .cNum => cNum

/-- **After the constructor** both semaphores are open, and the counters have their values. -/
theorem ProcManager.new_spec {mNum cNum : Nat} {saved : List Text} {s : Shared}
    (h : ProcManager.new mNum cNum saved = some s) (c : Counter) :
    s.sem c = 1 ∧ s.value c = initial mNum cNum c ∧ s.saved = saved := by
  unfold ProcManager.new at h
  obtain ⟨ms, hm, h⟩ := Option.bind_eq_some_iff.mp h
  obtain ⟨cs, hc, h⟩ := Option.bind_eq_some_iff.mp h
  cases h
  cases c with
  | mNum => exact ⟨rfl, fromBytes_toBytes hm, rfl⟩
  | cNum => exact ⟨rfl, fromBytes_toBytes hc, rfl⟩

end Difuzz.Fuzzer
